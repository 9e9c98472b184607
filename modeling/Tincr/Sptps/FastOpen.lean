import Tincr.Sptps.Honest
import Tincr.Sptps.Nonce

/-!
Two ways to open a datagram: `open_data_into`, which takes data records only and writes into the caller's
buffer, and `receive`, which takes every record. Both read the same four bytes as the number and open the
rest with the same cipher; they differ in when they look at the record type.
-/

set_option linter.dupNamespace false

namespace Tincr.Sptps

open EStateM M

variable {C : Crypto}

def headerSeqno (data : Bytes) : UInt32 := UInt32.ofNat (BigEndian.decode (data.take 4))

/-- The datagram is long enough and decrypts to this record. -/
structure Authentic (c : SptpsCipher) (data : Bytes) (ty : UInt8) (body : Bytes) : Prop where
  length : 21 ≤ data.length
  opens : c.open? C (headerSeqno data) (data.drop 4) = some (ty :: body)

/-- A datagram is too short, or it does not decrypt, or it is a record: a plaintext has a type byte. -/
theorem datagram_cases (C : Crypto) (c : SptpsCipher) (data : Bytes) :
    data.length < 21 ∨ (21 ≤ data.length ∧ c.open? C (headerSeqno data) (data.drop 4) = none) ∨
      ∃ ty body, Authentic (C := C) c data ty body := by
  rcases Nat.lt_or_ge data.length 21 with hshort | hlong
  · exact .inl hshort
  · cases hopen : c.open? C (headerSeqno data) (data.drop 4) with
    | none => exact .inr (.inl ⟨hlong, rfl⟩)
    | some pt =>
      have hlen := C.length_cipherOpen _ _ _ _ _ hopen
      simp only [List.length_drop, TAG_LEN] at hlen
      cases pt with
      | nil =>
        simp only [List.length_nil] at hlen
        omega
      | cons ty body => exact .inr (.inr ⟨ty, body, hlong, hopen⟩)

theorem Authentic.type_eq {c : SptpsCipher} {data body body' : Bytes} {ty ty' : UInt8}
    (h : Authentic (C := C) c data ty body) (h' : Authentic (C := C) c data ty' body') : ty' = ty := by
  have heq := h'.opens.symm.trans h.opens
  exact (List.cons.inj (Option.some.inj heq)).1

theorem headerSeqno_def (data : Bytes) : headerSeqno data = UInt32.ofNat (BigEndian.decode (data.take 4)) := rfl

theorem slice_header {data : Bytes} (cx : Cx C) (h : 21 ≤ data.length) :
    (slice data 0 4 : M C _).run cx = .ok (data.take 4) cx :=
  slice_of_le _ (Nat.zero_le 4) (by omega)

theorem slice_body {data : Bytes} (cx : Cx C) (h : 21 ≤ data.length) :
    (slice data 4 data.length : M C _).run cx = .ok (data.drop 4) cx := by
  rw [slice_of_le _ (by omega) le_rfl, List.take_length]

section Handshake

theorem records_emitAll (cx : Cx C) (bodies : List Bytes) : records (cx.emitAll bodies).out = records cx.out := by
  induction bodies generalizing cx with
  | nil => rfl
  | cons body rest ih =>
    have hstep : cx.emitAll (body :: rest) = (cx.emit REC_HANDSHAKE body).emitAll rest := rfl
    rw [hstep, ih]
    simp [Cx.emit, records]

theorem Opens.records {cx cx1 : Cx C} (h : Opens cx cx1) : records cx1.out = records cx.out := by
  cases h with
  | kex hst => rfl
  | secondary hst hm => simp [Cx.kexSent, Cx.emit, Sptps.records]

theorem Signed.records {cx cx1 : Cx C} {k : Bytes} (h : Signed cx k cx1) : records cx1.out = records cx.out := by
  obtain ⟨sigs, acks, -, -, -, -, -, -⟩ := h
  exact (records_emitAll _ acks).trans (records_emitAll _ sigs)

theorem records_finish (cx : Cx C) : records cx.finish.out = records cx.out := by
  simp [Cx.finish, records]

/-- A handshake record delivers no application record. -/
theorem Handled.records {cx cx' : Cx C} {body : Bytes} (h : Handled cx body cx') :
    records cx'.out = records cx.out := by
  cases h with
  | rejected h => rfl
  | kexRefused hopen hbody => exact hopen.records
  | kexTaken sigs hopen hbody hs he => exact (records_emitAll _ sigs).trans hopen.records
  | sigRefused hst hm hh => rfl
  | sigRekey hsig hout => exact hsig.records
  | sigFirst hsig hout hk => exact (records_finish _).trans hsig.records
  | sigFirstHybrid hsig hout hk => exact (records_emitAll _ [[]]).trans hsig.records
  | acked hst hk | confirmed hst => exact records_finish _

end Handshake

section Equations

variable {cx : Cx C} {c : SptpsCipher} {data : Bytes} {ty : UInt8} {body : Bytes}
variable (hf : cx.self.framing = .datagram) (hin : cx.self.incipher = some c)

include hf hin

theorem receive_short (h : data.length < 21) : (receive data).run cx = .error (.err .badSeqno) cx.clearOut := by
  simp [receive, receiveDatagram, run_bind, hf, hin, h, Cx.clearOut]

theorem receive_undecrypted (hlen : 21 ≤ data.length) (h : c.open? C (headerSeqno data) (data.drop 4) = none) :
    (receive data).run cx = .error (.err .decryptFailed) cx.clearOut := by
  simp only [receive, receiveDatagram, run_bind, freshOut_apply, self_apply, hf, hin, Option.isSome_some, if_true,
    if_neg hlen.not_gt, slice_header _ hlen, slice_body _ hlen, ← headerSeqno_def,
    h, getOrElse_none]
  rfl

/-- The window decides before the record type is looked at. -/
theorem receive_authentic (h : Authentic (C := C) c data ty body) :
    (receive data).run cx =
      match cx.self.replay.check (headerSeqno data) true with
      | (.error e, w) => .error (.err e) (cx.clearOut.setReplay w)
      | (.ok _, w) => (dispatchRecord ty body true >>= fun _ => pure data.length).run
          ((cx.clearOut.setReplay w).opening (headerSeqno data) ty body) := by
  simp only [receive, receiveDatagram, run_bind, freshOut_apply, self_apply, hf, hin, Option.isSome_some, if_true,
    if_neg h.length.not_gt, slice_header _ h.length, slice_body _ h.length, ← headerSeqno_def,
    h.opens, getOrElse_some,
    replayCheck_apply]
  rcases hcheck : cx.self.replay.check (headerSeqno data) true with ⟨e | ⟨⟩, w⟩
  · simp only [fail_apply, Cx.setReplay, Cx.clearOut, hf, hin]
  · simp only [run_bind, uncons_cons, note_apply, Cx.opening, Cx.setReplay, Cx.clearOut, hf, hin]

theorem receive_data (hst : cx.self.state ≠ .confirm) (h : Authentic (C := C) c data ty body) (hty : ty < REC_HANDSHAKE) :
    (receive data).run cx =
      match cx.self.replay.check (headerSeqno data) true with
      | (.error e, w) => .error (.err e) (cx.clearOut.setReplay w)
      | (.ok _, w) => .ok data.length
          (((cx.clearOut.setReplay w).opening (headerSeqno data) ty body).pushed (.record ty body)) := by
  rw [receive_authentic hf hin h]
  rcases hcheck : cx.self.replay.check (headerSeqno data) true with ⟨e | ⟨⟩, w⟩
  · rfl
  · have hopen : ¬ (true = false ∨ cx.self.state = .confirm) := by simp [hst]
    simp only [dispatchRecord, if_pos hty, run_bind, self_apply, Cx.opening, Cx.setReplay, Cx.clearOut,
      if_neg hopen, push_apply, run_pure, Cx.pushed]

/-- A record that is not data is no output of `receive`. -/
theorem receive_handshake_records (h : Authentic (C := C) c data ty body) (hty : REC_HANDSHAKE ≤ ty) {n : ℕ}
    {cx' : Cx C} (hrun : (receive data).run cx = .ok n cx') : records cx'.out = [] := by
  rw [receive_authentic hf hin h] at hrun
  rcases hcheck : cx.self.replay.check (headerSeqno data) true with ⟨e | ⟨⟩, w⟩
  · rw [hcheck] at hrun
    cases hrun
  · rw [hcheck] at hrun
    dsimp only at hrun
    generalize hcx : (cx.clearOut.setReplay w).opening (headerSeqno data) ty body = cx₁ at hrun
    have hempty : records cx₁.out = [] := by
      rw [← hcx]
      rfl
    have hends := dispatchRecord_ends cx₁ ty body true (by
      rw [← hcx]
      simp [Cx.opening, Cx.setReplay, Cx.clearOut, hin])
    rw [run_bind] at hrun
    unfold Ends Post at hends
    cases hd : (dispatchRecord ty body true).run cx₁ with
    | error f cx₂ =>
      rw [hd] at hrun
      cases hrun
    | ok u cx₂ =>
      rw [hd] at hrun hends
      obtain ⟨rfl, rfl⟩ := EStateM.Result.ok.inj hrun
      cases hends with
      | refused _ => exact hempty
      | record hdata _ _ => exact absurd hdata (UInt8.not_lt.2 hty)
      | handshake _ hh => exact hh.records.trans hempty

theorem openDataInto_short (hst : cx.self.state ≠ .confirm) (out : Bytes) (headroom : ℕ)
    (h : data.length < 21) :
    (openDataInto data out headroom).run cx = .ok (.error .badSeqno, out) cx := by
  simp [openDataInto, openWithSeqno, run_bind, hf, hst, hin, h]

theorem openDataInto_undecrypted (hst : cx.self.state ≠ .confirm) (out : Bytes) (headroom : ℕ)
    (hlen : 21 ≤ data.length) (h : c.open? C (headerSeqno data) (data.drop 4) = none) :
    (openDataInto data out headroom).run cx = .ok (.error .decryptFailed, List.replicate headroom 0) cx := by
  simp only [openDataInto, openWithSeqno, run_bind, self_apply, hf, ne_eq, not_true, if_false, hst, or_self, hin,
    if_neg hlen.not_gt, slice_header _ hlen, slice_body _ hlen, ← headerSeqno_def,
    h, run_pure]

/-- A record that is not data is left to `receive`: nothing of the session has changed. -/
theorem openDataInto_handshake (hst : cx.self.state ≠ .confirm) (out : Bytes) (headroom : ℕ)
    (h : Authentic (C := C) c data ty body) (hty : REC_HANDSHAKE ≤ ty) :
    (openDataInto data out headroom).run cx = .ok (.error .badRecord, List.replicate headroom 0) cx := by
  simp only [openDataInto, openWithSeqno, run_bind, self_apply, hf, ne_eq, not_true, if_false, hst, or_self, hin,
    if_neg h.length.not_gt, slice_header _ h.length, slice_body _ h.length, ← headerSeqno_def,
    h.opens, uncons_cons, if_pos hty,
    run_pure]

/-- A data record is accepted or not as the window says; its type byte is shifted out of the buffer. -/
theorem openDataInto_data (hst : cx.self.state ≠ .confirm) (out : Bytes) (headroom : ℕ)
    (h : Authentic (C := C) c data ty body) (hty : ty < REC_HANDSHAKE) :
    (openDataInto data out headroom).run cx =
      match cx.self.replay.check (headerSeqno data) true with
      | (.error e, w) => .ok (.error e, List.replicate headroom 0)
          ((cx.opening (headerSeqno data) ty body).setReplay w)
      | (.ok _, w) => .ok (.ok ty, List.replicate headroom 0 ++ body)
          ((cx.opening (headerSeqno data) ty body).setReplay w) := by
  have hdata : ¬ REC_HANDSHAKE ≤ ty := UInt8.not_le.2 hty
  simp only [openDataInto, openWithSeqno, run_bind, self_apply, hf, ne_eq, not_true, if_false, hst, or_self, hin,
    if_neg h.length.not_gt, slice_header _ h.length, slice_body _ h.length, ← headerSeqno_def,
    h.opens, uncons_cons, if_neg hdata,
    note_apply, run_pure, replayCheck_apply]
  rcases hcheck : cx.self.replay.check (headerSeqno data) true with ⟨e | ⟨⟩, w⟩
  · simp only [run_pure, Cx.opening, Cx.setReplay, hf, hin, List.take_left' List.length_replicate]
  · have hstrip : headroom + 1 ≤ (List.replicate headroom (0 : UInt8) ++ ty :: body).length := by simp
    simp only [stripType, run_bind, slice_of_le _ hstrip le_rfl, run_pure, List.take_length,
      List.take_left' List.length_replicate, Cx.opening, Cx.setReplay, hf, hin]
    simp [List.drop_append]

end Equations

theorem nullReady_run : Run nullDatagram nullReady :=
  .ok (.ok (.start (startWith_apply _ ())) _ () null_returns.1) _ () null_returns.2.1

def nullDatagramOf (seqno : UInt32) (ty : UInt8) (body : Bytes) : Bytes :=
  recordWire (C := Crypto.null) .datagram nullReady.self.incipher seqno ty body

end Tincr.Sptps
