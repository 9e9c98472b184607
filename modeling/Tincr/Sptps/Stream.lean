import Tincr.Sptps.Run

/-!
Reassembly on a stream. A record on the wire is a length, a type and a body, sealed or not; whatever
piece of the byte stream `receive` is handed, it keeps the bytes of the record in progress or finishes
exactly that record and processes it.
-/

set_option linter.dupNamespace false

namespace Tincr.Sptps

open EStateM M

variable {C : Crypto}

/-- A record as it was sealed, or as it is expected: cipher, number, type and body. -/
structure Rec where
  cipher : Option SptpsCipher
  seqno : UInt32
  ty : UInt8
  body : Bytes
deriving DecidableEq, Repr

def Rec.wire (C : Crypto) (r : Rec) : Bytes := recordWire (C := C) .stream r.cipher r.seqno r.ty r.body

/-- What follows the two length bytes. -/
def Rec.payload (C : Crypto) (r : Rec) : Bytes :=
  match r.cipher with
  | some c => c.seal C r.seqno (r.ty :: r.body)
  | none => r.ty :: r.body

theorem wire_eq (r : Rec) : r.wire C = BigEndian.encode 2 r.body.length ++ r.payload C := rfl

theorem length_payload (r : Rec) :
    (r.payload C).length = r.body.length + 1 + if r.cipher.isSome then TAG_LEN else 0 := by
  cases hc : r.cipher <;>
    simp [Rec.payload, hc, SptpsCipher.seal, C.length_cipherSeal]

theorem length_wire (r : Rec) : (r.wire C).length =
    2 + (r.body.length + 1 + if r.cipher.isSome then TAG_LEN else 0) := by
  rw [wire_eq, List.length_append, BigEndian.length_encode, length_payload]

/-- The session is in the middle of `r`: it has the cipher and the number of `r`, and what it has
buffered is the start of it. -/
structure Expects (s : Sptps C) (r : Rec) : Prop where
  cipher : s.incipher = r.cipher
  seqno : s.inseqno = r.seqno
  fits : r.body.length < 2 ^ 16
  preauth : s.incipher = none → r.body.length ≤ MAX_PREAUTH_RECLEN
  started : s.stream.buf <+: r.wire C
  unfinished : s.stream.buf.length < (r.wire C).length
  reclen : 2 ≤ s.stream.buf.length → s.stream.reclen = r.body.length

theorem decode_header {r : Rec} {buf : Bytes} (hfits : r.body.length < 2 ^ 16)
    (hstart : buf <+: r.wire C) (hlen : 2 ≤ buf.length) :
    BigEndian.decode (buf.take 2) = r.body.length := by
  have htake : buf.take 2 = (r.wire C).take 2 := by
    obtain ⟨rest, hrest⟩ := hstart
    rw [← hrest, List.take_append_of_le_length hlen]
  have henc : (r.wire C).take 2 = BigEndian.encode 2 r.body.length := by
    rw [wire_eq, List.take_left' (BigEndian.length_encode 2 _)]
  rw [htake, henc, BigEndian.decode_encode_of_lt (by omega)]

theorem recordTotal_eq {s : Sptps C} {r : Rec} (hc : s.incipher = r.cipher)
    (hlen : s.stream.reclen = r.body.length) : s.recordTotal = (r.wire C).length := by
  rw [Sptps.recordTotal, length_wire, hc, hlen]
  split <;> simp_all

theorem append_take_of_prefix {buf data w rest : Bytes} (hd : buf ++ data <+: w ++ rest)
    (hle : buf.length ≤ w.length) (henough : w.length ≤ buf.length + data.length) :
    buf ++ data.take (w.length - buf.length) = w := by
  have hw : w <+: buf ++ data :=
    List.prefix_of_prefix_length_le (List.prefix_append w rest) hd (by simpa using henough)
  have htake := List.prefix_iff_eq_take.mp hw
  rw [List.take_append, List.take_of_length_le hle] at htake
  exact htake.symm

/-- The session with another reassembly buffer. -/
def Cx.withStream (cx : Cx C) (st : StreamBuf) : Cx C := { cx with self := { cx.self with stream := st } }

theorem receiveRest_prefix (cx : Cx C) {r : Rec} {rest : Bytes} (data : Bytes) (consumed : ℕ)
    (hc : cx.self.incipher = r.cipher) (hlen : cx.self.stream.reclen = r.body.length)
    (hunf : cx.self.stream.buf.length < (r.wire C).length) (hcons : consumed ≤ data.length)
    (hd : cx.self.stream.buf ++ data.drop consumed <+: r.wire C ++ rest) :
    (cx.self.stream.buf.length + (data.length - consumed) < (r.wire C).length ∧
      (receiveRest data consumed).run cx = .ok data.length
        (cx.withStream ⟨cx.self.stream.buf ++ data.drop consumed, r.body.length⟩)) ∨
    (∃ st, consumed + ((r.wire C).length - cx.self.stream.buf.length) ≤ data.length ∧
      (receiveRest data consumed).run cx = (do
        processFramed (r.wire C)
        pure (consumed + ((r.wire C).length - cx.self.stream.buf.length))).run (cx.withStream st)) := by
  have htotal := recordTotal_eq hc hlen
  have hno : ¬ cx.self.recordTotal < cx.self.stream.buf.length := by omega
  by_cases hshort : cx.self.stream.buf.length + (data.length - consumed) < (r.wire C).length
  · left
    refine ⟨hshort, ?_⟩
    have hmin : min (cx.self.recordTotal - cx.self.stream.buf.length) (data.length - consumed) =
        data.length - consumed := by omega
    have hall : consumed + (data.length - consumed) = data.length := by omega
    have hslice := slice_of_le cx hcons (le_refl data.length)
    rw [List.take_length] at hslice
    have hless : (cx.self.stream.buf ++ data.drop consumed).length < cx.self.recordTotal := by
      simp only [List.length_append, List.length_drop]
      omega
    simp only [receiveRest, run_bind, self_apply, if_neg hno, hmin, hall, hslice, update_apply,
      if_pos hless, run_pure, Cx.withStream, hlen]
  · right
    have hmin : min (cx.self.recordTotal - cx.self.stream.buf.length) (data.length - consumed) =
        (r.wire C).length - cx.self.stream.buf.length := by omega
    have hfull : cx.self.stream.buf ++
        (data.drop consumed).take ((r.wire C).length - cx.self.stream.buf.length) = r.wire C :=
      append_take_of_prefix hd hunf.le (by simp only [List.length_drop]; omega)
    have hmore : ¬ (r.wire C).length < cx.self.recordTotal := by omega
    have hslice := slice_of_le cx (Nat.le_add_right consumed
      ((r.wire C).length - cx.self.stream.buf.length)) (show _ ≤ data.length by omega)
    rw [List.drop_take, Nat.add_sub_cancel_left] at hslice
    refine ⟨⟨r.wire C, cx.self.stream.reclen⟩, by omega, ?_⟩
    simp only [receiveRest, run_bind, self_apply, if_neg hno, hmin, hslice, hfull, update_apply,
      if_neg hmore, Cx.withStream]

/-- One call with the next bytes of a stream that goes on with the rest of `r`: they are buffered and
`r` stays unfinished, or `r` is finished and processed, with the bytes after it left to the caller. -/
theorem receive_prefix {cx : Cx C} {r : Rec} {data rest : Bytes} (hf : cx.self.framing = .stream)
    (he : Expects cx.self r) (hd : cx.self.stream.buf ++ data <+: r.wire C ++ rest) :
    (∃ st, st.buf = cx.self.stream.buf ++ data ∧ st.buf.length < (r.wire C).length ∧
      (2 ≤ st.buf.length → st.reclen = r.body.length) ∧
      (receive data).run cx = .ok data.length (cx.clearOut.withStream st)) ∨
    (∃ st, (r.wire C).length - cx.self.stream.buf.length ≤ data.length ∧
      (receive data).run cx = (do
        processFramed (r.wire C)
        pure ((r.wire C).length - cx.self.stream.buf.length)).run (cx.clearOut.withStream st)) := by
  have hrun : (receive data).run cx = (receiveStream data).run cx.clearOut := by
    simp only [receive, run_bind, freshOut_apply, self_apply, hf, Cx.clearOut]
  rw [hrun]
  have hwlen := length_wire (C := C) r
  by_cases hhead : cx.self.stream.buf.length < 2
  · by_cases hfew : cx.self.stream.buf.length + data.length < 2
    · -- not even the length bytes
      left
      have hmin : min (2 - cx.self.stream.buf.length) data.length = data.length := by omega
      refine ⟨⟨cx.self.stream.buf ++ data, cx.self.stream.reclen⟩, rfl, ?_, ?_, ?_⟩
      · simp only [List.length_append]
        omega
      · simp only [List.length_append]
        omega
      · have hlt : (cx.self.stream.buf ++ data).length < 2 := by simpa using hfew
        have hslice := slice_of_le cx.clearOut (Nat.zero_le _) (le_refl data.length)
        rw [List.take_length, List.drop_zero] at hslice
        refine (run_bind_ok (self_apply _)).trans ?_
        simp only [Cx.clearOut, if_pos hhead, hmin] at hslice ⊢
        refine (run_bind_ok hslice).trans ?_
        simp only [run_bind, update_apply, if_pos hlt, run_pure, Cx.withStream]
    · -- the length is complete
      let take := 2 - cx.self.stream.buf.length
      let buf := cx.self.stream.buf ++ data.take take
      let cx2 := cx.clearOut.withStream ⟨buf, r.body.length⟩
      have hmin : min (2 - cx.self.stream.buf.length) data.length = take := by omega
      have hlen : buf.length = 2 := by
        simp only [buf, take, List.length_append, List.length_take]
        omega
      have hsplit : buf ++ data.drop take = cx.self.stream.buf ++ data := by
        simp only [buf, List.append_assoc, List.take_append_drop]
      have hstart : buf <+: r.wire C := by
        have hbuf : buf <+: r.wire C ++ rest := (List.prefix_append buf _).trans (hsplit ▸ hd)
        exact List.prefix_of_prefix_length_le hbuf (List.prefix_append _ rest) (by omega)
      have hreclen : BigEndian.decode (buf.take 2) = r.body.length :=
        decode_header he.fits hstart hlen.ge
      have hpre : ¬ (cx.self.incipher.isNone = true ∧ MAX_PREAUTH_RECLEN < r.body.length) := by
        rintro ⟨hnone, hlong⟩
        have := he.preauth (Option.isNone_iff_eq_none.mp hnone)
        omega
      have hrun2 : (receiveStream data).run cx.clearOut =
          if take = data.length then .ok take cx2 else (receiveRest data take).run cx2 := by
        have hno : ¬ buf.length < 2 := by omega
        have hslice := slice_of_le cx.clearOut (Nat.zero_le take) (show take ≤ data.length by omega)
        refine (run_bind_ok (self_apply _)).trans ?_
        simp only [Cx.clearOut, if_pos hhead, hmin, List.drop_zero] at hslice ⊢
        refine (run_bind_ok hslice).trans ?_
        refine (run_bind_ok (update_apply _ _)).trans ?_
        change (if buf.length < 2 then _ else _ : M C ℕ).run _ = _
        rw [if_neg hno]
        refine (run_bind_ok (slice_of_le _ (Nat.zero_le 2) hlen.ge)).trans ?_
        rw [List.drop_zero, hreclen]
        refine (run_bind_ok (update_apply _ _)).trans ?_
        rw [if_neg hpre, run_ite]
        rfl
      rw [hrun2]
      split_ifs with hall
      · left
        refine ⟨⟨buf, r.body.length⟩, ?_, by simp only; omega, fun _ => rfl, ?_⟩
        · simp only [buf, hall, List.take_length]
        · rw [← hall]
      · obtain ⟨hlt, hbuf⟩ | ⟨st, hle, hproc⟩ := receiveRest_prefix cx2 data take he.cipher rfl
          (by change buf.length < _; omega) (by omega) (by rw [← hsplit] at hd; exact hd)
        · left
          refine ⟨⟨cx.self.stream.buf ++ data, r.body.length⟩, rfl, ?_, fun _ => rfl, ?_⟩
          · change buf.length + (data.length - take) < _ at hlt
            simp only [List.length_append]
            omega
          · rw [hbuf, ← hsplit]
            rfl
        · right
          change take + ((r.wire C).length - buf.length) ≤ _ at hle
          refine ⟨st, by omega, ?_⟩
          rw [hproc]
          change (processFramed (r.wire C) >>= fun _ =>
            pure (take + ((r.wire C).length - buf.length))).run (cx.clearOut.withStream st) = _
          rw [show take + ((r.wire C).length - buf.length) =
            (r.wire C).length - cx.self.stream.buf.length by omega]
  · -- the length was read before
    have hno : ¬ cx.self.stream.buf.length < 2 := hhead
    have hrest : (receiveStream data).run cx.clearOut = (receiveRest data 0).run cx.clearOut := by
      simp only [receiveStream, run_bind, self_apply, Cx.clearOut, if_neg hno]
    rw [hrest]
    have hcase := receiveRest_prefix cx.clearOut data 0 he.cipher (he.reclen (by omega)) he.unfinished
      (Nat.zero_le _) (by simpa [Cx.clearOut] using hd)
    obtain ⟨hlt, hbuf⟩ | ⟨st, hle, hproc⟩ := hcase
    · left
      refine ⟨⟨cx.self.stream.buf ++ data, r.body.length⟩, rfl, ?_, fun _ => rfl, ?_⟩
      · simpa [Cx.clearOut] using hlt
      · simpa [Cx.clearOut] using hbuf
    · right
      refine ⟨st, by simpa [Cx.clearOut] using hle, ?_⟩
      simpa [Cx.clearOut] using hproc

/-- The session has taken `r` off the stream and is about to dispatch it. -/
def Cx.tookRec (cx : Cx C) (r : Rec) : Cx C :=
  { cx with
    self := { cx.self with inseqno := r.seqno + 1, stream := ⟨[], 0⟩ }
    log := cx.log ++ [.opened r.cipher r.seqno r.ty r.body] }

/-- A whole record with the right cipher and number opens to what was sealed. -/
theorem processFramed_rec (hC : C.Correct) {cx : Cx C} {r : Rec} (hc : cx.self.incipher = r.cipher)
    (hn : cx.self.inseqno = r.seqno) :
    (processFramed (r.wire C)).run cx =
      (dispatchRecord r.ty r.body r.cipher.isSome).run (cx.tookRec r) := by
  have hlen : 2 ≤ (r.wire C).length := by
    rw [length_wire]
    omega
  have hdrop : ((r.wire C).take (r.wire C).length).drop 2 = r.payload C := by
    rw [List.take_length, wire_eq, List.drop_left' (BigEndian.length_encode 2 _)]
  cases hcr : r.cipher with
  | none =>
    have hpay : r.payload C = r.ty :: r.body := by simp [Rec.payload, hcr]
    simp only [processFramed, run_bind, self_apply, update_apply, slice_of_le _ hlen le_rfl, hc, hcr,
      hdrop, hpay, run_pure, uncons_cons, note_apply, Cx.tookRec, hn]
  | some c =>
    have hpay : c.open? C r.seqno (r.payload C) = some (r.ty :: r.body) := by
      simp only [Rec.payload, hcr, SptpsCipher.open?, SptpsCipher.seal]
      exact hC.open_seal _ _ _ _
    simp only [processFramed, run_bind, self_apply, update_apply, slice_of_le _ hlen le_rfl, hc, hcr,
      hdrop, hn, hpay, getOrElse_some, uncons_cons, note_apply, Cx.tookRec]

end Tincr.Sptps
