import Tincr.Sptps.Auth

/-!
No call on a session panics. `Present` says which of the handshake's options are set in which state,
also after a record that failed half way, and `Framed` that the reassembly buffer is shorter than the
record it waits for. Every call keeps both, and under both none of the `expect`s, slices and
subtractions of a call fails.
-/

set_option linter.dupNamespace false

namespace Tincr.Sptps

open EStateM M

variable {C : Crypto} {cfg : Config C}

def Fault.isErr : Fault → Prop
  | .err _ => True
  | .panic _ => False

/-- The run of `x` from `cx` returns or fails with an error. -/
def NoPanic {α : Type} (x : M C α) (cx : Cx C) : Prop :=
  Post x (fun _ _ => True) (fun f _ => f.isErr) cx

section Rules

variable {α β : Type} {x : M C α} {cx cx' : Cx C}

/-- What the first action leads to is read off its `Ends` rules. -/
theorem noPanic_bind {f : α → M C β} :
    NoPanic (x >>= f) cx ↔ NoPanic x cx ∧ Ends x cx (fun a cx' => NoPanic (f a) cx') fun _ => True := by
  unfold NoPanic Ends Post
  rw [run_bind]
  rcases x.run cx with ⟨a, cx'⟩ | ⟨e | p, cx'⟩ <;> simp [orErr, Fault.isErr]

theorem NoPanic.bind {f : α → M C β} (hx : NoPanic x cx) (hf : ∀ a cx', NoPanic (f a) cx') :
    NoPanic (x >>= f) cx := by
  refine noPanic_bind.mpr ⟨hx, ?_⟩
  unfold Ends Post
  rcases x.run cx with ⟨a, cx'⟩ | ⟨e | p, cx'⟩
  · exact hf a cx'
  · trivial
  · trivial

theorem noPanic_of_ok {a : α} (h : x.run cx = .ok a cx') : NoPanic x cx := (post_of_ok h).mpr trivial

theorem noPanic_of_err {e : SptpsError} (h : x.run cx = .error (.err e) cx') : NoPanic x cx :=
  (post_of_error h).mpr trivial

theorem noPanic_congr {cx cx' : Cx C} {y : M C α} (h : x.run cx = y.run cx') :
    NoPanic x cx ↔ NoPanic y cx' := by
  unfold NoPanic Post
  rw [h]

theorem NoPanic.returns {Q : α → Cx C → Prop} (h : NoPanic x cx) (hends : Ends x cx Q fun _ => False) :
    ∃ a cx', x.run cx = .ok a cx' ∧ Q a cx' := by
  unfold NoPanic Ends Post at *
  rcases hx : x.run cx with ⟨a, cx'⟩ | ⟨e | p, cx'⟩ <;> rw [hx] at h hends
  · exact ⟨a, cx', rfl, hends⟩
  · exact hends.elim
  · exact h.elim

theorem NoPanic.run_ne (h : NoPanic x cx) (p : Panic) : x.run cx ≠ .error (.panic p) cx' :=
  fun hrun => (post_of_error hrun).mp h

@[simp] theorem noPanic_pure (a : α) : NoPanic (pure a : M C α) cx := trivial
@[simp] theorem noPanic_self : NoPanic self cx := trivial
@[simp] theorem noPanic_update (f : Sptps C → Sptps C) : NoPanic (update f) cx := trivial
@[simp] theorem noPanic_fail (e : SptpsError) : NoPanic (fail e : M C α) cx := trivial
@[simp] theorem noPanic_push (o : Output) : NoPanic (push o) cx := trivial
@[simp] theorem noPanic_note (e : Event) : NoPanic (note e) cx := trivial
@[simp] theorem noPanic_freshOut : NoPanic freshOut cx := trivial
@[simp] theorem noPanic_draw (f : C.Rng → α × C.Rng) : NoPanic (draw f) cx := trivial

@[simp] theorem noPanic_panic (p : Panic) : NoPanic (M.panic p : M C α) cx ↔ False := Iff.rfl

@[simp] theorem noPanic_expect (o : Option α) (p : Panic) :
    NoPanic (getOrElse o (.panic p) : M C α) cx ↔ o.isSome := by
  cases o <;> simp [NoPanic, Post, Fault.isErr]

@[simp] theorem noPanic_okOr (o : Option α) (e : SptpsError) :
    NoPanic (getOrElse o (.err e) : M C α) cx := by
  cases o <;> trivial

@[simp] theorem noPanic_slice (bs : Bytes) (lo hi : ℕ) :
    NoPanic (slice bs lo hi) cx ↔ lo ≤ hi ∧ hi ≤ bs.length := by
  by_cases h : lo ≤ hi ∧ hi ≤ bs.length <;> simp [NoPanic, Post, slice, run, Fault.isErr, h]

@[simp] theorem noPanic_uncons (pt : Bytes) : NoPanic (uncons pt) cx ↔ pt ≠ [] := by
  cases pt <;> simp [NoPanic, Post, Fault.isErr]

@[simp] theorem noPanic_onlyIf {c : Bool} {x : M C Unit} :
    NoPanic (onlyIf c x) cx ↔ (c = true → NoPanic x cx) := by
  cases c <;> simp [onlyIf]

theorem noPanic_ite {c : Prop} [Decidable c] {y : M C α} :
    NoPanic (if c then x else y) cx ↔ (c → NoPanic x cx) ∧ (¬ c → NoPanic y cx) := post_ite

theorem okOr_noPanic (r : Except SptpsError α × β) (cx : Cx C) : NoPanic (okOr r) cx := by
  unfold okOr
  split <;> trivial

@[simp] theorem noPanic_replayCheck (seqno : UInt32) : NoPanic (replayCheck seqno) cx :=
  noPanic_of_ok (replayCheck_apply cx seqno)

end Rules

section Handshake

variable (cx : Cx C) {mk hk body : Bytes}

theorem sendRecordPriv_noPanic (ty : UInt8) (h : cx.self.framing = .stream → body.length < 2 ^ 16) :
    NoPanic (sendRecordPriv ty body) cx := by
  simp only [sendRecordPriv, noPanic_bind, noPanic_self, ends_self, noPanic_update, ends_update,
    noPanic_ite, noPanic_panic, noPanic_note, ends_note, noPanic_push, true_and, implies_true, and_true]
  exact fun hlong => absurd (h hlong.1) (not_lt.mpr hlong.2)

theorem sendKex_noPanic : NoPanic sendKex cx := by
  by_cases hm : cx.self.mykex = none
  · exact noPanic_of_ok (sendKex_apply cx hm)
  · exact noPanic_of_err (sendKex_busy cx (Option.isSome_iff_ne_none.mpr hm))

/-- A SIG fits a record, with the ciphertext of hybrid mode after it. -/
theorem sendSig_noPanic (hm : cx.self.mykex = some mk) (hh : cx.self.hiskex = some hk)
    (he : Encapsulated cx.self.kex cx.self.mlkemEncap) : NoPanic sendSig cx := by
  obtain ⟨ct, hct, hlen⟩ : ∃ ct, cx.self.sigCt = some ct ∧ ct.length ≤ MLKEM_CT_LEN := by
    unfold Sptps.sigCt
    split
    case h_1 => exact ⟨[], rfl, Nat.zero_le _⟩
    case h_2 hk =>
      obtain ⟨ct, ss, hp, hlen⟩ := he hk
      exact ⟨ct, by rw [hp]; rfl, hlen.le⟩
  refine (noPanic_congr (sendSig_eq cx hm hh hct)).mpr (sendRecordPriv_noPanic cx _ fun _ => ?_)
  rw [Sptps.sigBody, List.length_append, C.length_sign]
  have : SIG_LEN + MLKEM_CT_LEN < 2 ^ 16 := by decide
  omega

theorem receiveKex_noPanic (hm : cx.self.mykex = some mk) : NoPanic (receiveKex body) cx := by
  obtain ⟨-, h⟩ | ⟨-, ⟨r, h⟩ | ⟨e, r, he, h⟩⟩ := receiveKex_cases cx body
  · exact noPanic_of_err h
  · exact noPanic_of_err h
  · refine (noPanic_congr h).mpr (noPanic_onlyIf.mpr fun _ => ?_)
    exact sendSig_noPanic (cx.kexStored body e r) hm rfl he

theorem generateKeyMaterial_noPanic (shared kemHash : Bytes) (hm : cx.self.mykex = some mk)
    (hh : cx.self.hiskex = some hk) (hml : KEX_LEN ≤ mk.length) (hhl : KEX_LEN ≤ hk.length) :
    NoPanic (generateKeyMaterial shared kemHash) cx := by
  have hnonce : 1 + NONCE_LEN ≤ KEX_LEN := by decide
  exact noPanic_of_ok (generateKeyMaterial_apply cx shared kemHash hm hh (hnonce.trans hml)
    (hnonce.trans hhl))

theorem agreeKey_noPanic (hm : cx.self.mykex = some mk) (hh : cx.self.hiskex = some hk)
    (hml : KEX_LEN ≤ mk.length) (hhl : KEX_LEN ≤ hk.length) (hlen : body.length = sigLen cx.self.kex)
    (he : Encapsulated cx.self.kex cx.self.mlkemEncap) : NoPanic (agreeKey body) cx := by
  have hnonce : 1 + NONCE_LEN ≤ KEX_LEN := by decide
  simp only [agreeKey, noPanic_bind, noPanic_self, ends_self, noPanic_expect, ends_expect, hm, hh,
    Option.isSome_some, true_and, Option.some.injEq, forall_eq', noPanic_slice, ends_slice,
    noPanic_update, ends_update, noPanic_okOr, ends_okOr]
  refine ⟨⟨hnonce, hhl⟩, fun _ => ⟨fun _ _ => ⟨fun x _ => ?_, fun _ => trivial⟩, fun _ => trivial⟩⟩
  split
  case h_1 => exact generateKeyMaterial_noPanic _ _ _ rfl rfl hml hhl
  case h_2 hk =>
    obtain ⟨ct, ss, hp, -⟩ := he hk
    rw [hk, sigLen] at hlen
    simp only [noPanic_bind, noPanic_slice, ends_slice, noPanic_update, ends_update, noPanic_okOr,
      ends_okOr, noPanic_expect, ends_expect, hp, Option.isSome_some, true_and, Option.some.injEq,
      forall_eq']
    refine ⟨⟨Nat.le_add_right _ _, hlen.ge⟩, fun _ => ⟨fun _ _ => ?_, fun _ => trivial⟩⟩
    exact ⟨⟨hml, le_rfl⟩, fun _ => ⟨⟨hhl, le_rfl⟩, fun _ =>
      generateKeyMaterial_noPanic _ _ _ rfl rfl hml hhl⟩⟩

/-- Which options of the handshake are set in which state. The KEX bodies may outlive a failed record:
what is stored has the right length in any state. -/
structure Present (s : Sptps C) : Prop where
  mykex_length : ∀ mk, s.mykex = some mk → mk.length = kexLen s.kex
  hiskex_length : ∀ hk, s.hiskex = some hk → hk.length = kexLen s.kex
  mykex : s.state = .kex ∨ s.state = .sig → s.mykex.isSome
  hiskex : s.state = .sig → s.hiskex.isSome
  encap : s.state = .sig → Encapsulated s.kex s.mlkemEncap
  key : s.state = .ack → s.key.isSome

def Sptps.kexFields (s : Sptps C) :=
  (s.state, s.kex, s.mykex, s.hiskex, s.mlkemEncap, s.key)

theorem Present.congr {s s' : Sptps C} (h : Present s) (he : s'.kexFields = s.kexFields) : Present s' := by
  simp only [Sptps.kexFields, Prod.mk.injEq] at he
  obtain ⟨hst, hkex, hm, hh, henc, hkey⟩ := he
  constructor
  · rw [hm, hkex]; exact h.mykex_length
  · rw [hh, hkex]; exact h.hiskex_length
  · rw [hst, hm]; exact h.mykex
  · rw [hst, hh]; exact h.hiskex
  · rw [hst, hkex, henc]; exact h.encap
  · rw [hst, hkey]; exact h.key

theorem Present.pair {s : Sptps C} (h : Present s) (hst : s.state = .sig) :
    ∃ mk hk, s.mykex = some mk ∧ s.hiskex = some hk ∧ KEX_LEN ≤ mk.length ∧ KEX_LEN ≤ hk.length := by
  obtain ⟨mk, hm⟩ := Option.isSome_iff_exists.mp (h.mykex (.inr hst))
  obtain ⟨hk, hh⟩ := Option.isSome_iff_exists.mp (h.hiskex hst)
  exact ⟨mk, hk, hm, hh, h.mykex_length mk hm ▸ kexLen_ge _, h.hiskex_length hk hh ▸ kexLen_ge _⟩

theorem sendAck_noPanic : NoPanic sendAck cx := sendRecordPriv_noPanic cx _ fun _ => by simp

theorem switchOut_noPanic {k : Bytes} (hm : cx.self.mykex = some mk) (hh : cx.self.hiskex = some hk)
    (he : Encapsulated cx.self.kex cx.self.mlkemEncap) (hkey : cx.self.key = some k) :
    NoPanic switchOut cx := by
  refine noPanic_bind.mpr ⟨noPanic_self, noPanic_bind.mpr ⟨?_, ?_⟩⟩
  · exact noPanic_onlyIf.mpr fun _ => sendSig_noPanic cx hm hh he
  -- whatever has gone out before the switch, the key material is still there
  suffices htail : ∀ cx' : Cx C, cx'.self.key = some k → NoPanic _ cx' from
    ends_onlyIf.mpr ⟨fun _ => sendSig_ends cx fun sig => htail _ hkey, fun _ => htail _ hkey⟩
  intro cx' hkey'
  have hsome : cx'.self.key.isSome = true := by rw [hkey']; rfl
  simp only [noPanic_bind, noPanic_self, ends_self, noPanic_onlyIf, ends_onlyIf, noPanic_update,
    ends_update, noPanic_expect, ends_expect, noPanic_note, ends_note, noPanic_pure, true_and, and_true]
  exact ⟨fun _ => sendAck_noPanic _, fun _ => sendRecordPriv_ends _ _ _ ⟨hsome, fun _ _ => trivial⟩,
    fun _ => ⟨hsome, fun _ _ => trivial⟩⟩

theorem receiveSig_noPanic (h : Present cx.self) (hst : cx.self.state = .sig) :
    NoPanic (receiveSig body) cx := by
  obtain ⟨mk, hk, hm, hh, hml, hhl⟩ := h.pair hst
  have he := h.encap hst
  by_cases hlen : body.length = sigLen cx.self.kex
  · have hrun := verifySig_apply cx hlen hm hh
    split_ifs at hrun
    · refine (noPanic_congr (run_bind_ok hrun)).mpr (noPanic_bind.mpr ⟨?_, ?_⟩)
      · exact agreeKey_noPanic _ hm hh hml hhl hlen he
      · exact agreeKey_ends _ body (fun _ => trivial) fun e m k _ => switchOut_noPanic _ hm hh he rfl
    · exact noPanic_bind.mpr ⟨noPanic_of_err hrun, (ends_of_err hrun).mpr trivial⟩
  · have hrun : (verifySig body).run cx = .error (.err .badSig) cx := by
      simp only [verifySig, run_bind, self_apply, if_pos hlen, fail_apply]
    exact noPanic_bind.mpr ⟨noPanic_of_err hrun, (ends_of_err hrun).mpr trivial⟩

theorem receiveAck_noPanic {k : Bytes} (hkey : cx.self.key = some k) : NoPanic (receiveAck body) cx := by
  simp only [receiveAck, noPanic_bind, noPanic_self, ends_self, noPanic_ite, noPanic_fail, noPanic_expect,
    ends_expect, hkey, Option.isSome_some, noPanic_update, true_and, implies_true]

theorem handshakeDone_noPanic : NoPanic handshakeDone cx := by
  simp only [handshakeDone, noPanic_bind, noPanic_push, ends_push, noPanic_update, true_and]

theorem receiveHandshake_noPanic (h : Present cx.self) : NoPanic (receiveHandshake body) cx := by
  refine noPanic_bind.mpr ⟨noPanic_self, ends_self.mpr ?_⟩
  split
  case h_1 hst =>
    refine noPanic_ite.mpr ⟨fun _ => noPanic_fail _, fun _ => noPanic_bind.mpr ⟨sendKex_noPanic cx, ?_⟩⟩
    by_cases hm : cx.self.mykex = none
    · refine (ends_of_ok (sendKex_apply cx hm)).mpr ?_
      exact (receiveKex_noPanic cx.kexSent rfl).bind fun _ _ => noPanic_update _
    · exact (ends_of_err (sendKex_busy cx (Option.isSome_iff_ne_none.mpr hm))).mpr trivial
  case h_2 hst =>
    obtain ⟨mk, hm⟩ := Option.isSome_iff_exists.mp (h.mykex (.inl hst))
    exact (receiveKex_noPanic cx hm).bind fun _ _ => noPanic_update _
  case h_3 hst =>
    refine noPanic_bind.mpr ⟨receiveSig_noPanic cx h hst, ?_⟩
    refine (receiveSig_handled cx body hst).mono ?_ fun _ _ => trivial
    rintro wasRekey cx1 ⟨-, k, -, hkey⟩
    refine noPanic_ite.mpr ⟨fun _ => noPanic_update _, fun _ => ?_⟩
    refine (receiveAck_noPanic cx1 hkey).bind fun _ cx2 => ?_
    split
    · exact handshakeDone_noPanic cx2
    · exact (sendAck_noPanic cx2).bind fun _ _ => noPanic_update _
  case h_4 hst =>
    obtain ⟨k, hkey⟩ := Option.isSome_iff_exists.mp (h.key hst)
    exact (receiveAck_noPanic cx hkey).bind fun _ cx' => handshakeDone_noPanic cx'
  case h_5 hst =>
    exact noPanic_ite.mpr ⟨fun _ => noPanic_fail _, fun _ => handshakeDone_noPanic cx⟩

end Handshake

section Records

variable (cx : Cx C)

theorem dispatchRecord_noPanic (h : Present cx.self) (ty : UInt8) (body : Bytes) (encrypted : Bool) :
    NoPanic (dispatchRecord ty body encrypted) cx := by
  refine noPanic_ite.mpr ⟨fun _ => ?_, fun _ => noPanic_ite.mpr ⟨fun _ => ?_, fun _ => noPanic_fail _⟩⟩
  · simp only [noPanic_bind, noPanic_self, ends_self, noPanic_ite, noPanic_fail, noPanic_push,
      implies_true, and_self]
  · exact receiveHandshake_noPanic cx h

/-- A plaintext longer than nothing has a type byte. -/
theorem open_ne_nil {cipher : SptpsCipher} {seqno : UInt32} {ct pt : Bytes} (hlen : TAG_LEN < ct.length)
    (h : cipher.open? C seqno ct = some pt) : pt ≠ [] := by
  rintro rfl
  have := C.length_cipherOpen _ _ _ _ _ h
  simp only [List.length_nil] at this
  omega

theorem receiveDatagram_noPanic (h : Present cx.self) (data : Bytes) :
    NoPanic (receiveDatagram data) cx := by
  refine noPanic_bind.mpr ⟨noPanic_self, ends_self.mpr (noPanic_ite.mpr ⟨fun _ => noPanic_fail _, ?_⟩)⟩
  intro hlen
  have hmin : 5 ≤ data.length := by
    split_ifs at hlen <;> omega
  simp only [noPanic_bind, noPanic_slice, ends_slice]
  refine ⟨⟨Nat.zero_le _, by omega⟩, fun _ => ⟨⟨by omega, le_rfl⟩, fun _ => ?_⟩⟩
  generalize UInt32.ofNat (BigEndian.decode ((data.take 4).drop 0)) = seqno
  rw [List.take_length]
  split
  case h_1 hin =>
    refine noPanic_ite.mpr ⟨fun _ => noPanic_fail _, fun _ => ?_⟩
    simp only [noPanic_bind, noPanic_update, ends_update, noPanic_uncons, ends_uncons, true_and]
    refine ⟨List.ne_nil_of_length_pos (by rw [List.length_drop]; omega), fun ty body _ => ?_⟩
    refine noPanic_ite.mpr ⟨fun _ => noPanic_fail _, fun _ => noPanic_bind.mpr ⟨noPanic_note _, ?_⟩⟩
    exact receiveHandshake_noPanic _ (h.congr rfl)
  case h_2 cipher hin =>
    simp only [hin, Option.isSome_some, if_true] at hlen
    have hct : TAG_LEN < (data.drop 4).length := by
      rw [List.length_drop, TAG_LEN]
      omega
    simp only [noPanic_bind, noPanic_okOr, ends_okOr, noPanic_replayCheck, ends_replayCheck, true_and,
      implies_true, and_true]
    intro pt hpt
    split
    · exact noPanic_fail _
    · simp only [noPanic_bind, noPanic_uncons, ends_uncons, noPanic_note, ends_note, true_and]
      refine ⟨open_ne_nil hct hpt, fun ty body _ => ?_⟩
      apply dispatchRecord_noPanic
      exact h.congr rfl

/-- On a stream, less than the record in progress is buffered. -/
def Framed (s : Sptps C) : Prop :=
  s.framing = .stream → 2 ≤ s.stream.buf.length → s.stream.buf.length < s.recordTotal

theorem processFramed_noPanic (h : Present cx.self) {framed : Bytes}
    (hlen : cx.self.recordTotal ≤ framed.length) : NoPanic (processFramed framed) cx := by
  unfold Sptps.recordTotal at hlen
  simp only [processFramed, noPanic_bind, noPanic_self, ends_self, noPanic_update, ends_update,
    noPanic_slice, ends_slice, true_and, List.take_length]
  refine ⟨⟨by omega, le_rfl⟩, fun _ => ?_⟩
  have hdispatch : ∀ log ty body, NoPanic (dispatchRecord ty body cx.self.incipher.isSome)
      { cx with
        self := { cx.self with inseqno := cx.self.inseqno + 1, stream := ⟨[], 0⟩ }
        log := log } := by
    intro log ty body
    apply dispatchRecord_noPanic
    exact h.congr rfl
  split
  case h_1 cipher hin =>
    simp only [hin, Option.isSome_some, if_true] at hlen
    have hct : TAG_LEN < (framed.drop 2).length := by
      rw [List.length_drop]
      omega
    simp only [noPanic_bind, noPanic_okOr, ends_okOr, noPanic_uncons, ends_uncons, noPanic_note,
      ends_note, true_and, implies_true, and_true]
    exact fun pt hpt => ⟨open_ne_nil hct hpt, fun ty body _ => hdispatch _ ty body⟩
  case h_2 hin =>
    simp only [hin, Option.isSome_none, Bool.false_eq_true, if_false] at hlen
    simp only [noPanic_bind, noPanic_pure, ends_pure, noPanic_uncons, ends_uncons, noPanic_note,
      ends_note, true_and]
    refine ⟨List.ne_nil_of_length_pos (by rw [List.length_drop]; omega), fun ty body _ => ?_⟩
    exact hdispatch _ ty body

theorem receiveRest_noPanic (h : Present cx.self) {data : Bytes} {consumed : ℕ}
    (hbuf : cx.self.stream.buf.length < cx.self.recordTotal) (hcons : consumed ≤ data.length) :
    NoPanic (receiveRest data consumed) cx := by
  refine noPanic_bind.mpr ⟨noPanic_self, ends_self.mpr (noPanic_ite.mpr ⟨fun h => ?_, fun _ => ?_⟩)⟩
  · omega
  have htake : consumed + min (cx.self.recordTotal - cx.self.stream.buf.length) (data.length - consumed) ≤
      data.length := by omega
  simp only [noPanic_bind, noPanic_slice, ends_slice, noPanic_update, ends_update, true_and]
  refine ⟨⟨Nat.le_add_right _ _, htake⟩, fun _ => noPanic_ite.mpr ⟨fun _ => noPanic_pure _, fun hlen => ?_⟩⟩
  refine NoPanic.bind ?_ fun _ _ => noPanic_pure _
  apply processFramed_noPanic
  · exact h.congr rfl
  · exact not_lt.mp hlen

theorem receiveStream_noPanic (h : Present cx.self) (hf : Framed cx.self)
    (hs : cx.self.framing = .stream) (data : Bytes) : NoPanic (receiveStream data) cx := by
  refine noPanic_bind.mpr ⟨noPanic_self, ends_self.mpr (noPanic_ite.mpr ⟨fun hhead => ?_, fun hhead => ?_⟩)⟩
  · have htake : min (2 - cx.self.stream.buf.length) data.length ≤ data.length := Nat.min_le_right _ _
    simp only [noPanic_bind, noPanic_slice, ends_slice, noPanic_update, ends_update, true_and]
    refine ⟨⟨Nat.zero_le _, htake⟩, fun _ => noPanic_ite.mpr ⟨fun _ => noPanic_pure _, fun hlen => ?_⟩⟩
    simp only [noPanic_bind, noPanic_slice, ends_slice, noPanic_update, ends_update, true_and, noPanic_ite,
      noPanic_fail, noPanic_pure, implies_true]
    refine ⟨⟨Nat.zero_le _, not_lt.mp hlen⟩, fun _ _ _ => ?_⟩
    apply receiveRest_noPanic
    · exact h.congr rfl
    · simp only [Sptps.recordTotal, List.length_append, List.drop_zero, List.length_take]
      split <;> omega
    · exact htake
  · exact receiveRest_noPanic cx h (hf hs (not_lt.mp hhead)) (Nat.zero_le _)

end Records

section Invariants

variable {cx cx' : Cx C}

theorem present_kexSent (cx : Cx C) (hst : cx.self.state = .kex ∨ cx.self.state = .secondaryKex)
    (hh : ∀ hk, cx.self.hiskex = some hk → hk.length = kexLen cx.self.kex) :
    Present cx.kexSent.self where
  mykex_length mk hm := by
    obtain rfl := Option.some.inj hm
    exact length_drawKex _ _
  hiskex_length := hh
  mykex _ := rfl
  hiskex hs := absurd (hst.imp hs.symm.trans hs.symm.trans) (by simp)
  encap hs := absurd (hst.imp hs.symm.trans hs.symm.trans) (by simp)
  key hs := absurd (hst.imp hs.symm.trans hs.symm.trans) (by simp)

theorem Present.opens {cx1 : Cx C} (h : Present cx.self) (hopen : Opens cx cx1) :
    Present cx1.self ∧ (cx1.self.state = .kex ∨ cx1.self.state = .secondaryKex) ∧ cx1.self.mykex.isSome ∧
      cx1.self.kex = cx.self.kex := by
  cases hopen with
  | kex hst => exact ⟨h, .inl hst, h.mykex (.inl hst), rfl⟩
  | secondary hst hm => exact ⟨present_kexSent cx (.inr hst) h.hiskex_length, .inr hst, rfl, rfl⟩

/-- After a good SIG both KEX bodies are gone and the key material is there. -/
theorem Signed.fields {k : Bytes} {cx1 : Cx C} (h : Signed cx k cx1) :
    cx1.self.mykex = none ∧ cx1.self.hiskex = none ∧ cx1.self.key = some k := by
  obtain ⟨sigs, acks, -, -, -, -, -, -⟩ := h
  simp [Cx.switched, Cx.setOut, Cx.dropKex, Cx.agreed]

/-- A session that holds neither KEX body and waits for none of them. -/
theorem present_of_none {s : Sptps C} (hm : s.mykex = none) (hh : s.hiskex = none)
    (hst : s.state ≠ .kex ∧ s.state ≠ .sig) (hkey : s.state = .ack → s.key.isSome) : Present s where
  mykex_length mk h := by simp [hm] at h
  hiskex_length hk h := by simp [hh] at h
  mykex h := absurd h (by simp [hst])
  hiskex h := absurd h hst.2
  encap h := absurd h hst.2
  key := hkey

theorem Present.finish {s : Sptps C} (h : Present s) : Present { s with state := .secondaryKex } where
  mykex_length := h.mykex_length
  hiskex_length := h.hiskex_length
  mykex := by simp
  hiskex := nofun
  encap := nofun
  key := nofun

theorem present_handled {body : Bytes} (h : Present cx.self) (hh : Handled cx body cx') :
    Present cx'.self := by
  cases hh with
  | rejected _ => exact h
  | @kexRefused cx1 r hopen hbody =>
    obtain ⟨h1, hst, -, hkex⟩ := h.opens hopen
    refine ⟨h1.mykex_length, fun hk hs => ?_, h1.mykex, fun hs => ?_, fun hs => ?_, h1.key⟩
    · obtain rfl := Option.some.inj hs
      exact ((kexBodyOk_iff _ _).mp hbody).1.1.trans (congrArg kexLen hkex.symm)
    · exact absurd (hst.imp hs.symm.trans hs.symm.trans) (by simp)
    · exact absurd (hst.imp hs.symm.trans hs.symm.trans) (by simp)
  | @kexTaken cx1 e r sigs hopen hbody hs he =>
    obtain ⟨h1, -, hm, hkex⟩ := h.opens hopen
    have hlen := ((kexBodyOk_iff _ _).mp hbody).1.1
    rw [← hkex] at he hlen
    have hstored : Present { cx1.self with hiskex := some body, mlkemEncap := e, state := .sig } :=
      ⟨h1.mykex_length, fun hk hs => Option.some.inj hs ▸ hlen, fun _ => hm, fun _ => rfl, fun _ => he,
        by simp⟩
    refine hstored.congr ?_
    simp [Sptps.kexFields, Cx.setState, Cx.kexStored]
  | sigRefused hst hm hh => exact h.congr rfl
  | @sigRekey k cx1 hsig hout =>
    obtain ⟨hm, hh, hkey⟩ := hsig.fields
    exact present_of_none hm hh (by simp [Cx.setState]) fun _ => by simp [Cx.setState, hkey]
  | @sigFirst k cx1 hsig hout hk =>
    obtain ⟨hm, hh, -⟩ := hsig.fields
    exact present_of_none hm hh (by simp [Cx.finish]) (by simp [Cx.finish])
  | @sigFirstHybrid k cx1 hsig hout hk =>
    obtain ⟨hm, hh, -⟩ := hsig.fields
    exact present_of_none hm hh (by simp [Cx.setState]) (by simp [Cx.setState])
  | acked hst hk =>
    exact ⟨h.mykex_length, h.hiskex_length, by simp [Cx.finish], by simp [Cx.finish], by simp [Cx.finish],
      by simp [Cx.finish]⟩
  | confirmed hst => exact h.finish

theorem present_received (h : Present cx.self) (hr : Received cx cx') : Present cx'.self := by
  cases hr with
  | framing => exact h.congr rfl
  | @opened st w n seqno ty body _ hd =>
    have h1 : Present ((cx.framed st w n).opening seqno ty body).self := h.congr rfl
    cases hd with
    | refused _ => exact h1
    | record _ _ _ => exact h1
    | handshake _ hh => exact present_handled h1 hh

theorem present_called (h : Present cx.self) (hc : Called cx cx') : Present cx'.self := by
  cases hc with
  | received hr =>
    have hclear : Present cx.clearOut.self := h
    exact present_received hclear hr
  | refused => exact h
  | reserved n | sent _ _ | sealed n _ _ | opened w _ _ _ | windowed w => exact h.congr rfl
  | forced hst _ hm =>
    exact present_kexSent (cx.setState .kex).clearOut (.inl rfl) h.hiskex_length
  | forceBusy hst hm =>
    exact ⟨h.mykex_length, h.hiskex_length, fun _ => hm, nofun, nofun, nofun⟩

/-- The handshake never touches the reassembly buffer: the record machinery has cleared it before. -/
theorem Handled.frame {body : Bytes} (h : Handled cx body cx') :
    cx'.self.framing = cx.self.framing ∧ cx'.self.stream = cx.self.stream := by
  cases h with
  | rejected _ => exact ⟨rfl, rfl⟩
  | kexRefused hopen _ => cases hopen <;> exact ⟨rfl, rfl⟩
  | kexTaken sigs hopen _ _ _ => cases hopen <;> simp [Cx.setState, Cx.kexStored, Cx.kexSent, Cx.emit]
  | sigRefused => exact ⟨rfl, rfl⟩
  | sigRekey hsig _ => cases hsig; simp [Cx.setState, Cx.switched, Cx.setOut, Cx.dropKex, Cx.agreed]
  | sigFirst hsig _ _ =>
    cases hsig
    simp [Cx.finish, Cx.setIn, Cx.switched, Cx.setOut, Cx.dropKex, Cx.agreed]
  | sigFirstHybrid hsig _ _ =>
    cases hsig
    simp [Cx.setState, Cx.setIn, Cx.switched, Cx.setOut, Cx.dropKex, Cx.agreed]
  | acked | confirmed => exact ⟨rfl, rfl⟩

theorem Dispatched.frame {ty : UInt8} {body : Bytes} (h : Dispatched cx ty body cx') :
    cx'.self.framing = cx.self.framing ∧ cx'.self.stream = cx.self.stream := by
  cases h with
  | refused _ | record _ _ _ => exact ⟨rfl, rfl⟩
  | handshake _ hh => exact hh.frame

theorem Received.same_framing (h : Received cx cx') : cx'.self.framing = cx.self.framing := by
  cases h with
  | framing => rfl
  | opened hd => exact hd.frame.1

theorem processFramed_stream (cx : Cx C) (framed : Bytes) :
    Ends (processFramed framed) cx (fun _ cx' => cx'.self.stream = ⟨[], 0⟩)
      fun cx' => cx'.self.stream = ⟨[], 0⟩ := by
  simp only [processFramed, ends_bind, ends_self, ends_update, ends_slice]
  intro _
  have hdispatch : ∀ log ty body, Ends (dispatchRecord ty body cx.self.incipher.isSome)
      { cx with
        self := { cx.self with inseqno := cx.self.inseqno + 1, stream := ⟨[], 0⟩ }
        log := log } (fun _ cx' => cx'.self.stream = ⟨[], 0⟩) fun cx' => cx'.self.stream = ⟨[], 0⟩ := by
    intro log ty body
    refine Ends.mono (dispatchRecord_ends _ ty body cx.self.incipher.isSome ?_)
      (fun _ _ h => h.frame.2) fun _ h => h.frame.2
    rfl
  split
  · simp only [ends_bind, ends_okOr, ends_uncons, ends_note]
    exact ⟨fun _ _ ty body _ => hdispatch _ ty body, fun _ => trivial⟩
  · simp only [ends_bind, ends_pure, ends_uncons, ends_note]
    exact fun ty body _ => hdispatch _ ty body

theorem framed_nil {s : Sptps C} (h : s.stream = ⟨[], 0⟩) : Framed s := by
  intro _ hlen
  simp [h] at hlen

theorem receiveRest_framed (cx : Cx C) (data : Bytes) (consumed : ℕ) :
    Ends (receiveRest data consumed) cx (fun _ cx' => Framed cx'.self) fun cx' => Framed cx'.self := by
  simp only [receiveRest, ends_bind, ends_self, ends_ite, ends_panic, ends_slice, ends_update, ends_pure]
  refine ⟨fun _ => trivial, fun _ _ => ⟨fun hlt _ _ => hlt, fun _ => ?_⟩⟩
  exact (processFramed_stream _ _).mono (fun _ _ h => framed_nil h) fun _ h => framed_nil h

theorem receiveStream_framed (cx : Cx C) (data : Bytes) :
    Ends (receiveStream data) cx (fun _ cx' => Framed cx'.self) fun cx' => Framed cx'.self := by
  simp only [receiveStream, ends_bind, ends_self, ends_ite, ends_slice, ends_update, ends_pure, ends_fail]
  refine ⟨fun hhead _ => ⟨fun hlt _ h2 => absurd hlt (not_lt.mpr h2), fun hlen _ => ⟨fun _ => framed_nil rfl,
    fun _ => ⟨fun _ _ _ => ?_, fun _ => receiveRest_framed _ _ _⟩⟩⟩, fun _ => receiveRest_framed _ _ _⟩
  simp only [Sptps.recordTotal, List.length_append, List.drop_zero, List.length_take]
  split <;> omega

theorem receive_framed (cx : Cx C) (data : Bytes) :
    Ends (receive data) cx (fun _ cx' => Framed cx'.self) fun cx' => Framed cx'.self := by
  simp only [receive, ends_bind, ends_freshOut, ends_self]
  split
  case h_1 hd =>
    have hdatagram : ∀ cx', Received cx.clearOut cx' → Framed cx'.self := by
      intro cx' hr hs
      rw [hr.same_framing] at hs
      exact absurd (hd.symm.trans hs) (by decide)
    simp only [ends_bind, ends_pure]
    exact (receiveDatagram_received cx.clearOut data).mono (fun _ => hdatagram) hdatagram
  case h_2 hs => exact receiveStream_framed _ data

def Sptps.frame (s : Sptps C) := (s.framing, s.stream, s.incipher)

theorem Framed.congr {s s' : Sptps C} (h : Framed s) (he : s'.frame = s.frame) : Framed s' := by
  simp only [Sptps.frame, Prod.mk.injEq] at he
  obtain ⟨hf, hs, hin⟩ := he
  unfold Framed Sptps.recordTotal at h ⊢
  rwa [hf, hs, hin]

theorem framed_exec (h : Framed cx.self) (c : Call) :
    Ends c.exec cx (fun _ cx' => Framed cx'.self) fun cx' => Framed cx'.self := by
  cases c with
  | receive data => exact forget_ends (receive_framed cx data)
  | sendRecord ty body =>
    simp only [Call.exec, sendRecord, ends_bind, ends_self, ends_ite, ends_fail, ends_freshOut]
    exact ⟨fun _ => h, fun _ => ⟨fun _ => h, fun _ => sendRecordPriv_ends _ _ _ (h.congr rfl)⟩⟩
  | sealDataInto ty body headroom =>
    have hbump : Framed (cx.bump 1).self := h.congr rfl
    refine forget_ends ?_
    simp only [sealDataInto, ends_bind, ends_self, ends_ite, ends_fail]
    refine ⟨fun _ => h, fun _ => ⟨fun _ => h, fun _ => (ends_of_ok (allocSeqnos_apply cx 1)).mpr ?_⟩⟩
    simp only [ends_okOr]
    exact ⟨fun seqno _ => sealWithSeqno_ends _ seqno ty body headroom hbump fun _ _ _ => hbump, fun _ => hbump⟩
  | sealWithSeqno seqno ty body headroom =>
    exact forget_ends (sealWithSeqno_ends cx seqno ty body headroom h fun _ _ _ => h)
  | openDataInto data out headroom =>
    exact okOr_ends (openDataInto_ends cx data out headroom (fun _ _ => h)
      fun _ _ _ _ _ _ _ _ => h.congr rfl)
  | openWithSeqno data out headroom =>
    exact okOr_ends (openWithSeqno_ends cx data out headroom (fun _ _ => h) fun _ _ _ _ _ _ _ => h)
  | forceKex => exact forceKex_ends cx h (fun _ _ => h.congr rfl) fun _ _ _ => h.congr rfl
  | allocSeqnos n => exact forget_ends ((ends_of_ok (allocSeqnos_apply cx n)).mpr (h.congr rfl))
  | replayCheck seqno =>
    simp only [Call.exec, ends_bind, ends_replayCheck]
    unfold okOr
    split <;> exact h.congr rfl

theorem present_run (h : Run cfg cx) : Present cx.self ∧ Framed cx.self := by
  induction h with
  | start h =>
    obtain ⟨-, rfl⟩ := EStateM.Result.ok.inj ((startWith_apply cfg _).symm.trans h)
    exact ⟨present_kexSent _ (.inl rfl) nofun, framed_nil rfl⟩
  | @ok cx1 cx2 _ c rng h ih =>
    have hp : Present (cx1.withRng rng).self := ih.1
    exact ⟨present_called hp ((ends_of_ok h).mp (exec_called c _)),
      (ends_of_ok h).mp (framed_exec (show Framed (cx1.withRng rng).self from ih.2) c)⟩
  | @err cx1 cx2 e _ c rng h ih =>
    have hp : Present (cx1.withRng rng).self := ih.1
    exact ⟨present_called hp ((ends_of_err h).mp (exec_called c _)),
      (ends_of_err h).mp (framed_exec (show Framed (cx1.withRng rng).self from ih.2) c)⟩

end Invariants

section Calls

variable {cx : Cx C}

theorem receive_noPanic (h : Present cx.self) (hf : Framed cx.self) (data : Bytes) :
    NoPanic (receive data) cx := by
  refine noPanic_bind.mpr ⟨noPanic_freshOut, noPanic_bind.mpr ⟨noPanic_self, ends_self.mpr ?_⟩⟩
  split
  case h_1 => exact (receiveDatagram_noPanic cx.clearOut h data).bind fun _ _ => noPanic_pure _
  case h_2 hs => exact receiveStream_noPanic cx.clearOut h hf hs data

theorem sealWithSeqno_noPanic (seqno : UInt32) (ty : UInt8) (body : Bytes) (headroom : ℕ) :
    NoPanic (sealWithSeqno seqno ty body headroom) cx := by
  simp only [sealWithSeqno, noPanic_bind, noPanic_self, ends_self, noPanic_ite, noPanic_fail, noPanic_okOr,
    ends_okOr, noPanic_note, ends_note, noPanic_pure, implies_true, and_self]

theorem openWithSeqno_noPanic (data out : Bytes) (headroom : ℕ) :
    NoPanic (openWithSeqno data out headroom) cx := by
  refine noPanic_bind.mpr ⟨noPanic_self, ends_self.mpr (noPanic_ite.mpr ⟨fun _ => noPanic_pure _, fun _ => ?_⟩)⟩
  split
  case h_1 => exact noPanic_pure _
  case h_2 cipher hin =>
    refine noPanic_ite.mpr ⟨fun _ => noPanic_pure _, fun hlen => ?_⟩
    have hct : TAG_LEN < (data.drop 4).length := by
      rw [List.length_drop, TAG_LEN]
      omega
    simp only [noPanic_bind, noPanic_slice, ends_slice, List.take_length]
    refine ⟨⟨Nat.zero_le _, by omega⟩, fun _ => ⟨⟨by omega, le_rfl⟩, fun _ => ?_⟩⟩
    split
    case h_1 => exact noPanic_pure _
    case h_2 pt hpt =>
      simp only [noPanic_bind, noPanic_uncons, ends_uncons, noPanic_ite, noPanic_pure, noPanic_note,
        ends_note, implies_true, and_true]
      exact open_ne_nil hct hpt

/-- What `open_with_seqno` returns with has the type byte after the headroom. -/
theorem openWithSeqno_length (data out : Bytes) (headroom : ℕ) :
    Ends (openWithSeqno data out headroom) cx
      (fun r _ => ∀ ok, r.1 = .ok ok → headroom + 1 ≤ r.2.length) fun _ => True := by
  simp only [openWithSeqno, ends_bind, ends_self, ends_ite, ends_pure]
  refine ⟨fun _ => by simp, fun _ => ?_⟩
  split
  case h_1 => simp
  case h_2 cipher hin =>
    simp only [ends_bind, ends_ite, ends_pure, ends_slice]
    refine ⟨fun _ => by simp, fun _ _ _ => ?_⟩
    split
    case h_1 => simp
    case h_2 pt hpt =>
      simp only [ends_bind, ends_uncons, ends_ite, ends_pure, ends_note]
      rintro ty body rfl
      exact ⟨fun _ => by simp, fun _ _ _ => by simp⟩

theorem openDataInto_noPanic (data out : Bytes) (headroom : ℕ) :
    NoPanic (openDataInto data out headroom) cx := by
  refine noPanic_bind.mpr ⟨noPanic_self, ends_self.mpr (noPanic_ite.mpr ⟨fun _ => noPanic_pure _, fun _ => ?_⟩)⟩
  refine noPanic_bind.mpr ⟨openWithSeqno_noPanic data out headroom, ?_⟩
  refine (openWithSeqno_length data out headroom).mono ?_ fun _ _ => trivial
  rintro ⟨r, out⟩ cx' hlen
  split
  case h_1 => exact noPanic_pure _
  case h_2 heq =>
    obtain ⟨rfl, rfl⟩ := Prod.mk.inj heq
    simp only [noPanic_bind, noPanic_replayCheck, ends_replayCheck, true_and]
    split
    · exact noPanic_pure _
    · simp only [stripType, noPanic_bind, noPanic_slice, ends_bind, ends_slice, ends_pure, noPanic_pure,
        implies_true, and_true]
      exact ⟨hlen _ rfl, le_rfl⟩

theorem exec_noPanic (h : Present cx.self) (hf : Framed cx.self) (c : Call) : NoPanic c.exec cx := by
  cases c with
  | receive data => exact (receive_noPanic h hf data).bind fun _ _ => noPanic_pure _
  | sendRecord ty body =>
    simp only [Call.exec, sendRecord, noPanic_bind, noPanic_self, ends_self, noPanic_ite, noPanic_fail,
      noPanic_freshOut, ends_freshOut, implies_true, true_and]
    refine fun _ hfits => sendRecordPriv_noPanic _ ty fun hs => ?_
    by_contra hlong
    exact hfits ⟨hs, by omega⟩
  | sealDataInto ty body headroom =>
    refine NoPanic.bind ?_ fun _ _ => noPanic_pure _
    simp only [sealDataInto, noPanic_bind, noPanic_self, ends_self, noPanic_ite, noPanic_fail,
      implies_true, true_and, noPanic_of_ok (allocSeqnos_apply cx 1), ends_of_ok (allocSeqnos_apply cx 1),
      noPanic_okOr, ends_okOr, sealWithSeqno_noPanic, and_self]
  | sealWithSeqno seqno ty body headroom =>
    exact (sealWithSeqno_noPanic seqno ty body headroom).bind fun _ _ => noPanic_pure _
  | openDataInto data out headroom => exact (openDataInto_noPanic data out headroom).bind okOr_noPanic
  | openWithSeqno data out headroom => exact (openWithSeqno_noPanic data out headroom).bind okOr_noPanic
  | forceKex =>
    simp only [Call.exec, forceKex, noPanic_bind, noPanic_self, ends_self, noPanic_ite, noPanic_fail,
      noPanic_update, ends_update, noPanic_freshOut, ends_freshOut, sendKex_noPanic, implies_true, and_self]
  | allocSeqnos n => exact (noPanic_of_ok (allocSeqnos_apply cx n)).bind fun _ _ => noPanic_pure _
  | replayCheck seqno => exact (noPanic_replayCheck seqno).bind fun _ => okOr_noPanic _

end Calls

/-- `start_with` returns, and no public call panics on a session that any calls have led to. -/
theorem session_never_panics (cfg : Config C) :
    (∀ rng, ∃ cx, startWith cfg rng = .ok () cx) ∧
      ∀ cx, Run cfg cx → ∀ (c : Call) (rng : C.Rng) (p : Panic) (cx' : Cx C),
        c.exec.run (cx.withRng rng) ≠ .error (.panic p) cx' := by
  refine ⟨fun rng => ⟨_, startWith_apply cfg rng⟩, fun cx hrun c rng p cx' => ?_⟩
  obtain ⟨hp, hf⟩ := present_run hrun
  have hp' : Present (cx.withRng rng).self := hp
  exact (exec_noPanic hp' hf c).run_ne p

/-- A session after its handshake, on any bytes. -/
theorem session_never_panics_null : Run nullConfig nullDone ∧
    ∀ data p cx', (Call.receive data).exec.run (nullDone.withRng ()) ≠ .error (.panic p) cx' := by
  refine ⟨nullDone_run, fun data => ?_⟩
  exact (session_never_panics nullConfig).2 nullDone nullDone_run (.receive data) ()

end Tincr.Sptps
