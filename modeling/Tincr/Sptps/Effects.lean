import Tincr.Lib.Act
import Tincr.Sptps.Session

/-!
What each action of the session does, as an equation: the sends, the two KEX steps, the check of a
SIG and the switch of keys. Later modules cite these and never unfold an action.
-/

set_option linter.dupNamespace false

namespace Tincr.Sptps

open EStateM M

variable {C : Crypto}

section Primitives

variable (cx : Cx C)

@[simp] theorem self_apply : (self : M C _).run cx = .ok cx.self cx := rfl

@[simp] theorem update_apply (f : Sptps C → Sptps C) :
    (update f).run cx = .ok () { cx with self := f cx.self } := rfl

@[simp] theorem fail_apply {α : Type} (e : SptpsError) :
    (fail e : M C α).run cx = .error (.err e) cx := rfl

@[simp] theorem panic_apply {α : Type} (p : Panic) :
    (M.panic p : M C α).run cx = .error (.panic p) cx := rfl

@[simp] theorem getOrElse_some {α : Type} (a : α) (f : Fault) :
    (getOrElse (some a) f : M C α).run cx = .ok a cx := rfl

@[simp] theorem getOrElse_none {α : Type} (f : Fault) :
    (getOrElse none f : M C α).run cx = .error f cx := rfl

theorem getOrElse_of_eq {α : Type} {o : Option α} {a : α} {f : Fault} (h : o = some a) :
    (getOrElse o f : M C α).run cx = .ok a cx := by
  rw [h, getOrElse_some]

@[simp] theorem push_apply (o : Output) :
    (push o).run cx = .ok () { cx with out := cx.out ++ [o], log := cx.log ++ [.output o] } := rfl

@[simp] theorem note_apply (e : Event) :
    (note e).run cx = .ok () { cx with log := cx.log ++ [e] } := rfl

@[simp] theorem freshOut_apply : freshOut.run cx = .ok () { cx with out := [] } := rfl

@[simp] theorem draw_apply {α : Type} (f : C.Rng → α × C.Rng) :
    (draw f).run cx = .ok (f cx.rng).1 { cx with rng := (f cx.rng).2 } := rfl

@[simp] theorem uncons_cons (ty : UInt8) (body : Bytes) :
    (uncons (ty :: body) : M C _).run cx = .ok (ty, body) cx := rfl

@[simp] theorem uncons_nil : (uncons [] : M C _).run cx = .error (.panic .emptyPlaintext) cx := rfl

theorem slice_of_le {bs : Bytes} {lo hi : ℕ} (h₁ : lo ≤ hi) (h₂ : hi ≤ bs.length) :
    (slice bs lo hi : M C _).run cx = .ok ((bs.take hi).drop lo) cx :=
  if_pos ⟨h₁, h₂⟩

end Primitives

def Cx.emit (cx : Cx C) (ty : UInt8) (body : Bytes) : Cx C :=
  let seqno := cx.self.outseqno.toUInt32
  let wire := Output.wire ty (recordWire (C := C) cx.self.framing cx.self.outcipher seqno ty body)
  { cx with
    self := { cx.self with outseqno := cx.self.outseqno + 1 }
    out := cx.out ++ [wire]
    log := cx.log ++ [.sealed cx.self.outcipher seqno ty body, .output wire] }

variable {body hk mk : Bytes}

theorem sendRecordPriv_apply (cx : Cx C) (ty : UInt8) (h : body.length < 2 ^ 16) :
    (sendRecordPriv ty body).run cx = .ok () (cx.emit ty body) := by
  have hfits : ¬ (cx.self.framing = .stream ∧ 2 ^ 16 ≤ body.length) := fun hb => by omega
  simp only [sendRecordPriv, run_bind, self_apply, update_apply, if_neg hfits, note_apply,
    push_apply, Cx.emit, List.append_assoc, List.cons_append, List.nil_append]

theorem sendAck_apply (cx : Cx C) : sendAck.run cx = .ok () (cx.emit REC_HANDSHAKE []) :=
  sendRecordPriv_apply cx _ (by simp)

structure KexPair (C : Crypto) where
  body : Bytes
  ecdh : C.EcdhPrivate
  mlkem : Option C.MlKemPrivate

/-- The draws of `send_kex`, in its order. -/
def drawKex (kex : SptpsKex) (rng : C.Rng) : KexPair C × C.Rng :=
  let nonce := C.fillBytes NONCE_LEN rng
  let seed := C.fillBytes 32 nonce.2
  let ecdh := C.ecdhFromSeed seed.1
  match kex with
  | .x25519 => (⟨VERSION :: (nonce.1 ++ ecdh.2 ++ []), ecdh.1, none⟩, seed.2)
  | .x25519MlKem768 =>
    let mlkem := C.mlkemGenerate seed.2
    (⟨VERSION :: (nonce.1 ++ ecdh.2 ++ mlkem.1.2), ecdh.1, some mlkem.1.1⟩, mlkem.2)

theorem length_drawKex (kex : SptpsKex) (rng : C.Rng) :
    (drawKex kex rng).1.body.length = kexLen kex := by
  cases kex <;>
    simp [drawKex, kexLen, KEX_LEN, NONCE_LEN, ECDH_PUBLIC_LEN, MLKEM_EK_LEN, C.length_fillBytes,
      C.length_ecdhPublic, C.length_mlkemEk]

theorem head_drawKex (kex : SptpsKex) (rng : C.Rng) :
    (drawKex kex rng).1.body.head? = some VERSION := by
  cases kex <;> rfl

theorem kexLen_lt (kex : SptpsKex) : kexLen kex < 2 ^ 16 := by
  cases kex <;> decide

def Cx.kexSent (cx : Cx C) : Cx C :=
  let pair := drawKex cx.self.kex cx.rng
  let cx1 := cx.emit REC_HANDSHAKE pair.1.body
  { cx1 with
    self := { cx1.self with
      mykex := some pair.1.body
      ecdh := some pair.1.ecdh
      mlkem := pair.1.mlkem.orElse fun _ => cx.self.mlkem }
    rng := pair.2 }

theorem sendKex_apply (cx : Cx C) (h : cx.self.mykex = none) :
    sendKex.run cx = .ok () cx.kexSent := by
  have hlt := lt_of_eq_of_lt (length_drawKex cx.self.kex cx.rng) (kexLen_lt cx.self.kex)
  cases hk : cx.self.kex <;> rw [hk] at hlt <;>
    simp only [sendKex, sendKex.generateEk, run_bind, self_apply, h, Option.isSome_none, if_false,
      draw_apply, run_pure, update_apply, hk, Bool.false_eq_true, drawKex] at hlt ⊢ <;>
    rw [sendRecordPriv_apply _ _ hlt] <;>
    simp [Cx.kexSent, Cx.emit, drawKex, hk]

theorem sendKex_busy (cx : Cx C) (h : cx.self.mykex.isSome) :
    sendKex.run cx = .error (.err .invalidState) cx := by
  simp only [sendKex, run_bind, self_apply, h, if_true, fail_apply]

/-- The session's SIG body for two KEX bodies, and in hybrid mode the ciphertext after it. -/
def Sptps.sigBody (s : Sptps C) (mykex hiskex ct : Bytes) : Bytes :=
  C.sign s.mykey (sigTranscript s.role.isInitiator mykex hiskex s.label) ++ ct

/-- The ciphertext that goes with a SIG: none in classical mode. -/
def Sptps.sigCt (s : Sptps C) : Option Bytes :=
  match s.kex with
  | .x25519 => some []
  | .x25519MlKem768 => s.mlkemEncap.map (·.1)

theorem sendSig_eq (cx : Cx C) {ct : Bytes} (hm : cx.self.mykex = some mk) (hh : cx.self.hiskex = some hk)
    (hct : cx.self.sigCt = some ct) :
    sendSig.run cx = (sendRecordPriv REC_HANDSHAKE (cx.self.sigBody mk hk ct)).run cx := by
  unfold Sptps.sigCt at hct
  cases hk : cx.self.kex <;> rw [hk] at hct
  · obtain rfl : [] = ct := by simpa using hct
    simp only [sendSig, run_bind, self_apply, hm, hh, getOrElse_some, hk, Sptps.sigBody,
      List.append_nil]
  · obtain ⟨⟨ct', ss⟩, hp, rfl⟩ := Option.map_eq_some_iff.mp hct
    simp only [sendSig, run_bind, self_apply, hm, hh, getOrElse_some, hk, hp, Sptps.sigBody]

/-- The postcondition of a failure that asks nothing of a panic. -/
def orErr (R : Cx C → Prop) : Fault → Cx C → Prop
  | .err _, cx => R cx
  | .panic _, _ => True

/-- Unless it panics, the run of `x` from `cx` ends in `Q` if it is `Ok` and in `R` if it is `Err`. -/
def Ends {α : Type} (x : M C α) (cx : Cx C) (Q : α → Cx C → Prop) (R : Cx C → Prop) : Prop :=
  Post x Q (orErr R) cx

section Ends

variable {α β : Type} {x : M C α} {cx cx' : Cx C} {Q Q' : α → Cx C → Prop} {R R' : Cx C → Prop}

theorem ends_bind {f : α → M C β} {Q : β → Cx C → Prop} :
    Ends (x >>= f) cx Q R ↔ Ends x cx (fun a cx' => Ends (f a) cx' Q R) R :=
  post_bind

theorem Ends.mono (h : Ends x cx Q R) (hQ : ∀ a cx', Q a cx' → Q' a cx')
    (hR : ∀ cx', R cx' → R' cx') : Ends x cx Q' R' :=
  Post.mono h hQ fun e cx' he => by
    cases e with
    | err e => exact hR cx' he
    | panic p => trivial

theorem ends_of_ok {a : α} (h : x.run cx = .ok a cx') : Ends x cx Q R ↔ Q a cx' := post_of_ok h

theorem ends_of_err {e : SptpsError} (h : x.run cx = .error (.err e) cx') : Ends x cx Q R ↔ R cx' :=
  post_of_error h

@[simp] theorem ends_pure (a : α) : Ends (pure a : M C α) cx Q R ↔ Q a cx := Iff.rfl

@[simp] theorem ends_self {Q : Sptps C → Cx C → Prop} : Ends self cx Q R ↔ Q cx.self cx := Iff.rfl

@[simp] theorem ends_update {f : Sptps C → Sptps C} {Q : Unit → Cx C → Prop} :
    Ends (update f) cx Q R ↔ Q () { cx with self := f cx.self } := Iff.rfl

@[simp] theorem ends_fail (e : SptpsError) : Ends (fail e : M C α) cx Q R ↔ R cx := Iff.rfl

@[simp] theorem ends_panic (p : Panic) : Ends (M.panic p : M C α) cx Q R ↔ True := Iff.rfl

@[simp] theorem ends_expect (o : Option α) (p : Panic) :
    Ends (getOrElse o (.panic p) : M C α) cx Q R ↔ ∀ a, o = some a → Q a cx := by
  cases o <;> simp [Ends, Post, orErr]

@[simp] theorem ends_okOr (o : Option α) (e : SptpsError) :
    Ends (getOrElse o (.err e) : M C α) cx Q R ↔ (∀ a, o = some a → Q a cx) ∧ (o = none → R cx) := by
  cases o <;> simp [Ends, Post, orErr]

@[simp] theorem ends_push (o : Output) {Q : Unit → Cx C → Prop} : Ends (push o) cx Q R ↔
    Q () { cx with out := cx.out ++ [o], log := cx.log ++ [.output o] } := Iff.rfl

@[simp] theorem ends_note (e : Event) {Q : Unit → Cx C → Prop} :
    Ends (note e) cx Q R ↔ Q () { cx with log := cx.log ++ [e] } := Iff.rfl

@[simp] theorem ends_freshOut {Q : Unit → Cx C → Prop} :
    Ends freshOut cx Q R ↔ Q () { cx with out := [] } := Iff.rfl

@[simp] theorem ends_slice (bs : Bytes) (lo hi : ℕ) {Q : Bytes → Cx C → Prop} :
    Ends (slice bs lo hi) cx Q R ↔ (lo ≤ hi ∧ hi ≤ bs.length → Q ((bs.take hi).drop lo) cx) := by
  by_cases h : lo ≤ hi ∧ hi ≤ bs.length <;> simp [Ends, Post, slice, run, orErr, h]

@[simp] theorem ends_uncons (pt : Bytes) {Q : UInt8 × Bytes → Cx C → Prop} :
    Ends (uncons pt) cx Q R ↔ ∀ ty body, pt = ty :: body → Q (ty, body) cx := by
  cases pt with
  | nil => simp [Ends, Post, orErr]
  | cons ty body =>
    refine ⟨fun h ty' body' he => ?_, fun h => h ty body rfl⟩
    obtain ⟨rfl, rfl⟩ := List.cons.inj he
    exact h

@[simp] theorem ends_onlyIf {c : Bool} {x : M C Unit} {Q : Unit → Cx C → Prop} :
    Ends (onlyIf c x) cx Q R ↔ (c = true → Ends x cx Q R) ∧ (c = false → Q () cx) := by
  cases c <;> simp [onlyIf]

theorem ends_ite {c : Prop} [Decidable c] {y : M C α} :
    Ends (if c then x else y) cx Q R ↔ (c → Ends x cx Q R) ∧ (¬ c → Ends y cx Q R) := post_ite

theorem replayCheck_apply (cx : Cx C) (seqno : UInt32) :
    (replayCheck seqno).run cx = .ok (cx.self.replay.check seqno true).1
      { cx with self := { cx.self with replay := (cx.self.replay.check seqno true).2 } } := by
  refine (run_bind_ok (self_apply cx)).trans ?_
  rw [ReplayWindow.checked_eq]
  rfl

@[simp] theorem ends_replayCheck (seqno : UInt32) {Q : Except SptpsError Unit → Cx C → Prop} :
    Ends (replayCheck seqno) cx Q R ↔ Q (cx.self.replay.check seqno true).1
      { cx with self := { cx.self with replay := (cx.self.replay.check seqno true).2 } } :=
  ends_of_ok (replayCheck_apply cx seqno)

end Ends

theorem sendRecordPriv_ends (cx : Cx C) (ty : UInt8) (body : Bytes) {Q : Unit → Cx C → Prop}
    {R : Cx C → Prop} (h : Q () (cx.emit ty body)) : Ends (sendRecordPriv ty body) cx Q R := by
  by_cases hfits : cx.self.framing = .stream ∧ 2 ^ 16 ≤ body.length
  · simp only [sendRecordPriv, ends_bind, ends_self, ends_update, if_pos hfits, ends_panic]
  · simp only [sendRecordPriv, ends_bind, ends_self, ends_update, if_neg hfits, ends_note, ends_push]
    simpa only [Cx.emit, List.append_assoc, List.cons_append, List.nil_append] using h

theorem sendSig_ends (cx : Cx C) {Q : Unit → Cx C → Prop} {R : Cx C → Prop}
    (h : ∀ sig, Q () (cx.emit REC_HANDSHAKE sig)) : Ends sendSig cx Q R := by
  simp only [sendSig, ends_bind, ends_self, ends_expect]
  intro mk _ hk _
  cases cx.self.kex with
  | x25519 => exact sendRecordPriv_ends cx _ _ (h _)
  | x25519MlKem768 =>
    simp only [ends_bind, ends_expect]
    exact fun _ _ => sendRecordPriv_ends cx _ _ (h _)

def Cx.kexStored (cx : Cx C) (body : Bytes) (encap : Option (Bytes × Bytes)) (rng : C.Rng) : Cx C :=
  { cx with self := { cx.self with hiskex := some body, mlkemEncap := encap }, rng := rng }

theorem kexBodyOk_iff (s : Sptps C) (body : Bytes) :
    s.kexBodyOk body = true ↔
      (body.length = kexLen s.kex ∧ body.head? = some VERSION) ∧ s.hiskex = none := by
  simp [Sptps.kexBodyOk]

theorem receiveKex_bad (cx : Cx C) (h : cx.self.kexBodyOk body = false) :
    (receiveKex body).run cx = .error (.err .badKex) cx := by
  simp only [receiveKex, run_bind, self_apply, h, if_true, fail_apply]

theorem receiveKex_classical (cx : Cx C) (h : cx.self.kexBodyOk body = true) (hk : cx.self.kex = .x25519) :
    (receiveKex body).run cx = (onlyIf cx.self.role.isInitiator sendSig).run
      (cx.kexStored body cx.self.mlkemEncap cx.rng) := by
  simp only [receiveKex, receiveKex.encap, run_bind, self_apply, h, if_false, update_apply, hk,
    run_pure, Bool.true_eq_false, Cx.kexStored]

theorem receiveKex_hybrid (cx : Cx C) (h : cx.self.kexBodyOk body = true) (hk : cx.self.kex = .x25519MlKem768) :
    (receiveKex body).run cx = match C.encapsulate (body.drop KEX_LEN) cx.rng with
      | (none, r) => .error (.err .badKex) (cx.kexStored body cx.self.mlkemEncap r)
      | (some pair, r) => (onlyIf cx.self.role.isInitiator sendSig).run
          (cx.kexStored body (some pair) r) := by
  have hlen : body.length = KEX_LEN + MLKEM_EK_LEN := by
    rw [((kexBodyOk_iff _ _).mp h).1.1, hk, kexLen]
  have htake : body.take (KEX_LEN + MLKEM_EK_LEN) = body := List.take_of_length_le hlen.le
  rcases henc : C.encapsulate (body.drop KEX_LEN) cx.rng with ⟨_ | pair, r⟩ <;>
    simp only [receiveKex, receiveKex.encap, run_bind, self_apply, h, if_false, update_apply, hk,
      slice_of_le _ (Nat.le_add_right _ _) hlen.ge, htake, draw_apply, henc, getOrElse_none,
      getOrElse_some, Bool.true_eq_false, Cx.kexStored]

/-- In hybrid mode the session has encapsulated against its peer's key. -/
def Encapsulated (kex : SptpsKex) (encap : Option (Bytes × Bytes)) : Prop :=
  kex = .x25519MlKem768 → ∃ ct ss, encap = some (ct, ss) ∧ ct.length = MLKEM_CT_LEN

/-- A KEX is refused, refused after it was stored, or stored and answered. -/
theorem receiveKex_cases (cx : Cx C) (body : Bytes) :
    (cx.self.kexBodyOk body = false ∧ (receiveKex body).run cx = .error (.err .badKex) cx) ∨
    (cx.self.kexBodyOk body = true ∧
      ((∃ r, (receiveKex body).run cx =
          .error (.err .badKex) (cx.kexStored body cx.self.mlkemEncap r)) ∨
        ∃ e r, Encapsulated cx.self.kex e ∧ (receiveKex body).run cx =
          (onlyIf cx.self.role.isInitiator sendSig).run (cx.kexStored body e r))) := by
  cases h : cx.self.kexBodyOk body with
  | false => exact .inl ⟨rfl, receiveKex_bad cx h⟩
  | true =>
    refine .inr ⟨rfl, ?_⟩
    cases hk : cx.self.kex with
    | x25519 => exact .inr ⟨_, _, nofun, receiveKex_classical cx h hk⟩
    | x25519MlKem768 =>
      rw [receiveKex_hybrid cx h hk]
      split
      case h_1 => exact .inl ⟨_, rfl⟩
      case h_2 _ pair r henc =>
        obtain ⟨ct, ss⟩ := pair
        exact .inr ⟨_, _, fun _ => ⟨ct, ss, rfl, C.length_encapsulate _ _ ct ss (by rw [henc])⟩, rfl⟩

/-- The transcript the session checks its peer's signature against. -/
def Sptps.peerTranscript (s : Sptps C) (mykex hiskex : Bytes) : Bytes :=
  sigTranscript (!s.role.isInitiator) hiskex mykex s.label

theorem sigLen_ge (kex : SptpsKex) : SIG_LEN ≤ sigLen kex := by
  cases kex <;> decide

theorem verifySig_apply (cx : Cx C) (hlen : body.length = sigLen cx.self.kex) (hm : cx.self.mykex = some mk)
    (hh : cx.self.hiskex = some hk) :
    (verifySig body).run cx =
      if C.verify cx.self.hiskey (cx.self.peerTranscript mk hk) (body.take SIG_LEN) = true then
        .ok () { cx with log := cx.log ++ [.verified (cx.self.peerTranscript mk hk)] }
      else .error (.err .badSig) cx := by
  have hsig : SIG_LEN ≤ body.length := hlen ▸ sigLen_ge _
  by_cases hv : C.verify cx.self.hiskey (cx.self.peerTranscript mk hk) (body.take SIG_LEN) = true
  · rw [if_pos hv]
    rw [Sptps.peerTranscript] at hv
    simp [verifySig, hlen, hm, hh, slice_of_le _ (Nat.zero_le _) hsig, hv, Sptps.peerTranscript]
  · rw [if_neg hv]
    rw [Sptps.peerTranscript, Bool.not_eq_true] at hv
    simp [verifySig, hlen, hm, hh, slice_of_le _ (Nat.zero_le _) hsig, hv]

theorem verifySig_ends (cx : Cx C) (body : Bytes) {Q : Unit → Cx C → Prop} {R : Cx C → Prop}
    (hbad : R cx) (hok : ∀ mk hk, cx.self.mykex = some mk → cx.self.hiskex = some hk →
      Q () { cx with log := cx.log ++ [.verified (cx.self.peerTranscript mk hk)] }) :
    Ends (verifySig body) cx Q R := by
  simp only [verifySig, ends_bind, ends_self, ends_ite, ends_fail, ends_slice, ends_expect, ends_note]
  exact ⟨fun _ => hbad, fun _ _ mk hm hk hh => ⟨fun _ => hbad, fun _ => hok mk hk hm hh⟩⟩

def Sptps.keyMaterial (s : Sptps C) (mykex hiskex shared kemHash : Bytes) : Bytes :=
  let (initKex, respKex) := if s.role.isInitiator then (mykex, hiskex) else (hiskex, mykex)
  C.prf shared (keySeed ((initKex.drop 1).take NONCE_LEN) ((respKex.drop 1).take NONCE_LEN)
    s.label kemHash) (2 * CIPHER_KEY_LEN)

theorem generateKeyMaterial_apply (cx : Cx C) (shared kemHash : Bytes) (hm : cx.self.mykex = some mk)
    (hh : cx.self.hiskex = some hk) (hml : 1 + NONCE_LEN ≤ mk.length) (hhl : 1 + NONCE_LEN ≤ hk.length) :
    (generateKeyMaterial shared kemHash).run cx = .ok () { cx with
      self := { cx.self with key := some (cx.self.keyMaterial mk hk shared kemHash) } } := by
  cases hr : cx.self.role.isInitiator <;>
    simp [generateKeyMaterial, hm, hh, hr, slice_of_le _ (Nat.le_add_right 1 NONCE_LEN) hml,
      slice_of_le _ (Nat.le_add_right 1 NONCE_LEN) hhl, Sptps.keyMaterial, List.drop_take]

theorem generateKeyMaterial_ends (cx : Cx C) (shared kemHash : Bytes) {Q : Unit → Cx C → Prop}
    {R : Cx C → Prop} (h : ∀ k, Q () { cx with self := { cx.self with key := some k } }) :
    Ends (generateKeyMaterial shared kemHash) cx Q R := by
  simp only [generateKeyMaterial, ends_bind, ends_self, ends_expect]
  intro mk _ hk _
  cases cx.self.role.isInitiator <;>
    simp only [if_true, if_false, Bool.false_eq_true, ends_slice, ends_update] <;>
    exact fun _ _ => h _

theorem agreeKey_ends (cx : Cx C) (body : Bytes) {Q : Unit → Cx C → Prop} {R : Cx C → Prop}
    (hbad : ∀ m, R { cx with self := { cx.self with ecdh := none, mlkem := m } })
    (hok : ∀ e m k, cx.self.ecdh = some e →
      Q () { cx with self := { cx.self with ecdh := none, mlkem := m, key := some k } }) :
    Ends (agreeKey body) cx Q R := by
  simp only [agreeKey, ends_bind, ends_self, ends_expect, ends_slice, ends_update, ends_okOr]
  intro mk _ hk _ _
  refine ⟨fun e he => ⟨fun x _ => ?_, fun _ => hbad _⟩, fun _ => hbad _⟩
  split
  · exact generateKeyMaterial_ends _ _ _ fun k => hok e _ k he
  · simp only [ends_bind, ends_slice, ends_update, ends_okOr, ends_expect]
    intro _
    refine ⟨fun dk _ pair _ _ _ => ?_, fun _ => hbad _⟩
    exact generateKeyMaterial_ends _ _ _ fun k => hok e _ k he

/-- Classical key agreement, once the session has both KEX bodies. -/
theorem agreeKey_classical (cx : Cx C) {z : Bytes} {p : C.EcdhPrivate} (body : Bytes)
    (hkex : cx.self.kex = .x25519) (hm : cx.self.mykex = some mk) (hh : cx.self.hiskex = some hk)
    (hlen : KEX_LEN ≤ hk.length) (hp : cx.self.ecdh = some p)
    (hz : C.computeShared p ((hk.take KEX_LEN).drop (1 + NONCE_LEN)) = some z) :
    (agreeKey body).run cx =
      (generateKeyMaterial z []).run { cx with self := { cx.self with ecdh := none } } := by
  have hnonce : 1 + NONCE_LEN ≤ KEX_LEN := by decide
  refine (run_bind_ok (self_apply cx)).trans ?_
  rw [hm, hh, hp]
  refine (run_bind_ok (getOrElse_some cx mk _)).trans ?_
  refine (run_bind_ok (getOrElse_some cx hk _)).trans ?_
  refine (run_bind_ok (slice_of_le cx hnonce hlen)).trans ?_
  refine (run_bind_ok (update_apply cx _)).trans ?_
  refine (run_bind_ok (getOrElse_some _ p _)).trans ?_
  rw [hz]
  refine (run_bind_ok (getOrElse_some _ z _)).trans ?_
  split
  · rfl
  · simp_all

/-- Hybrid key agreement: the peer's ciphertext follows its signature. -/
theorem agreeKey_hybrid (cx : Cx C) {z : Bytes} {p : C.EcdhPrivate} {dk : C.MlKemPrivate} {e : Bytes × Bytes}
    (sig ct : Bytes) (hkex : cx.self.kex = .x25519MlKem768) (hm : cx.self.mykex = some mk)
    (hh : cx.self.hiskex = some hk) (hml : KEX_LEN ≤ mk.length) (hhl : KEX_LEN ≤ hk.length)
    (hp : cx.self.ecdh = some p) (hz : C.computeShared p ((hk.take KEX_LEN).drop (1 + NONCE_LEN)) = some z)
    (hsig : sig.length = SIG_LEN) (hct : ct.length = MLKEM_CT_LEN) (hdk : cx.self.mlkem = some dk)
    (he : cx.self.mlkemEncap = some e) :
    (agreeKey (sig ++ ct)).run cx = (if cx.self.role.isInitiator then
        generateKeyMaterial (z ++ e.2 ++ C.decapsulate dk ct)
          (C.kemTranscriptHash (mk.drop KEX_LEN) (hk.drop KEX_LEN) e.1 ct)
      else generateKeyMaterial (z ++ C.decapsulate dk ct ++ e.2)
          (C.kemTranscriptHash (hk.drop KEX_LEN) (mk.drop KEX_LEN) ct e.1)).run
        { cx with self := { cx.self with ecdh := none, mlkem := none } } := by
  have hnonce : 1 + NONCE_LEN ≤ KEX_LEN := by decide
  have hall : SIG_LEN + MLKEM_CT_LEN = (sig ++ ct).length := by rw [List.length_append, hsig, hct]
  have hcut : ((sig ++ ct).take (SIG_LEN + MLKEM_CT_LEN)).drop SIG_LEN = ct := by
    rw [hall, List.take_length, List.drop_left' hsig]
  refine (run_bind_ok (self_apply cx)).trans ?_
  rw [hm, hh, hp, hdk, he]
  refine (run_bind_ok (getOrElse_some cx mk _)).trans ?_
  refine (run_bind_ok (getOrElse_some cx hk _)).trans ?_
  refine (run_bind_ok (slice_of_le cx hnonce hhl)).trans ?_
  refine (run_bind_ok (update_apply cx _)).trans ?_
  refine (run_bind_ok (getOrElse_some _ p _)).trans ?_
  rw [hz]
  refine (run_bind_ok (getOrElse_some _ z _)).trans ?_
  split
  · simp_all
  refine (run_bind_ok (slice_of_le _ (Nat.le_add_right _ _) hall.le)).trans ?_
  rw [hcut]
  refine (run_bind_ok (update_apply _ _)).trans ?_
  refine (run_bind_ok (getOrElse_some _ dk _)).trans ?_
  refine (run_bind_ok (getOrElse_some _ e _)).trans ?_
  cases cx.self.role.isInitiator <;>
    refine (run_bind_ok (slice_of_le _ hml le_rfl)).trans ?_ <;>
    refine (run_bind_ok (slice_of_le _ hhl le_rfl)).trans ?_ <;>
    simp only [List.take_length, if_true, if_false, Bool.false_eq_true]

def Cx.emitAll (cx : Cx C) (bodies : List Bytes) : Cx C :=
  bodies.foldl (fun cx body => cx.emit REC_HANDSHAKE body) cx

@[simp] theorem emitAll_self (cx : Cx C) (bodies : List Bytes) : (cx.emitAll bodies).self =
    { cx.self with outseqno := cx.self.outseqno + UInt64.ofNat bodies.length } := by
  induction bodies generalizing cx with
  | nil => simp [Cx.emitAll]
  | cons body rest ih =>
    have hstep : cx.emitAll (body :: rest) = (cx.emit REC_HANDSHAKE body).emitAll rest := rfl
    rw [hstep, ih]
    simp [Cx.emit, add_assoc, add_comm]

def Cx.dropKex (cx : Cx C) : Cx C :=
  { cx with self := { cx.self with mykex := none, hiskex := none, mlkemEncap := none } }

def Sptps.outCipherOf (s : Sptps C) (k : Bytes) : SptpsCipher :=
  ⟨s.aead, keyHalf k s.role.isInitiator true⟩

def Cx.setOut (cx : Cx C) (k : Bytes) : Cx C :=
  { cx with
    self := { cx.self with outcipher := some (cx.self.outCipherOf k), outKeyBase := cx.self.outseqno }
    log := cx.log ++ [.installed (cx.self.outCipherOf k)] }

def Cx.setIn (cx : Cx C) (k : Bytes) : Cx C :=
  { cx with self := { cx.self with
      key := none
      incipher := some ⟨cx.self.aead, keyHalf k cx.self.role.isInitiator false⟩ } }

/-- What the tail of `receive_sig` does: `sigs` and `acks` go out under the old key, then the switch. -/
def Cx.switched (cx : Cx C) (sigs acks : List Bytes) (k : Bytes) : Cx C :=
  ((cx.emitAll sigs).dropKex.emitAll acks).setOut k

/-- The tail of `receive_sig`: a SIG or none, an ACK or none, both under the old key, then the switch. -/
theorem switchOut_ends (cx : Cx C) {Q : Bool → Cx C → Prop} {R : Cx C → Prop}
    (h : ∀ sigs acks k, sigs.length ≤ 1 → acks.length ≤ 1 → cx.self.key = some k →
      Q cx.self.outcipher.isSome (cx.switched sigs acks k)) :
    Ends switchOut cx Q R := by
  have hend : ∀ sigs acks : List Bytes, sigs.length ≤ 1 → acks.length ≤ 1 →
      ∀ k, ((cx.emitAll sigs).dropKex.emitAll acks).self.key = some k →
        Q cx.self.outcipher.isSome (((cx.emitAll sigs).dropKex.emitAll acks).setOut k) := by
    intro sigs acks hs ha k hk
    exact h sigs acks k hs ha (by simpa [Cx.dropKex] using hk)
  simp only [switchOut, ends_bind, ends_self, ends_onlyIf, ends_update, ends_expect, ends_note,
    ends_pure]
  refine ⟨fun _ => sendSig_ends cx fun sig => ⟨fun _ => sendRecordPriv_ends _ _ _ ?_, fun _ => ?_⟩,
    fun _ => ⟨fun _ => sendRecordPriv_ends _ _ _ ?_, fun _ => ?_⟩⟩
  · exact hend [sig] [[]] (by simp) (by simp)
  · exact hend [sig] [] (by simp) (by simp)
  · exact hend [] [[]] (by simp) (by simp)
  · exact hend [] [] (by simp) (by simp)

theorem receiveAck_ends (cx : Cx C) (body : Bytes) {Q : Unit → Cx C → Prop} {R : Cx C → Prop}
    (hbad : body ≠ [] → R cx) (hok : ∀ k, body = [] → cx.self.key = some k → Q () (cx.setIn k)) :
    Ends (receiveAck body) cx Q R := by
  simp only [receiveAck, ends_bind, ends_self, ends_ite, ends_fail, ends_expect, ends_update]
  exact ⟨hbad, fun hb k hk => hok k (not_not.mp hb) hk⟩

theorem receiveAck_nil {cx : Cx C} {k : Bytes} (h : cx.self.key = some k) :
    (receiveAck []).run cx = .ok () (cx.setIn k) := by
  refine (run_bind_ok (self_apply cx)).trans ?_
  rw [if_neg (not_not.mpr rfl)]
  exact (run_bind_ok (getOrElse_of_eq cx h)).trans rfl

end Tincr.Sptps
