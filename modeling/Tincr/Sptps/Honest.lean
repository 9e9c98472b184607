import Tincr.Sptps.Stream

/-!
The steps of an honest handshake, one session at a time. A session stands in one of five shapes; for
each shape and each message that its peer can send then, what it answers and in which shape it is left.
Both ends arrive at the same key material, whichever role computes it.
-/

set_option linter.dupNamespace false

namespace Tincr.Sptps

open EStateM M

variable {C : Crypto}

/-- What two ends of one session agree on beforehand. -/
structure PairConfig (C : Crypto) where
  kex : SptpsKex
  aead : SptpsAead
  label : Bytes
  replaywin : ℕ
  keyI : C.SigningKey
  keyR : C.SigningKey

def Role.other : Role → Role
  | .initiator => .responder
  | .responder => .initiator

@[simp] theorem Role.other_initiator : Role.initiator.other = .responder := rfl

@[simp] theorem Role.other_responder : Role.responder.other = .initiator := rfl

@[simp] theorem Role.other_other (ρ : Role) : ρ.other.other = ρ := by
  cases ρ <;> rfl

namespace PairConfig

variable (X : PairConfig C)

def keyOf : Role → C.SigningKey
  | .initiator => X.keyI
  | .responder => X.keyR

def config (ρ : Role) : Config C :=
  ⟨ρ, .stream, X.kex, X.keyOf ρ, C.publicKey (X.keyOf ρ.other), X.label, X.aead, X.replaywin⟩

def sessionLabel : Bytes := (X.config .initiator).sessionLabel

/-- The SIG body of the end with role `ρ` over its own KEX and its peer's. -/
def sig (ρ : Role) (mine his : KexPair C) (ct : Bytes) : Bytes :=
  C.sign (X.keyOf ρ) (sigTranscript ρ.isInitiator mine.body his.body X.sessionLabel) ++ ct

def ctOf (e : Bytes × Bytes) : Bytes :=
  match X.kex with
  | .x25519 => []
  | .x25519MlKem768 => e.1

/-- The KEX pair was drawn by `send_kex`. -/
def Honest (p : KexPair C) : Prop := ∃ rng, (drawKex X.kex rng).1 = p

/-- In hybrid mode, `e` is a ciphertext and its secret for the owner of `p`. -/
def Encap (p : KexPair C) (e : Bytes × Bytes) : Prop :=
  X.kex = .x25519MlKem768 → e.1.length = MLKEM_CT_LEN ∧
    ∃ dk, p.mlkem = some dk ∧ C.decapsulate dk e.1 = e.2

/-- The key material of a round from the shared secret, both KEX pairs and both encapsulations, the
initiator's first. -/
def roundKey (z : Bytes) (pI pR : KexPair C) (eI eR : Bytes × Bytes) : Bytes :=
  let nonceI := (pI.body.drop 1).take NONCE_LEN
  let nonceR := (pR.body.drop 1).take NONCE_LEN
  match X.kex with
  | .x25519 => C.prf z (keySeed nonceI nonceR X.sessionLabel []) (2 * CIPHER_KEY_LEN)
  | .x25519MlKem768 =>
    C.prf (z ++ eI.2 ++ eR.2) (keySeed nonceI nonceR X.sessionLabel
      (C.kemTranscriptHash (pI.body.drop KEX_LEN) (pR.body.drop KEX_LEN) eI.1 eR.1)) (2 * CIPHER_KEY_LEN)

def cipherFrom (ρ : Role) (k : Bytes) : SptpsCipher := ⟨X.aead, keyHalf k ρ.isInitiator true⟩

theorem cipherFrom_other (ρ : Role) (k : Bytes) :
    X.cipherFrom ρ.other k = ⟨X.aead, keyHalf k ρ.isInitiator false⟩ := by
  cases ρ <;> rfl

end PairConfig

structure IsEnd (X : PairConfig C) (ρ : Role) (s : Sptps C) : Prop where
  role : s.role = ρ
  framing : s.framing = .stream
  kex : s.kex = X.kex
  label : s.label = X.sessionLabel
  aead : s.aead = X.aead
  mykey : s.mykey = X.keyOf ρ
  hiskey : s.hiskey = C.publicKey (X.keyOf ρ.other)

structure Idle (s : Sptps C) : Prop where
  state : s.state = .secondaryKex
  mykex : s.mykex = none
  hiskex : s.hiskex = none

/-- Its own KEX is out and it holds the private halves. -/
structure HasKex (s : Sptps C) (mine : KexPair C) : Prop where
  mykex : s.mykex = some mine.body
  ecdh : s.ecdh = some mine.ecdh
  mlkem : s.kex = .x25519MlKem768 → s.mlkem = mine.mlkem

structure Kexing (s : Sptps C) (mine : KexPair C) : Prop extends HasKex s mine where
  state : s.state = .kex
  hiskex : s.hiskex = none

structure Siging (s : Sptps C) (mine his : KexPair C) (e : Bytes × Bytes) : Prop
    extends HasKex s mine where
  state : s.state = .sig
  hiskex : s.hiskex = some his.body
  encap : s.kex = .x25519MlKem768 → s.mlkemEncap = some e

/-- Waits for the ACK after which it reads with `c`: in a rekey it installs `c` then, in the key
confirmation it has done so already. -/
structure Awaiting (s : Sptps C) (c : SptpsCipher) : Prop where
  mykex : s.mykex = none
  hiskex : s.hiskex = none
  phase : (s.state = .ack ∧ ∃ k, s.key = some k ∧ c = ⟨s.aead, keyHalf k s.role.isInitiator false⟩) ∨
    (s.state = .confirm ∧ s.incipher = some c)

def Event.sealedRec : Event → Option Rec
  | .sealed c n ty body => some ⟨c, n, ty, body⟩
  | _ => none

def Event.openedRec : Event → Option Rec
  | .opened c n ty body => some ⟨c, n, ty, body⟩
  | _ => none

def sealedRecs (log : List Event) : List Rec := log.filterMap Event.sealedRec

def openedRecs (log : List Event) : List Rec := log.filterMap Event.openedRec

def wires (out : List Output) : Bytes :=
  out.flatMap fun
    | .wire _ bytes => bytes
    | _ => []

def records (out : List Output) : List (UInt8 × Bytes) :=
  out.filterMap fun
    | .record ty bytes => some (ty, bytes)
    | _ => none

def Sptps.static (s : Sptps C) := (s.role, s.framing, s.kex, s.label, s.aead, s.mykey, s.hiskey)

theorem IsEnd.congr {X : PairConfig C} {ρ : Role} {s s' : Sptps C} (h : IsEnd X ρ s)
    (e : s'.static = s.static) : IsEnd X ρ s' := by
  simp only [Sptps.static, Prod.mk.injEq] at e
  obtain ⟨hrole, hframing, hkex, hlabel, haead, hmykey, hhiskey⟩ := e
  exact ⟨hrole.trans h.role, hframing.trans h.framing, hkex.trans h.kex, hlabel.trans h.label,
    haead.trans h.aead, hmykey.trans h.mykey, hhiskey.trans h.hiskey⟩

/-- Between `cx` and `cx'` the session has sealed `rs` and put them on the wire, and has taken nothing
off the stream. -/
structure Sends (X : PairConfig C) (ρ : Role) (cx cx' : Cx C) (rs : List Rec) : Prop where
  isEnd : IsEnd X ρ cx'.self
  sealed : sealedRecs cx'.log = sealedRecs cx.log ++ rs
  opened : openedRecs cx'.log = openedRecs cx.log
  wires : wires cx'.out = wires cx.out ++ (rs.map (Rec.wire C)).flatten
  records : records cx'.out = records cx.out
  stream : cx'.self.stream = cx.self.stream
  inseqno : cx'.self.inseqno = cx.self.inseqno
  outseqno : cx'.self.outseqno.toUInt32 = cx.self.outseqno.toUInt32 + UInt32.ofNat rs.length

section Sends

variable {X : PairConfig C} {ρ : Role} {cx cx₁ cx₂ : Cx C} {rs rs' : List Rec}

theorem Sends.refl (hend : IsEnd X ρ cx.self) : Sends X ρ cx cx [] where
  isEnd := hend
  sealed := by simp
  opened := rfl
  wires := by simp
  records := rfl
  stream := rfl
  inseqno := rfl
  outseqno := by simp

theorem Sends.trans (h₁ : Sends X ρ cx cx₁ rs) (h₂ : Sends X ρ cx₁ cx₂ rs') :
    Sends X ρ cx cx₂ (rs ++ rs') where
  isEnd := h₂.isEnd
  sealed := by rw [h₂.sealed, h₁.sealed, List.append_assoc]
  opened := h₂.opened.trans h₁.opened
  wires := by rw [h₂.wires, h₁.wires, List.map_append, List.flatten_append, List.append_assoc]
  records := h₂.records.trans h₁.records
  stream := h₂.stream.trans h₁.stream
  inseqno := h₂.inseqno.trans h₁.inseqno
  outseqno := by
    rw [h₂.outseqno, h₁.outseqno, List.length_append, UInt32.ofNat_add, add_assoc]

theorem Sends.quiet (h : Sends X ρ cx cx₁ rs) (hend : cx₂.self.static = cx₁.self.static)
    (hcount : (cx₂.self.stream, cx₂.self.inseqno, cx₂.self.outseqno) =
      (cx₁.self.stream, cx₁.self.inseqno, cx₁.self.outseqno))
    (hs : sealedRecs cx₂.log = sealedRecs cx₁.log) (ho : openedRecs cx₂.log = openedRecs cx₁.log)
    (hw : Sptps.wires cx₂.out = Sptps.wires cx₁.out) (hr : Sptps.records cx₂.out = Sptps.records cx₁.out) :
    Sends X ρ cx cx₂ rs := by
  simp only [Prod.mk.injEq] at hcount
  obtain ⟨hstream, hin, hout⟩ := hcount
  refine ⟨h.isEnd.congr hend, ?_, ?_, ?_, ?_, ?_, ?_, ?_⟩
  · rw [hs, h.sealed]
  · rw [ho, h.opened]
  · rw [hw, h.wires]
  · rw [hr, h.records]
  · rw [hstream, h.stream]
  · rw [hin, h.inseqno]
  · rw [hout, h.outseqno]

def hsRecs (c : Option SptpsCipher) : UInt32 → List Bytes → List Rec
  | _, [] => []
  | n, body :: rest => ⟨c, n, REC_HANDSHAKE, body⟩ :: hsRecs c (n + 1) rest

/-- The handshake records that a session would send next. -/
def Sptps.nextRecs (s : Sptps C) (bodies : List Bytes) : List Rec :=
  hsRecs s.outcipher s.outseqno.toUInt32 bodies

theorem Sends.emit (h : Sends X ρ cx cx₁ rs) (ty : UInt8) (body : Bytes) :
    Sends X ρ cx (cx₁.emit ty body)
      (rs ++ [⟨cx₁.self.outcipher, cx₁.self.outseqno.toUInt32, ty, body⟩]) := by
  refine h.trans ⟨h.isEnd.congr rfl, ?_, ?_, ?_, ?_, rfl, rfl, ?_⟩
  · simp [Cx.emit, sealedRecs, Event.sealedRec]
  · simp [Cx.emit, openedRecs, Event.openedRec]
  · simp [Cx.emit, Sptps.wires, Rec.wire, h.isEnd.framing]
  · simp [Cx.emit, Sptps.records]
  · simp [Cx.emit]

theorem Sends.emitAll (h : Sends X ρ cx cx₁ rs) (bodies : List Bytes) :
    Sends X ρ cx (cx₁.emitAll bodies) (rs ++ cx₁.self.nextRecs bodies) := by
  induction bodies generalizing cx₁ rs with
  | nil => simpa [Cx.emitAll, Sptps.nextRecs, hsRecs] using h
  | cons body rest ih =>
    have hrest := ih (h.emit REC_HANDSHAKE body)
    simpa [Cx.emitAll, Sptps.nextRecs, hsRecs, Cx.emit] using hrest

end Sends

section Honest

variable {X : PairConfig C} {p q : KexPair C}

theorem PairConfig.Honest.length (h : X.Honest p) : p.body.length = kexLen X.kex := by
  obtain ⟨rng, rfl⟩ := h
  exact length_drawKex _ _

theorem PairConfig.Honest.head (h : X.Honest p) : p.body.head? = some VERSION := by
  obtain ⟨rng, rfl⟩ := h
  exact head_drawKex _ _

/-- The public key and the encapsulation key sit in the body behind the version and the nonce. -/
theorem PairConfig.Honest.parts (h : X.Honest p) : ∃ seed, p.ecdh = (C.ecdhFromSeed seed).1 ∧
    (p.body.take KEX_LEN).drop (1 + NONCE_LEN) = (C.ecdhFromSeed seed).2 ∧
    (X.kex = .x25519MlKem768 → ∃ r, p.mlkem = some (C.mlkemGenerate r).1.1 ∧
      p.body.drop KEX_LEN = (C.mlkemGenerate r).1.2) := by
  obtain ⟨rng, rfl⟩ := h
  have hn := C.length_fillBytes NONCE_LEN rng
  have hp := C.length_ecdhPublic (C.fillBytes 32 (C.fillBytes NONCE_LEN rng).2).1
  have hcut : ∀ ek : Bytes, let body := VERSION :: ((C.fillBytes NONCE_LEN rng).1 ++
      (C.ecdhFromSeed (C.fillBytes 32 (C.fillBytes NONCE_LEN rng).2).1).2 ++ ek)
      (body.take KEX_LEN).drop (1 + NONCE_LEN) =
        (C.ecdhFromSeed (C.fillBytes 32 (C.fillBytes NONCE_LEN rng).2).1).2 ∧ body.drop KEX_LEN = ek := by
    intro ek
    have h1 : KEX_LEN = NONCE_LEN + ECDH_PUBLIC_LEN + 1 := rfl
    refine ⟨?_, ?_⟩
    · rw [h1, List.take_succ_cons, List.take_left' (by simp [hn, hp]), Nat.add_comm 1,
        List.drop_succ_cons, List.drop_left' hn]
    · rw [h1, List.drop_succ_cons, List.drop_left' (by simp [hn, hp])]
  refine ⟨(C.fillBytes 32 (C.fillBytes NONCE_LEN rng).2).1, ?_⟩
  cases hk : X.kex with
  | x25519 => exact ⟨rfl, (hcut []).1, fun h => by cases h⟩
  | x25519MlKem768 => exact ⟨rfl, (hcut _).1, fun _ => ⟨_, rfl, (hcut _).2⟩⟩

/-- Two KEX pairs meet in one shared secret. -/
theorem PairConfig.Honest.shared (hC : C.Correct) (hp : X.Honest p) (hq : X.Honest q) : ∃ z,
    C.computeShared p.ecdh ((q.body.take KEX_LEN).drop (1 + NONCE_LEN)) = some z ∧
    C.computeShared q.ecdh ((p.body.take KEX_LEN).drop (1 + NONCE_LEN)) = some z := by
  obtain ⟨seed, he, hpub, -⟩ := hp.parts
  obtain ⟨seed', he', hpub', -⟩ := hq.parts
  rw [he, he', hpub, hpub']
  exact hC.shared_agree seed seed'

/-- A KEX that `send_kex` made can be encapsulated against. -/
theorem PairConfig.Honest.encapsulate (hC : C.Correct) (hp : X.Honest p)
    (hk : X.kex = .x25519MlKem768) (rng : C.Rng) : ∃ e r,
    C.encapsulate (p.body.drop KEX_LEN) rng = (some e, r) ∧ X.Encap p e := by
  obtain ⟨-, -, -, hml⟩ := hp.parts
  obtain ⟨r₀, hdk, hek⟩ := hml hk
  obtain ⟨ct, ss, henc, hdec⟩ := hC.decapsulate_encapsulate r₀ rng
  refine ⟨(ct, ss), (C.encapsulate (p.body.drop KEX_LEN) rng).2, ?_, fun _ => ?_⟩
  · rw [← henc, hek]
  · exact ⟨C.length_encapsulate _ _ _ _ henc, _, hdk, hdec⟩

end Honest

section Steps

variable {X : PairConfig C} {ρ : Role} {cx cx₁ : Cx C} {rs : List Rec} {mine his : KexPair C}
  {e e' : Bytes × Bytes} {z : Bytes}

theorem Sends.kexSent (h : Sends X ρ cx cx₁ rs) (hh : cx₁.self.hiskex = none) :
    ∃ mine, X.Honest mine ∧ HasKex cx₁.kexSent.self mine ∧ cx₁.kexSent.self.hiskex = none ∧
      Sends X ρ cx cx₁.kexSent (rs ++ cx₁.self.nextRecs [mine.body]) := by
  refine ⟨(drawKex cx₁.self.kex cx₁.rng).1, ⟨cx₁.rng, by rw [h.isEnd.kex]⟩, ⟨rfl, rfl, ?_⟩, hh, ?_⟩
  · intro hk
    have hk' : cx₁.self.kex = .x25519MlKem768 := hk
    simp only [Cx.kexSent, Cx.emit, hk', drawKex, Option.orElse_some]
  · exact (h.emit REC_HANDSHAKE (drawKex cx₁.self.kex cx₁.rng).1.body).quiet rfl rfl rfl rfl rfl rfl

theorem length_sig (ρ : Role) (mine : KexPair C) (hX : X.Encap his e) :
    (X.sig ρ mine his (X.ctOf e)).length = sigLen X.kex := by
  unfold PairConfig.sig PairConfig.ctOf
  cases hk : X.kex with
  | x25519 => simp [C.length_sign, sigLen]
  | x25519MlKem768 => simp [C.length_sign, sigLen, (hX hk).1]

theorem sigLen_lt (kex : SptpsKex) : sigLen kex < 2 ^ 16 := by
  cases kex <;> decide

/-- A session that has both KEX bodies sends its SIG. -/
theorem Sends.sendSig (h : Sends X ρ cx cx₁ rs) (hm : cx₁.self.mykex = some mine.body)
    (hh : cx₁.self.hiskex = some his.body) (hX : X.Encap his e)
    (he : cx₁.self.kex = .x25519MlKem768 → cx₁.self.mlkemEncap = some e) :
    Sptps.sendSig.run cx₁ = .ok () (cx₁.emit REC_HANDSHAKE (X.sig ρ mine his (X.ctOf e))) := by
  have hct : cx₁.self.sigCt = some (X.ctOf e) := by
    unfold Sptps.sigCt PairConfig.ctOf
    rw [h.isEnd.kex] at he ⊢
    cases hk : X.kex with
    | x25519 => rfl
    | x25519MlKem768 => simp [he hk]
  have hbody : cx₁.self.sigBody mine.body his.body (X.ctOf e) = X.sig ρ mine his (X.ctOf e) := by
    simp only [Sptps.sigBody, PairConfig.sig, h.isEnd.mykey, h.isEnd.role, h.isEnd.label]
  rw [sendSig_eq cx₁ hm hh hct, hbody]
  exact sendRecordPriv_apply _ _ (length_sig ρ mine hX ▸ sigLen_lt _)

/-- The peer's KEX, once the session's own is out: it is stored, and the initiator answers with its SIG. -/
theorem receiveKex_honest (hC : C.Correct) (h : Sends X ρ cx cx₁ rs) (hm : HasKex cx₁.self mine)
    (hh : cx₁.self.hiskex = none) (hhis : X.Honest his) : ∃ e cx₂,
    (receiveKex his.body).run cx₁ = .ok () cx₂ ∧ X.Encap his e ∧ Siging (cx₂.setState .sig).self mine his e ∧
    cx₂.self.incipher = cx₁.self.incipher ∧ cx₂.self.outcipher = cx₁.self.outcipher ∧
    Sends X ρ cx cx₂ (rs ++ cx₁.self.nextRecs (if ρ.isInitiator then [X.sig ρ mine his (X.ctOf e)] else [])) := by
  have hok : cx₁.self.kexBodyOk his.body = true :=
    (kexBodyOk_iff _ _).mpr ⟨⟨by rw [h.isEnd.kex, hhis.length], hhis.head⟩, hh⟩
  obtain ⟨e, enc, r, hrun, hX, he⟩ : ∃ e enc r, (receiveKex his.body).run cx₁ =
      (onlyIf cx₁.self.role.isInitiator sendSig).run (cx₁.kexStored his.body enc r) ∧ X.Encap his e ∧
      (cx₁.self.kex = .x25519MlKem768 → enc = some e) := by
    cases hk : cx₁.self.kex with
    | x25519 =>
      refine ⟨([], []), _, _, receiveKex_classical cx₁ hok hk, fun hX => ?_, fun h => nomatch h⟩
      rw [← h.isEnd.kex, hk] at hX
      cases hX
    | x25519MlKem768 =>
      obtain ⟨e, r, henc, hX⟩ := hhis.encapsulate hC (h.isEnd.kex ▸ hk) cx₁.rng
      refine ⟨e, some e, r, ?_, hX, fun _ => rfl⟩
      rw [receiveKex_hybrid cx₁ hok hk, henc]
  have hstored : Sends X ρ cx (cx₁.kexStored his.body enc r) rs := h.quiet rfl rfl rfl rfl rfl rfl
  rw [h.isEnd.role] at hrun
  cases ρ with
  | responder =>
    exact ⟨e, _, hrun, hX, ⟨⟨hm.mykex, hm.ecdh, hm.mlkem⟩, rfl, rfl, he⟩, rfl, rfl,
      by simpa [Role.isInitiator, Sptps.nextRecs, hsRecs] using hstored⟩
  | initiator =>
    have hsig := hstored.sendSig hm.mykex rfl hX he
    exact ⟨e, _, hrun.trans hsig, hX, ⟨⟨hm.mykex, hm.ecdh, hm.mlkem⟩, rfl, rfl, he⟩, rfl, rfl,
      hstored.emit _ _⟩

/-- The material of one handshake round: two KEX pairs, what each end encapsulated against the other's,
and the shared secret. -/
structure Round (X : PairConfig C) (mine his : KexPair C) (e e' : Bytes × Bytes) (z : Bytes) : Prop where
  mineHonest : X.Honest mine
  hisHonest : X.Honest his
  encap : X.Encap his e
  encap' : X.Encap mine e'
  shared : C.computeShared mine.ecdh ((his.body.take KEX_LEN).drop (1 + NONCE_LEN)) = some z
  shared' : C.computeShared his.ecdh ((mine.body.take KEX_LEN).drop (1 + NONCE_LEN)) = some z

theorem Round.swap (h : Round X mine his e e' z) : Round X his mine e' e z :=
  ⟨h.hisHonest, h.mineHonest, h.encap', h.encap, h.shared', h.shared⟩

theorem Round.intro (hC : C.Correct) (hmine : X.Honest mine) (hhis : X.Honest his) (he : X.Encap his e)
    (he' : X.Encap mine e') : ∃ z, Round X mine his e e' z := by
  obtain ⟨z, hz, hz'⟩ := hmine.shared hC hhis
  exact ⟨z, hmine, hhis, he, he', hz, hz'⟩

/-- `roundKey` as the end with role `ρ` sees it: `e` is its own encapsulation, `e'` the peer's. -/
def PairConfig.keyFor (X : PairConfig C) (ρ : Role) (z : Bytes) (mine his : KexPair C)
    (e e' : Bytes × Bytes) : Bytes :=
  match ρ with
  | .initiator => X.roundKey z mine his e e'
  | .responder => X.roundKey z his mine e' e

theorem verifySig_honest (hC : C.Correct) (hend : IsEnd X ρ cx.self) (h : Siging cx.self mine his e)
    (hX : X.Encap mine e') : ∃ msg, (verifySig (X.sig ρ.other his mine (X.ctOf e'))).run cx =
      .ok () { cx with log := cx.log ++ [.verified msg] } := by
  have htake : (X.sig ρ.other his mine (X.ctOf e')).take SIG_LEN =
      C.sign (X.keyOf ρ.other) (cx.self.peerTranscript mine.body his.body) := by
    rw [PairConfig.sig, List.take_left' (C.length_sign _ _), Sptps.peerTranscript, hend.role, hend.label]
    cases ρ <;> rfl
  refine ⟨_, (verifySig_apply cx ?_ h.mykex h.hiskex).trans (if_pos ?_)⟩
  · rw [length_sig _ _ hX, hend.kex]
  · rw [htake, hend.hiskey]
    exact hC.verify_sign _ _

theorem agreeKey_honest (hend : IsEnd X ρ cx.self) (h : Siging cx.self mine his e)
    (hround : Round X mine his e e' z) :
    ∃ m, (agreeKey (X.sig ρ.other his mine (X.ctOf e'))).run cx = .ok () { cx with
      self := { cx.self with ecdh := none, mlkem := m, key := some (X.keyFor ρ z mine his e e') } } := by
  have hml : KEX_LEN ≤ mine.body.length := hround.mineHonest.length ▸ kexLen_ge _
  have hhl : KEX_LEN ≤ his.body.length := hround.hisHonest.length ▸ kexLen_ge _
  have hnonce : 1 + NONCE_LEN ≤ KEX_LEN := by decide
  have hgen : ∀ (m : Option C.MlKemPrivate) (shared hash : Bytes),
      (generateKeyMaterial shared hash).run { cx with self := { cx.self with ecdh := none, mlkem := m } } =
        .ok () { cx with self := { cx.self with ecdh := none, mlkem := m
                                                key := some (cx.self.keyMaterial mine.body his.body shared hash) } } :=
    fun m shared hash => generateKeyMaterial_apply _ shared hash h.mykex h.hiskex (hnonce.trans hml)
      (hnonce.trans hhl)
  have hlabel := hend.label
  have hrole := hend.role
  cases hk : X.kex with
  | x25519 =>
    have hkey : cx.self.keyMaterial mine.body his.body z [] = X.keyFor ρ z mine his e e' := by
      cases ρ <;> simp [Sptps.keyMaterial, PairConfig.keyFor, PairConfig.roundKey, hk, hrole, hlabel,
        Role.isInitiator]
    refine ⟨cx.self.mlkem, ?_⟩
    rw [agreeKey_classical cx _ (hend.kex.trans hk) h.mykex h.hiskex hhl h.ecdh hround.shared, ← hkey]
    exact hgen cx.self.mlkem z []
  | x25519MlKem768 =>
    have hkex := hend.kex.trans hk
    obtain ⟨hctlen, dk, hdk, hdec⟩ := hround.encap' hk
    have hbody : X.sig ρ.other his mine (X.ctOf e') = C.sign (X.keyOf ρ.other)
        (sigTranscript ρ.other.isInitiator his.body mine.body X.sessionLabel) ++ e'.1 := by
      simp only [PairConfig.sig, PairConfig.ctOf, hk]
    refine ⟨none, ?_⟩
    rw [hbody, agreeKey_hybrid cx _ _ hkex h.mykex h.hiskex hml hhl h.ecdh hround.shared
      (C.length_sign _ _) hctlen
      ((h.mlkem hkex).trans hdk) (h.encap hkex), hdec, hrole]
    cases ρ with
    | initiator | responder =>
      refine (hgen none _ _).trans ?_
      simp [Sptps.keyMaterial, PairConfig.keyFor, PairConfig.roundKey, hk, hrole, hlabel, Role.isInitiator]

theorem length_hsRecs (c : Option SptpsCipher) (n : UInt32) (bodies : List Bytes) :
    (hsRecs c n bodies).length = bodies.length := by
  induction bodies generalizing n with
  | nil => rfl
  | cons body rest ih => simp [hsRecs, ih]

theorem hsRecs_append (c : Option SptpsCipher) (n : UInt32) (as bs : List Bytes) :
    hsRecs c n (as ++ bs) = hsRecs c n as ++ hsRecs c (n + UInt32.ofNat as.length) bs := by
  induction as generalizing n with
  | nil => simp [hsRecs]
  | cons a as ih => simp [hsRecs, ih, UInt32.ofNat_add, add_assoc, add_comm]

theorem Sends.switched (h : Sends X ρ cx cx₁ rs) (sigs acks : List Bytes) (k : Bytes) :
    Sends X ρ cx (cx₁.switched sigs acks k) (rs ++ cx₁.self.nextRecs (sigs ++ acks)) := by
  have hsigs : Sends X ρ cx (cx₁.emitAll sigs).dropKex (rs ++ cx₁.self.nextRecs sigs) :=
    (h.emitAll sigs).quiet rfl rfl rfl rfl rfl rfl
  have hacks := hsigs.emitAll acks
  have hnext : (cx₁.emitAll sigs).dropKex.self.nextRecs acks =
      hsRecs cx₁.self.outcipher (cx₁.self.outseqno.toUInt32 + UInt32.ofNat sigs.length) acks := by
    simp [Sptps.nextRecs, Cx.dropKex]
  rw [hnext, List.append_assoc, Sptps.nextRecs, ← hsRecs_append] at hacks
  refine hacks.quiet rfl rfl ?_ ?_ rfl rfl <;>
    simp [Cx.switched, Cx.setOut, sealedRecs, openedRecs, Event.sealedRec, Event.openedRec]

/-- The cipher that `receive_ack` installs is the one the peer sends with. -/
theorem IsEnd.inCipher {s : Sptps C} (h : IsEnd X ρ s) (k : Bytes) :
    (⟨s.aead, keyHalf k s.role.isInitiator false⟩ : SptpsCipher) = X.cipherFrom ρ.other k := by
  rw [h.aead, h.role, PairConfig.cipherFrom_other]

/-- The tail of `receive_sig` in a session that has everything it needs. -/
theorem switchOut_honest {k : Bytes} (h : Sends X ρ cx cx₁ rs) (hm : cx₁.self.mykex = some mine.body)
    (hh : cx₁.self.hiskex = some his.body) (hX : X.Encap his e)
    (he : cx₁.self.kex = .x25519MlKem768 → cx₁.self.mlkemEncap = some e) (hk : cx₁.self.key = some k) :
    switchOut.run cx₁ = .ok cx₁.self.outcipher.isSome
      (cx₁.switched (if ρ.isInitiator then [] else [X.sig ρ mine his (X.ctOf e)])
        (if cx₁.self.outcipher.isSome then [[]] else []) k) := by
  have hsig : (onlyIf (!cx₁.self.role.isInitiator) sendSig).run cx₁ =
      .ok () (cx₁.emitAll (if ρ.isInitiator then [] else [X.sig ρ mine his (X.ctOf e)])) := by
    rw [h.isEnd.role]
    cases ρ with
    | initiator => rfl
    | responder => exact h.sendSig hm hh hX he
  have hack : ∀ (c : Bool) (cx' : Cx C),
      (onlyIf c sendAck).run cx' = .ok () (cx'.emitAll (if c then [[]] else [])) := by
    intro c cx'
    cases c with
    | false => rfl
    | true => exact sendAck_apply cx'
  refine (run_bind_ok (self_apply cx₁)).trans ?_
  refine (run_bind_ok hsig).trans ?_
  refine (run_bind_ok (update_apply _ _)).trans ?_
  refine (run_bind_ok (hack _ _)).trans ?_
  refine (run_bind_ok (self_apply _)).trans ?_
  exact (run_bind_ok (getOrElse_of_eq _ (by simpa using hk))).trans rfl

/-- A good SIG: the session derives the round's key, signs if it has not yet, acknowledges in a rekey
and switches its `outcipher`. -/
theorem receiveSig_honest (hC : C.Correct) (hend : IsEnd X ρ cx.self) (h : Siging cx.self mine his e)
    (hround : Round X mine his e e' z) :
    ∃ cx₁, (receiveSig (X.sig ρ.other his mine (X.ctOf e'))).run cx = .ok cx.self.outcipher.isSome cx₁ ∧
      cx₁.self.mykex = none ∧ cx₁.self.hiskex = none ∧ cx₁.self.incipher = cx.self.incipher ∧
      cx₁.self.key = some (X.keyFor ρ z mine his e e') ∧
      cx₁.self.outcipher = some (X.cipherFrom ρ (X.keyFor ρ z mine his e e')) ∧
      Sends X ρ cx cx₁ (cx.self.nextRecs ((if ρ.isInitiator then [] else [X.sig ρ mine his (X.ctOf e)]) ++
        if cx.self.outcipher.isSome then [[]] else [])) := by
  obtain ⟨msg, hverify⟩ := verifySig_honest hC hend h hround.encap'
  let cx₀ : Cx C := { cx with log := cx.log ++ [.verified msg] }
  have h₀ : Siging cx₀.self mine his e := h
  obtain ⟨m, hagree⟩ := agreeKey_honest (show IsEnd X ρ cx₀.self from hend) h₀ hround
  let cx₁ := cx.agreed msg m (some (X.keyFor ρ z mine his e e'))
  have hquiet : Sends X ρ cx cx₁ [] := by
    refine (Sends.refl hend).quiet rfl rfl ?_ ?_ rfl rfl <;>
      simp [cx₁, Cx.agreed, sealedRecs, openedRecs, Event.sealedRec, Event.openedRec]
  have hswitch := switchOut_honest hquiet h.mykex h.hiskex hround.encap h.encap rfl
  refine ⟨_, (run_bind_ok hverify).trans ((run_bind_ok hagree).trans hswitch), ?_, ?_, ?_, ?_, ?_,
    hquiet.switched _ _ _⟩
  · simp [Cx.switched, Cx.setOut, Cx.dropKex]
  · simp [Cx.switched, Cx.setOut, Cx.dropKex]
  · simp [Cx.switched, Cx.setOut, Cx.dropKex, cx₁, Cx.agreed]
  · simp [Cx.switched, Cx.setOut, Cx.dropKex, cx₁, Cx.agreed]
  · simp [Cx.switched, Cx.setOut, Cx.dropKex, cx₁, Cx.agreed, Sptps.outCipherOf, PairConfig.cipherFrom,
      hend.role, hend.aead]

theorem kexing_kex (hC : C.Correct) (hend : IsEnd X ρ cx.self) (h : Kexing cx.self mine)
    (hhis : X.Honest his) : ∃ e cx₁, (receiveHandshake his.body).run cx = .ok () cx₁ ∧ X.Encap his e ∧
      Siging cx₁.self mine his e ∧ cx₁.self.incipher = cx.self.incipher ∧
      cx₁.self.outcipher = cx.self.outcipher ∧
      Sends X ρ cx cx₁ (cx.self.nextRecs (if ρ.isInitiator then [X.sig ρ mine his (X.ctOf e)] else [])) := by
  obtain ⟨e, cx₁, hrun, hX, hsig, hin, hout, hsends⟩ :=
    receiveKex_honest hC (Sends.refl hend) h.toHasKex h.hiskex hhis
  refine ⟨e, cx₁.setState .sig, ?_, hX, hsig, hin, hout, hsends.quiet rfl rfl rfl rfl rfl rfl⟩
  refine (run_bind_ok (self_apply cx)).trans ?_
  rw [h.state]
  exact (run_bind_ok hrun).trans rfl

/-- A KEX out of the blue: the session sends its own first. -/
theorem idle_kex (hC : C.Correct) (hend : IsEnd X ρ cx.self) (h : Idle cx.self) (hhis : X.Honest his) :
    ∃ mine e cx₁, (receiveHandshake his.body).run cx = .ok () cx₁ ∧ X.Honest mine ∧ X.Encap his e ∧
      Siging cx₁.self mine his e ∧ cx₁.self.incipher = cx.self.incipher ∧
      cx₁.self.outcipher = cx.self.outcipher ∧ Sends X ρ cx cx₁ (cx.self.nextRecs
        (mine.body :: if ρ.isInitiator then [X.sig ρ mine his (X.ctOf e)] else [])) := by
  obtain ⟨mine, hmine, hhas, hnone, hkex⟩ := (Sends.refl hend).kexSent h.hiskex
  obtain ⟨e, cx₁, hrun, hX, hsig, hin, hout, hsends⟩ := receiveKex_honest hC hkex hhas hnone hhis
  have hok : ¬ cx.self.kexBodyOk his.body = false := by
    rw [Bool.not_eq_false, kexBodyOk_iff]
    exact ⟨⟨by rw [hend.kex, hhis.length], hhis.head⟩, h.hiskex⟩
  have hrecs : ∀ rest, [] ++ cx.self.nextRecs [mine.body] ++ cx.kexSent.self.nextRecs rest =
      cx.self.nextRecs (mine.body :: rest) := by
    intro rest
    simp [Sptps.nextRecs, hsRecs, Cx.kexSent, Cx.emit]
  rw [hrecs] at hsends
  refine ⟨mine, e, cx₁.setState .sig, ?_, hmine, hX, hsig, hin, hout, hsends.quiet rfl rfl rfl rfl rfl rfl⟩
  refine (run_bind_ok (self_apply cx)).trans ?_
  rw [h.state]
  simp only [if_neg hok]
  exact (run_bind_ok (sendKex_apply cx h.mykex)).trans ((run_bind_ok hrun).trans rfl)

/-- A SIG in a rekey: what the session still has to say goes out under the old key. -/
theorem siging_rekey (hC : C.Correct) (hend : IsEnd X ρ cx.self) (h : Siging cx.self mine his e)
    (hround : Round X mine his e e' z)
    (hold : cx.self.outcipher.isSome) :
    let k := X.keyFor ρ z mine his e e'
    ∃ cx₁, (receiveHandshake (X.sig ρ.other his mine (X.ctOf e'))).run cx = .ok () cx₁ ∧
      Awaiting cx₁.self (X.cipherFrom ρ.other k) ∧ cx₁.self.state = .ack ∧
      cx₁.self.incipher = cx.self.incipher ∧ cx₁.self.outcipher = some (X.cipherFrom ρ k) ∧
      Sends X ρ cx cx₁ (cx.self.nextRecs
        ((if ρ.isInitiator then [] else [X.sig ρ mine his (X.ctOf e)]) ++ [[]])) := by
  obtain ⟨cx₁, hrun, hm, hh, hin, hkey, hout, hsends⟩ := receiveSig_honest hC hend h hround
  rw [if_pos hold] at hsends
  refine ⟨cx₁.setState .ack, ?_, ⟨hm, hh, .inl ⟨rfl, _, hkey, ?_⟩⟩, rfl, hin, hout,
    hsends.quiet rfl rfl rfl rfl rfl rfl⟩
  · refine (run_bind_ok (self_apply cx)).trans ?_
    rw [h.state]
    refine (run_bind_ok hrun).trans ?_
    rw [if_pos hold]
    rfl
  · exact (hsends.isEnd.inCipher _).symm

theorem Sends.setIn (h : Sends X ρ cx cx₁ rs) (k : Bytes) : Sends X ρ cx (cx₁.setIn k) rs :=
  h.quiet rfl rfl rfl rfl rfl rfl

theorem Sends.finish (h : Sends X ρ cx cx₁ rs) : Sends X ρ cx cx₁.finish rs := by
  refine h.quiet rfl rfl ?_ ?_ ?_ ?_ <;>
    simp [Cx.finish, sealedRecs, openedRecs, Event.sealedRec, Event.openedRec, Sptps.wires, Sptps.records]

/-- The first SIG in classical mode: both ciphers at once, and the handshake is done. -/
theorem siging_first (hC : C.Correct) (hend : IsEnd X ρ cx.self) (h : Siging cx.self mine his e)
    (hround : Round X mine his e e' z)
    (hold : cx.self.outcipher = none) (hkex : X.kex = .x25519) :
    let k := X.keyFor ρ z mine his e e'
    ∃ cx₁, (receiveHandshake (X.sig ρ.other his mine (X.ctOf e'))).run cx = .ok () cx₁ ∧ Idle cx₁.self ∧
      cx₁.self.incipher = some (X.cipherFrom ρ.other k) ∧
      cx₁.self.outcipher = some (X.cipherFrom ρ k) ∧
      Sends X ρ cx cx₁ (cx.self.nextRecs
        (if ρ.isInitiator then [] else [X.sig ρ mine his (X.ctOf e)])) := by
  obtain ⟨cx₁, hrun, hm, hh, hin, hkey, hout, hsends⟩ := receiveSig_honest hC hend h hround
  simp only [hold, Option.isSome_none, Bool.false_eq_true, if_false, List.append_nil] at hsends hrun
  refine ⟨(cx₁.setIn (X.keyFor ρ z mine his e e')).finish, ?_, ⟨rfl, hm, hh⟩, ?_, hout,
    (hsends.setIn _).finish⟩
  · refine (run_bind_ok (self_apply cx)).trans ?_
    rw [h.state, hend.kex, hkex]
    exact (run_bind_ok hrun).trans ((run_bind_ok (receiveAck_nil hkey)).trans rfl)
  · exact congrArg some (hsends.isEnd.inCipher _)

/-- The first SIG in hybrid mode: both ciphers, and an ACK under the new key to confirm it. -/
theorem siging_confirm (hC : C.Correct) (hend : IsEnd X ρ cx.self) (h : Siging cx.self mine his e)
    (hround : Round X mine his e e' z)
    (hold : cx.self.outcipher = none) (hkex : X.kex = .x25519MlKem768) :
    let k := X.keyFor ρ z mine his e e'
    let sigs := if ρ.isInitiator then [] else [X.sig ρ mine his (X.ctOf e)]
    ∃ cx₁, (receiveHandshake (X.sig ρ.other his mine (X.ctOf e'))).run cx = .ok () cx₁ ∧
      Awaiting cx₁.self (X.cipherFrom ρ.other k) ∧ cx₁.self.state = .confirm ∧
      cx₁.self.incipher = some (X.cipherFrom ρ.other k) ∧ cx₁.self.outcipher = some (X.cipherFrom ρ k) ∧
      Sends X ρ cx cx₁ (cx.self.nextRecs sigs ++ [⟨some (X.cipherFrom ρ k),
        cx.self.outseqno.toUInt32 + UInt32.ofNat sigs.length, REC_HANDSHAKE, []⟩]) := by
  intro k sigs
  obtain ⟨cx₁, hrun, hm, hh, hin, hkey, hout, hsends⟩ := receiveSig_honest hC hend h hround
  simp only [hold, Option.isSome_none, Bool.false_eq_true, if_false, List.append_nil] at hsends hrun
  have hcipher : (cx₁.setIn k).self.incipher = some (X.cipherFrom ρ.other k) :=
    congrArg some (hsends.isEnd.inCipher k)
  have hack := (hsends.setIn k).emit REC_HANDSHAKE []
  refine ⟨((cx₁.setIn k).emit REC_HANDSHAKE []).setState .confirm, ?_, ⟨hm, hh, .inr ⟨rfl, hcipher⟩⟩, rfl,
    hcipher, hout, ?_⟩
  · refine (run_bind_ok (self_apply cx)).trans ?_
    rw [h.state, hend.kex, hkex]
    exact (run_bind_ok hrun).trans ((run_bind_ok (receiveAck_nil hkey)).trans
      ((run_bind_ok (sendAck_apply _)).trans rfl))
  · have hn : (cx₁.setIn k).self.outseqno.toUInt32 =
        cx.self.outseqno.toUInt32 + UInt32.ofNat sigs.length := by
      rw [← length_hsRecs cx.self.outcipher cx.self.outseqno.toUInt32 sigs]
      exact hsends.outseqno
    have ho : (cx₁.setIn k).self.outcipher = some (X.cipherFrom ρ k) := hout
    rw [hn, ho] at hack
    exact hack.quiet rfl rfl rfl rfl rfl rfl

theorem awaiting_ack {c : SptpsCipher} (hend : IsEnd X ρ cx.self) (h : Awaiting cx.self c) :
    ∃ cx₁, (receiveHandshake []).run cx = .ok () cx₁ ∧ Idle cx₁.self ∧ cx₁.self.incipher = some c ∧
      cx₁.self.outcipher = cx.self.outcipher ∧ Sends X ρ cx cx₁ [] := by
  obtain ⟨hst, k, hkey, rfl⟩ | ⟨hst, hin⟩ := h.phase
  · refine ⟨(cx.setIn k).finish, ?_, ⟨rfl, h.mykex, h.hiskex⟩, rfl, rfl, ((Sends.refl hend).setIn k).finish⟩
    refine (run_bind_ok (self_apply cx)).trans ?_
    rw [hst]
    exact (run_bind_ok (receiveAck_nil hkey)).trans rfl
  · refine ⟨cx.finish, ?_, ⟨rfl, h.mykex, h.hiskex⟩, hin, rfl, (Sends.refl hend).finish⟩
    refine (run_bind_ok (self_apply cx)).trans ?_
    rw [hst]
    rfl

/-- `force_kex` in a session that is ready for a KEX. -/
theorem idle_force (hend : IsEnd X ρ cx.self) (h : Idle cx.self) (hout : cx.self.outcipher.isSome) :
    ∃ mine cx₁, forceKex.run cx = .ok () cx₁ ∧ X.Honest mine ∧ Kexing cx₁.self mine ∧
      cx₁.self.incipher = cx.self.incipher ∧ cx₁.self.outcipher = cx.self.outcipher ∧
      Sends X ρ cx.clearOut cx₁ (cx.self.nextRecs [mine.body]) := by
  have hquiet : Sends X ρ cx.clearOut (cx.setState .kex).clearOut [] :=
    Sends.quiet (Sends.refl (show IsEnd X ρ cx.clearOut.self from hend)) rfl rfl rfl rfl rfl rfl
  obtain ⟨mine, hmine, hhas, hnone, hkex⟩ := hquiet.kexSent h.hiskex
  refine ⟨mine, _, ?_, hmine, ⟨hhas, rfl, hnone⟩, rfl, rfl, hkex⟩
  have hready : ¬ (cx.self.outcipher.isNone = true ∨ cx.self.state ≠ .secondaryKex) := by
    simp [h.state, Option.isSome_iff_ne_none.mp hout]
  refine (run_bind_ok (self_apply cx)).trans ?_
  rw [if_neg hready]
  exact (run_bind_ok (update_apply _ _)).trans ((run_bind_ok (freshOut_apply _)).trans
    (sendKex_apply (cx.setState .kex).clearOut h.mykex))

end Steps

end Tincr.Sptps
