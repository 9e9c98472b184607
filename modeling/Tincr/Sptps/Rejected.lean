import Tincr.Sptps.NoPanic

/-!
What a KEX that is refused leaves behind. A session that waits for one checks its length and version
before anything else, so most refusals change nothing; in hybrid mode the body is stored before the
peer's encapsulation key is tried, and a key that is refused then stays.
-/

set_option linter.dupNamespace false

namespace Tincr.Sptps

open EStateM M

variable {C : Crypto}

/-- The fields of a handshake in progress. -/
def Sptps.handshakeFields (s : Sptps C) :=
  (s.state, s.mykex, s.hiskex, s.ecdh, s.mlkem, s.mlkemEncap, s.key)

/-- The random source the encapsulation draws from: in `secondaryKex` behind the session's own KEX. -/
def Sptps.encapRng (s : Sptps C) (rng : C.Rng) : C.Rng :=
  if s.state = .secondaryKex then (drawKex s.kex rng).2 else rng

/-- The encapsulation key of a KEX body is accepted; there is none in classical mode. -/
def Sptps.encapsulates (s : Sptps C) (rng : C.Rng) (body : Bytes) : Bool :=
  match s.kex with
  | .x25519 => true
  | .x25519MlKem768 => (C.encapsulate (body.drop KEX_LEN) (s.encapRng rng)).1.isSome

/-- Length and version of a KEX body. -/
def Sptps.kexShaped (s : Sptps C) (body : Bytes) : Prop :=
  body.length = kexLen s.kex ∧ body.head? = some VERSION

/-- The session waits for a KEX of its peer, its own being out unless the session is idle. -/
structure Waiting (s : Sptps C) : Prop where
  hiskex : s.hiskex = none
  own : s.state = .kex ∧ s.mykex.isSome ∨ s.state = .secondaryKex ∧ s.mykex = none ∧ s.outcipher.isSome

/-- Once a handshake is done there is a key to send under. -/
def Keyed (s : Sptps C) : Prop := s.state ≠ .kex → s.state ≠ .sig → s.outcipher.isSome

section Keyed

variable {cfg : Config C} {cx cx' : Cx C}

theorem Handled.keyed {body : Bytes} (hh : Handled cx body cx') (h : Keyed cx.self) : Keyed cx'.self := by
  cases hh with
  | rejected _ => exact h
  | kexRefused hopen _ =>
    cases hopen with
    | kex hst => exact h
    | secondary hst hm => exact h
  | kexTaken sigs hopen _ _ _ => exact fun _ hsig => absurd rfl hsig
  | sigRefused hst _ _ => exact h
  | sigRekey hsig _ | sigFirst hsig _ _ | sigFirstHybrid hsig _ _ =>
    obtain ⟨sigs, acks, -, -, -, -, -, -⟩ := hsig
    exact fun _ _ => rfl
  | acked hst _ | confirmed hst => exact fun _ _ => h (by simp [hst]) (by simp [hst])

theorem keyed_received (h : Keyed cx.self) (hr : Received cx cx') : Keyed cx'.self := by
  cases hr with
  | framing => exact h
  | opened hd =>
    cases hd with
    | refused _ => exact h
    | record _ _ _ => exact h
    | handshake _ hh => exact hh.keyed h

theorem keyed_called (h : Keyed cx.self) (hc : Called cx cx') : Keyed cx'.self := by
  cases hc with
  | received hr => exact @keyed_received _ cx.clearOut _ h hr
  | refused => exact h
  | reserved n => exact h
  | sent _ _ => exact h
  | sealed n _ _ => exact h
  | opened w _ _ _ => exact h
  | windowed w => exact h
  | forced _ _ _ | forceBusy _ _ => exact fun hst _ => absurd rfl hst

theorem keyed_run (h : Run cfg cx) : Keyed cx.self :=
  h.invariant (fun _ hst _ => absurd rfl hst) (fun _ _ hk => hk) fun _ _ => keyed_called

/-- A session that has no KEX of its peer and is in one of the two states that take one. -/
theorem waiting_of_run (h : Run cfg cx) (hst : cx.self.state = .kex ∨ cx.self.state = .secondaryKex)
    (hh : cx.self.hiskex = none) : Waiting cx.self := by
  refine ⟨hh, ?_⟩
  cases (auth_run h).phase with
  | kex hst' hm _ _ _ _ => exact .inl ⟨hst', by simp [hm]⟩
  | idle hst' hm _ _ _ _ => exact .inr ⟨hst', hm, keyed_run h (by simp [hst']) (by simp [hst'])⟩
  | sig hst' _ _ _ _ _ => simp [hst'] at hst
  | stuck _ _ hh' => simp [hh] at hh'
  | checked _ _ hst' _ _ _ _ _ =>
    rcases hst' with hst' | hst' <;> simp [hst'] at hst

end Keyed

section Equations

variable {cx : Cx C} {body : Bytes}

theorem kexBodyOk_of_waiting (h : Waiting cx.self) : cx.self.kexBodyOk body = true ↔ cx.self.kexShaped body := by
  rw [kexBodyOk_iff, Sptps.kexShaped]
  exact and_iff_left h.hiskex

theorem receiveHandshake_misshapen (h : Waiting cx.self) (hb : ¬ cx.self.kexShaped body) :
    (receiveHandshake body).run cx = .error (.err .badKex) cx := by
  have hbad : cx.self.kexBodyOk body = false := by
    rw [← Bool.not_eq_true, kexBodyOk_of_waiting h]
    exact hb
  rcases h.own with ⟨hst, -⟩ | ⟨hst, -⟩
  · simp only [receiveHandshake, run_bind, self_apply, hst, receiveKex_bad cx hbad]
  · simp only [receiveHandshake, run_bind, self_apply, hst, hbad, if_true, fail_apply]

/-- The session with its own KEX out. -/
def Cx.ownKexSent (cx : Cx C) : Cx C := if cx.self.state = .secondaryKex then cx.kexSent else cx

theorem receiveHandshake_shaped (h : Waiting cx.self) (hb : cx.self.kexShaped body) :
    (receiveHandshake body).run cx =
      (receiveKex body >>= fun _ => update fun s => { s with state := .sig }).run cx.ownKexSent := by
  have hok : cx.self.kexBodyOk body = true := (kexBodyOk_of_waiting h).2 hb
  rcases h.own with ⟨hst, -⟩ | ⟨hst, hm, -⟩
  · simp only [receiveHandshake, run_bind, self_apply, Cx.ownKexSent, hst, reduceCtorEq, if_false]
  · simp only [receiveHandshake, run_bind, self_apply, Cx.ownKexSent, hst, hok, Bool.true_eq_false, if_false,
      if_true, sendKex_apply cx hm]

/-- What the session has once its own KEX is out: everything `receive_kex` asks for. -/
theorem ownKexSent_self (h : Waiting cx.self) :
    cx.ownKexSent.self.kexBodyOk body = cx.self.kexBodyOk body ∧ cx.ownKexSent.self.kex = cx.self.kex ∧
      cx.ownKexSent.self.mykex.isSome ∧ cx.ownKexSent.rng = cx.self.encapRng cx.rng := by
  rcases h.own with ⟨hst, hm⟩ | ⟨hst, -⟩
  · simp [Cx.ownKexSent, Sptps.encapRng, hst, hm]
  · simp only [Cx.ownKexSent, Sptps.encapRng, hst, if_true]
    exact ⟨rfl, rfl, rfl, rfl⟩

/-- A body that is shaped like a KEX is taken if its encapsulation key is. -/
theorem receiveHandshake_accepted (h : Waiting cx.self) (hb : cx.self.kexShaped body)
    (he : cx.self.encapsulates cx.rng body = true) :
    ∃ cx', (receiveHandshake body).run cx = .ok () cx' ∧ cx'.self.hiskex = some body ∧ cx'.self.state = .sig := by
  obtain ⟨hsame, hkex, hm, hrng⟩ := @ownKexSent_self _ _ body h
  have hok := hsame.trans ((kexBodyOk_of_waiting h).2 hb)
  rw [receiveHandshake_shaped h hb]
  generalize cx.ownKexSent = cx₁ at hkex hm hrng hok ⊢
  obtain ⟨mk, hm⟩ := Option.isSome_iff_exists.1 hm
  obtain ⟨e, r, henc, hrun⟩ : ∃ e r, Encapsulated cx₁.self.kex e ∧ (receiveKex body).run cx₁ =
      (onlyIf cx₁.self.role.isInitiator sendSig).run (cx₁.kexStored body e r) := by
    cases hk : cx₁.self.kex with
    | x25519 => exact ⟨_, _, nofun, receiveKex_classical cx₁ hok hk⟩
    | x25519MlKem768 =>
      rw [receiveKex_hybrid cx₁ hok hk, hrng]
      simp only [Sptps.encapsulates, ← hkex, hk] at he
      rcases hcap : C.encapsulate (body.drop KEX_LEN) (cx.self.encapRng cx.rng) with ⟨_ | ⟨ct, ss⟩, r⟩
      · simp [hcap] at he
      · exact ⟨_, r, fun _ => ⟨ct, ss, rfl, C.length_encapsulate _ _ ct ss (by rw [hcap])⟩, rfl⟩
  have hsig : NoPanic (onlyIf cx₁.self.role.isInitiator sendSig) (cx₁.kexStored body e r) :=
    noPanic_onlyIf.2 fun _ => sendSig_noPanic _ hm rfl henc
  have hends : Ends (onlyIf cx₁.self.role.isInitiator sendSig) (cx₁.kexStored body e r)
      (fun _ cx' => cx'.self.hiskex = some body) fun _ => False :=
    ends_onlyIf.2 ⟨fun _ => sendSig_ends _ fun _ => rfl, fun _ => rfl⟩
  obtain ⟨⟨⟩, cx₂, hrun₂, hhis⟩ := hsig.returns hends
  rw [run_bind, hrun, hrun₂]
  exact ⟨_, rfl, hhis, rfl⟩

/-- An encapsulation key that is refused: the KEX stays stored, and the session in its state. -/
theorem receiveHandshake_malformed (h : Waiting cx.self) (hb : cx.self.kexShaped body)
    (he : cx.self.encapsulates cx.rng body = false) :
    ∃ cx', (receiveHandshake body).run cx = .error (.err .badKex) cx' ∧ cx'.self.hiskex = some body := by
  obtain ⟨hsame, hkex, hm, hrng⟩ := @ownKexSent_self _ _ body h
  have hok := hsame.trans ((kexBodyOk_of_waiting h).2 hb)
  rw [receiveHandshake_shaped h hb, run_bind]
  generalize cx.ownKexSent = cx₁ at hkex hm hrng hok ⊢
  unfold Sptps.encapsulates at he
  rw [← hkex] at he
  cases hk : cx₁.self.kex with
  | x25519 => simp [hk] at he
  | x25519MlKem768 =>
    rw [receiveKex_hybrid cx₁ hok hk, hrng]
    rcases hcap : C.encapsulate (body.drop KEX_LEN) (cx.self.encapRng cx.rng) with ⟨_ | pair, r⟩
    · exact ⟨_, rfl, rfl⟩
    · simp [hk, hcap] at he

end Equations

/-- The session goes on as if the refused record had not come. -/
structure Unwedged (cx cx' : Cx C) : Prop where
  fields : cx'.self.handshakeFields = cx.self.handshakeFields
  accepts : ∀ rng body, cx'.self.kexShaped body → cx'.self.encapsulates rng body = true →
    ∃ cx'', (receiveHandshake body).run (cx'.withRng rng) = .ok () cx'' ∧ cx''.self.hiskex = some body ∧
      cx''.self.state = .sig
  forces : cx.self.state = .secondaryKex → ∀ rng, ∃ cx'', forceKex.run (cx'.withRng rng) = .ok () cx''

theorem Waiting.unwedged {cx : Cx C} (h : Waiting cx.self) (rng : C.Rng) : Unwedged cx (cx.withRng rng) where
  fields := rfl
  accepts rng' _ hb he := @receiveHandshake_accepted _ (cx.withRng rng') _ h hb he
  forces hst rng' := by
    rcases h.own with ⟨hkex, -⟩ | ⟨-, hm, hout⟩
    · simp [hst] at hkex
    · have hbusy : ¬ (cx.self.outcipher.isNone ∨ cx.self.state ≠ .secondaryKex) := by
        simp [hst, Option.isSome_iff_ne_none.1 hout]
      refine ⟨((cx.withRng rng').setState .kex).clearOut.kexSent, ?_⟩
      simp only [forceKex, run_bind, self_apply, Cx.withRng, if_neg hbusy, update_apply, freshOut_apply]
      exact sendKex_apply _ hm

/-- A refused KEX leaves no trace unless its encapsulation key was malformed. -/
theorem rejected_unwedged_iff {cfg : Config C} {cx cx' : Cx C} (hrun : Run cfg cx)
    (hst : cx.self.state = .kex ∨ cx.self.state = .secondaryKex) (hh : cx.self.hiskex = none) (rng : C.Rng)
    (body : Bytes) (e : SptpsError) (hrej : (receiveHandshake body).run (cx.withRng rng) = .error (.err e) cx') :
    Unwedged cx cx' ↔ ¬ (cx.self.kexShaped body ∧ cx.self.encapsulates rng body = false) := by
  have hwait := waiting_of_run hrun hst hh
  have hwait' : Waiting (cx.withRng rng).self := hwait
  by_cases hb : cx.self.kexShaped body
  · cases he : cx.self.encapsulates rng body with
    | true =>
      obtain ⟨cx₂, hok, -⟩ := receiveHandshake_accepted hwait' hb he
      cases hrej.symm.trans hok
    | false =>
      obtain ⟨cx₂, hbad, hstored⟩ := receiveHandshake_malformed hwait' hb he
      cases hrej.symm.trans hbad
      refine iff_of_false (fun hun => ?_) (by simp [hb])
      have hsame : cx'.self.hiskex = cx.self.hiskex := congrArg (fun f => f.2.2.1) hun.fields
      simp [hstored, hh] at hsame
  · cases hrej.symm.trans (receiveHandshake_misshapen hwait' hb)
    exact iff_of_true (hwait.unwedged rng) fun hmal => hb hmal.1

/-- The null cryptography with a check of the encapsulation key: it must not start with `255`. -/
def Crypto.picky : Crypto :=
  { Crypto.null with
    encapsulate := fun ek r => if ek.head? = some 255 then (none, r) else Crypto.null.encapsulate ek r
    length_encapsulate := fun ek r ct ss h => by
      split_ifs at h
      exact Crypto.null.length_encapsulate ek r ct ss h }

def pickyConfig : Config Crypto.picky :=
  ⟨.initiator, .datagram, .x25519MlKem768, (), [], [], .chaCha20Poly1305, 16⟩

def pickyStart : Cx Crypto.picky := Cx.kexSent ⟨.fresh pickyConfig, (), [], []⟩

theorem pickyStart_run : Run pickyConfig pickyStart := .start (startWith_apply _ ())

theorem rejected_unwedged_short : Run pickyConfig pickyStart ∧
    (receiveHandshake [1, 2, 3]).run (pickyStart.withRng ()) = .error (.err .badKex) (pickyStart.withRng ()) ∧
    Unwedged pickyStart (pickyStart.withRng ()) := by
  have hshape : ¬ pickyStart.self.kexShaped [1, 2, 3] := fun h => absurd h.1 (by decide)
  have hrej := receiveHandshake_misshapen (waiting_of_run pickyStart_run (.inl rfl) rfl) hshape
  refine ⟨pickyStart_run, hrej, ?_⟩
  exact (rejected_unwedged_iff pickyStart_run (.inl rfl) rfl () _ _ hrej).2 fun h => hshape h.1

def malformedKex : Bytes := VERSION :: (List.replicate 64 0 ++ 255 :: List.replicate 1183 0)

/-- A KEX of the right length and version with a malformed encapsulation key, in the first state of a
hybrid session. -/
theorem not_unwedged_malformed : ¬ ∀ (C : Crypto) (cfg : Config C) (cx cx' : Cx C) (rng : C.Rng) (body : Bytes)
    (e : SptpsError), Run cfg cx → cx.self.framing = .datagram →
    cx.self.state = .kex ∨ cx.self.state = .secondaryKex → cx.self.hiskex = none →
    (receiveHandshake body).run (cx.withRng rng) = .error (.err e) cx' →
    cx'.self.handshakeFields = cx.self.handshakeFields := by
  have hshape : pickyStart.self.kexShaped malformedKex := ⟨by decide +kernel, by decide +kernel⟩
  have hkey : pickyStart.self.encapsulates () malformedKex = false := by decide +kernel
  intro h
  have hwait : Waiting (pickyStart.withRng ()).self := waiting_of_run pickyStart_run (.inl rfl) rfl
  obtain ⟨cx', hrej, hstored⟩ := receiveHandshake_malformed hwait hshape hkey
  have hsame := h Crypto.picky pickyConfig pickyStart cx' () malformedKex .badKex pickyStart_run rfl (.inl rfl) rfl
    hrej
  have hhis : cx'.self.hiskex = none := congrArg (fun f => f.2.2.1) hsame
  simp [hstored] at hhis

end Tincr.Sptps
