import Tincr.Sptps.Handshake

/-!
Runs of one session. A run starts with `start_with` and makes public calls in any order with any
arguments and any random source, whether they return `Ok` or `Err`; a panic ends it. `Called` lists
what a call can do to the session, and `exec_called` proves the list complete.
-/

set_option linter.dupNamespace false

namespace Tincr.Sptps

open EStateM M

variable {C : Crypto}

/-- The public calls that can change a session or return its secrets. -/
inductive Call
  | receive (data : Bytes)
  | sendRecord (ty : UInt8) (body : Bytes)
  | sealDataInto (ty : UInt8) (body : Bytes) (headroom : ℕ)
  | sealWithSeqno (seqno : UInt32) (ty : UInt8) (body : Bytes) (headroom : ℕ)
  | openDataInto (data out : Bytes) (headroom : ℕ)
  | openWithSeqno (data out : Bytes) (headroom : ℕ)
  | forceKex
  | allocSeqnos (n : UInt32)
  | replayCheck (seqno : UInt32)

/-- `Ok` or `Err`, as the caller of a method that also hands back a buffer sees it. -/
def okOr {α β : Type} (r : Except SptpsError α × β) : M C Unit :=
  match r.1 with
  | .ok _ => pure ()
  | .error e => fail e

def forget {α : Type} (x : M C α) : M C Unit := x >>= fun _ => pure ()

def Call.exec : Call → M C Unit
  | .receive data => forget (Sptps.receive data)
  | .sendRecord ty body => Sptps.sendRecord ty body
  | .sealDataInto ty body headroom => forget (Sptps.sealDataInto ty body headroom)
  | .sealWithSeqno seqno ty body headroom => forget (Sptps.sealWithSeqno seqno ty body headroom)
  | .openDataInto data out headroom => Sptps.openDataInto data out headroom >>= okOr
  | .openWithSeqno data out headroom => Sptps.openWithSeqno data out headroom >>= okOr
  | .forceKex => Sptps.forceKex
  | .allocSeqnos n => forget (Sptps.allocSeqnos n)
  | .replayCheck seqno => do okOr (← Sptps.replayCheck seqno, ())

/-- The calls that carry application data out of or into the session. -/
def Call.carriesData : Call → Bool
  | .sendRecord .. | .sealDataInto .. | .sealWithSeqno .. | .openDataInto .. | .openWithSeqno .. => true
  | _ => false

/-- Each call comes with its own random source. -/
def Cx.withRng (cx : Cx C) (rng : C.Rng) : Cx C := { cx with rng := rng }

inductive Run (cfg : Config C) : Cx C → Prop
  | start {rng cx} (h : startWith cfg rng = .ok () cx) : Run cfg cx
  | ok {cx cx'} (hrun : Run cfg cx) (c : Call) (rng : C.Rng)
      (h : c.exec.run (cx.withRng rng) = .ok () cx') : Run cfg cx'
  | err {cx cx' e} (hrun : Run cfg cx) (c : Call) (rng : C.Rng)
      (h : c.exec.run (cx.withRng rng) = .error (.err e) cx') : Run cfg cx'

/-- The first `send_kex` cannot fail: the session has no KEX of its own yet. -/
theorem startWith_apply (cfg : Config C) (rng : C.Rng) :
    startWith cfg rng = .ok () (Cx.kexSent ⟨.fresh cfg, rng, [], []⟩) := by
  have hrun : sendKex ⟨.fresh cfg, rng, [], []⟩ = .ok () (Cx.kexSent ⟨.fresh cfg, rng, [], []⟩) :=
    sendKex_apply _ rfl
  rw [startWith, hrun]

/-- Numbers taken off the shared counter. -/
def Cx.bump (cx : Cx C) (n : UInt64) : Cx C :=
  { cx with self := { cx.self with outseqno := cx.self.outseqno + n } }

/-- A record sealed for the caller's own buffer. -/
def Cx.sealing (cx : Cx C) (seqno : UInt32) (ty : UInt8) (body : Bytes) : Cx C :=
  { cx with log := cx.log ++ [.sealed cx.self.outcipher seqno ty body] }

def Cx.setReplay (cx : Cx C) (w : ReplayWindow) : Cx C := { cx with self := { cx.self with replay := w } }

/-- Everything a call can do to a session that does not panic on it. -/
inductive Called (cx : Cx C) : Cx C → Prop
  | received {cx'} (h : Received cx.clearOut cx') : Called cx cx'
  | refused : Called cx cx
  | reserved (n : UInt64) : Called cx (cx.bump n)
  | sent {ty body} (hty : ty < REC_HANDSHAKE) (hready : cx.self.appSendReady = true) :
      Called cx (cx.clearOut.emit ty body)
  | sealed {seqno ty body} (n : UInt64) (hty : ty < REC_HANDSHAKE)
      (hready : cx.self.appSendReady = true) : Called cx ((cx.bump n).sealing seqno ty body)
  | opened {seqno ty body} (w : ReplayWindow) (hty : ty < REC_HANDSHAKE)
      (hin : cx.self.incipher.isSome) (hst : cx.self.state ≠ .confirm) :
      Called cx ((cx.opening seqno ty body).setReplay w)
  | windowed (w : ReplayWindow) : Called cx (cx.setReplay w)
  | forced (hst : cx.self.state = .secondaryKex) (hout : cx.self.outcipher.isSome)
      (hm : cx.self.mykex = none) : Called cx (cx.setState .kex).clearOut.kexSent
  | forceBusy (hst : cx.self.state = .secondaryKex) (hm : cx.self.mykex.isSome) :
      Called cx (cx.setState .kex).clearOut

variable {P R : Cx C → Prop} {cx : Cx C}

theorem forget_ends {α : Type} {x : M C α} (h : Ends x cx (fun _ => P) P) : Ends (forget x) cx (fun _ => P) P :=
  ends_bind.mpr h

theorem okOr_ends {α β : Type} {x : M C (Except SptpsError α × β)} (h : Ends x cx (fun _ => P) P) :
    Ends (x >>= okOr) cx (fun _ => P) P := by
  refine ends_bind.mpr (h.mono (fun r cx' hP => ?_) fun _ hP => hP)
  unfold okOr
  split <;> exact hP

theorem appSendReady_iff (s : Sptps C) :
    s.appSendReady = true ↔ s.outcipher.isSome ∧ s.state ≠ .confirm := by
  simp [Sptps.appSendReady]

theorem sendRecord_called (cx : Cx C) (ty : UInt8) (body : Bytes) :
    Ends (sendRecord ty body) cx (fun _ => Called cx) (Called cx) := by
  simp only [sendRecord, ends_bind, ends_self, ends_ite, ends_fail, ends_freshOut]
  refine ⟨fun _ => .refused, fun h => ⟨fun _ => .refused, fun _ => sendRecordPriv_ends _ _ _ ?_⟩⟩
  simp only [not_or, Bool.not_eq_false, UInt8.not_le] at h
  exact .sent h.2.1 h.1

theorem sealWithSeqno_ends (cx : Cx C) (seqno : UInt32) (ty : UInt8) (body : Bytes) (headroom : ℕ)
    {Q : Bytes → Cx C → Prop} (hbad : R cx)
    (hok : ∀ out, ty < REC_HANDSHAKE → cx.self.appSendReady = true → Q out (cx.sealing seqno ty body)) :
    Ends (sealWithSeqno seqno ty body headroom) cx Q R := by
  simp only [sealWithSeqno, ends_bind, ends_self, ends_ite, ends_fail, ends_okOr, ends_note, ends_pure]
  refine ⟨fun _ => hbad, fun h => ⟨fun c hc => ?_, fun _ => hbad⟩⟩
  simp only [not_or, UInt8.not_le] at h
  simpa only [Cx.sealing, hc] using hok _ h.2.1 ((appSendReady_iff _).mpr ⟨by simp [hc], h.2.2⟩)

/-- A reservation moves the counter and returns the number it had, unless the count is at the limit. -/
theorem fetchSeqnos_apply (cx : Cx C) (keyBase : UInt64) (n : UInt32) :
    (fetchSeqnos keyBase n).run cx = .ok
      (if SEAL_KEY_LIMIT ≤ (cx.self.outseqno - keyBase).toNat then none
        else some cx.self.outseqno.toUInt32) (cx.bump n.toUInt64) := by
  simp only [fetchSeqnos, run_bind, self_apply, update_apply]
  split <;> rfl

theorem allocSeqnos_apply (cx : Cx C) (n : UInt32) :
    (allocSeqnos n).run cx = .ok
      (if SEAL_KEY_LIMIT ≤ (cx.self.outseqno - cx.self.outKeyBase).toNat then none
        else some cx.self.outseqno.toUInt32) (cx.bump n.toUInt64) :=
  (run_bind_ok (self_apply cx)).trans (fetchSeqnos_apply cx _ n)

theorem bump_bump (cx : Cx C) (m n : UInt64) : (cx.bump m).bump n = cx.bump (m + n) := by
  simp only [Cx.bump, add_assoc]

theorem sealDataInto_called (cx : Cx C) (ty : UInt8) (body : Bytes) (headroom : ℕ) :
    Ends (sealDataInto ty body headroom) cx (fun _ => Called cx) (Called cx) := by
  simp only [sealDataInto, ends_bind, ends_self, ends_ite, ends_fail]
  refine ⟨fun _ => .refused, fun _ => ⟨fun _ => .refused, fun hready => ?_⟩⟩
  refine (ends_of_ok (allocSeqnos_apply cx 1)).mpr ?_
  simp only [ends_okOr]
  refine ⟨fun seqno _ => ?_, fun _ => .reserved _⟩
  exact sealWithSeqno_ends _ seqno ty body headroom (.reserved _) fun _ hty _ =>
    .sealed _ hty (Bool.not_eq_false _ ▸ hready)

theorem openWithSeqno_ends (cx : Cx C) (data out : Bytes) (headroom : ℕ)
    {Q : Except SptpsError (UInt32 × UInt8) × Bytes → Cx C → Prop} (hbad : ∀ e out, Q (.error e, out) cx)
    (hok : ∀ seqno ty body out, ty < REC_HANDSHAKE → cx.self.incipher.isSome → cx.self.state ≠ .confirm →
      Q (.ok (seqno, ty), out) (cx.opening seqno ty body)) :
    Ends (openWithSeqno data out headroom) cx Q R := by
  simp only [openWithSeqno, ends_bind, ends_self, ends_ite, ends_pure]
  refine ⟨fun _ => hbad _ _, fun h => ?_⟩
  split
  · exact hbad _ _
  case h_2 c hc =>
    simp only [ends_ite, ends_pure, ends_bind, ends_slice]
    refine ⟨fun _ => hbad _ _, fun _ _ _ => ?_⟩
    split
    · exact hbad _ _
    · simp only [ends_bind, ends_uncons, ends_ite, ends_pure, ends_note]
      refine fun ty body _ => ⟨fun _ => hbad _ _, fun hty => ?_⟩
      simpa only [Cx.opening, hc] using
        hok _ ty body _ (UInt8.not_le.mp hty) (by simp [hc]) fun hst => h (.inr hst)

theorem openDataInto_ends (cx : Cx C) (data out : Bytes) (headroom : ℕ)
    {Q : Except SptpsError UInt8 × Bytes → Cx C → Prop} (hbad : ∀ e out, Q (.error e, out) cx)
    (hok : ∀ seqno ty body w r, ty < REC_HANDSHAKE → cx.self.incipher.isSome → cx.self.state ≠ .confirm →
      Q r ((cx.opening seqno ty body).setReplay w)) :
    Ends (openDataInto data out headroom) cx Q R := by
  simp only [openDataInto, ends_bind, ends_self, ends_ite, ends_pure]
  refine ⟨fun _ => hbad _ _, fun _ => openWithSeqno_ends cx data out headroom hbad ?_⟩
  intro seqno ty body out hty hin hst
  simp only [ends_bind, ends_replayCheck]
  split
  · exact hok seqno ty body _ _ hty hin hst
  · simp only [stripType, ends_bind, ends_slice, ends_pure]
    exact fun _ => hok seqno ty body _ _ hty hin hst

theorem forceKex_ends (cx : Cx C) {Q : Unit → Cx C → Prop} (hbad : R cx)
    (hbusy : cx.self.state = .secondaryKex → cx.self.mykex.isSome → R (cx.setState .kex).clearOut)
    (hok : cx.self.state = .secondaryKex → cx.self.outcipher.isSome → cx.self.mykex = none →
      Q () (cx.setState .kex).clearOut.kexSent) :
    Ends forceKex cx Q R := by
  simp only [forceKex, ends_bind, ends_self, ends_ite, ends_fail, ends_update, ends_freshOut]
  refine ⟨fun _ => hbad, fun h => ?_⟩
  simp only [not_or, Option.isNone_iff_eq_none, ne_eq, not_not, ← Option.isSome_iff_ne_none] at h
  by_cases hm : cx.self.mykex = none
  · exact (ends_of_ok (sendKex_apply (cx.setState .kex).clearOut hm)).mpr (hok h.2 h.1 hm)
  · rw [← ne_eq, ← Option.isSome_iff_ne_none] at hm
    exact (ends_of_err (sendKex_busy (cx.setState .kex).clearOut hm)).mpr (hbusy h.2 hm)

theorem exec_called (c : Call) (cx : Cx C) : Ends c.exec cx (fun _ => Called cx) (Called cx) := by
  cases c with
  | receive data =>
    exact forget_ends ((receive_received cx data).mono (fun _ _ => .received) fun _ => .received)
  | sendRecord ty body => exact sendRecord_called cx ty body
  | sealDataInto ty body headroom => exact forget_ends (sealDataInto_called cx ty body headroom)
  | sealWithSeqno seqno ty body headroom =>
    exact forget_ends (sealWithSeqno_ends cx seqno ty body headroom .refused fun _ hty hready =>
      by simpa [Cx.bump] using Called.sealed 0 hty hready)
  | openDataInto data out headroom =>
    exact okOr_ends (openDataInto_ends cx data out headroom (fun _ _ => .refused)
      fun _ _ _ w _ hty hin hst => .opened w hty hin hst)
  | openWithSeqno data out headroom =>
    exact okOr_ends (openWithSeqno_ends cx data out headroom (fun _ _ => .refused)
      fun _ _ _ _ hty hin hst => .opened cx.self.replay hty hin hst)
  | forceKex => exact forceKex_ends cx .refused .forceBusy .forced
  | allocSeqnos n => exact forget_ends ((ends_of_ok (allocSeqnos_apply cx n)).mpr (.reserved _))
  | replayCheck seqno =>
    simp only [Call.exec, ends_bind, ends_replayCheck]
    unfold okOr
    split <;> exact .windowed _

/-- What holds of a session that has just started, whatever the random source, and is kept by every call
holds in every run. -/
theorem Run.invariant {cfg : Config C} (h : Run cfg cx) (hstart : ∀ rng, P (Cx.kexSent ⟨.fresh cfg, rng, [], []⟩))
    (hrng : ∀ cx rng, P cx → P (cx.withRng rng)) (hcall : ∀ cx cx', P cx → Called cx cx' → P cx') : P cx := by
  induction h with
  | @start rng cx h =>
    obtain ⟨-, rfl⟩ := EStateM.Result.ok.inj ((startWith_apply cfg rng).symm.trans h)
    exact hstart rng
  | ok _ c rng h ih => exact hcall _ _ (hrng _ rng ih) ((ends_of_ok h).mp (exec_called c _))
  | err _ c rng h ih => exact hcall _ _ (hrng _ rng ih) ((ends_of_err h).mp (exec_called c _))

end Tincr.Sptps
