import Tincr.Sptps.Joint

/-!
Two ends of one stream session over a reliable byte channel each way. In any interleaving of sends,
forced rekeys and deliveries of any prefix of the bytes in flight, every delivery succeeds, every record
is opened with the key and the number it was sealed with, and what one end hands out is what the other
was given, in order.
-/

set_option linter.dupNamespace false

namespace Tincr.Sptps

open EStateM M

variable {C : Crypto}

/-- One end: its session, the bytes in flight to it, the records its user sent, the records it output. -/
structure Side (C : Crypto) where
  cx : Cx C
  inbox : Bytes
  sent : List (UInt8 × Bytes)
  got : List (UInt8 × Bytes)

abbrev Pair (C : Crypto) := Role → Side C

/-- One value for an end, another for its peer. -/
def Role.pick {α : Type} (ρ : Role) (mine his : α) : Role → α := fun σ => if σ = ρ then mine else his

@[simp] theorem Role.pick_self {α : Type} (ρ : Role) (a b : α) : ρ.pick a b ρ = a := if_pos rfl

@[simp] theorem Role.pick_other {α : Type} (ρ : Role) (a b : α) : ρ.pick a b ρ.other = b := by
  cases ρ <;> rfl

theorem Role.eq_or_other (ρ σ : Role) : σ = ρ ∨ σ = ρ.other := by
  cases ρ <;> cases σ <;> simp

/-- A call at `ρ` has left `cx'`: `k` of the bytes to it are consumed, its wire output is in flight to its
peer, and its records are handed out. -/
def Pair.act (p : Pair C) (ρ : Role) (cx' : Cx C) (k : ℕ) (sent : List (UInt8 × Bytes)) : Pair C :=
  ρ.pick ⟨cx', (p ρ).inbox.drop k, (p ρ).sent ++ sent, (p ρ).got ++ records cx'.out⟩
    { p ρ.other with inbox := (p ρ.other).inbox ++ wires cx'.out }

inductive PairStep (p : Pair C) : Pair C → Prop
  | send (ρ : Role) {ty body cx'} (h : (sendRecord ty body).run (p ρ).cx = .ok () cx') :
      PairStep p (p.act ρ cx' 0 [(ty, body)])
  | force (ρ : Role) {rng cx'} (h : forceKex.run ((p ρ).cx.withRng rng) = .ok () cx') :
      PairStep p (p.act ρ cx' 0 [])
  | deliver (ρ : Role) (n : ℕ) {rng k cx'}
      (h : (receive ((p ρ).inbox.take n)).run ((p ρ).cx.withRng rng) = .ok k cx') :
      PairStep p (p.act ρ cx' k [])

/-- Both ends have called `start_with`, and the bytes each produced are in flight. -/
inductive PairRun (X : PairConfig C) : Pair C → Prop
  | start {cx : Role → Cx C} (rng : Role → C.Rng)
      (h : ∀ ρ, startWith (X.config ρ) (rng ρ) = .ok () (cx ρ)) :
      PairRun X fun ρ => ⟨cx ρ, wires (cx ρ.other).out, [], []⟩
  | step {p p'} (h : PairRun X p) (hstep : PairStep p p') : PairRun X p'

/-- The two ends stand in a joint configuration, each lane is in order, and the users' records are those
of the logs. -/
structure Agree (X : PairConfig C) (p : Pair C) (hs : Role → List Hs) (v : Role → View)
    (q : Role → List Rec) : Prop where
  ends : ∀ ρ, IsEnd X ρ (p ρ).cx.self
  joint : Joint X (p .initiator).cx.self (p .responder).cx.self (hs .initiator) (hs .responder)
    (v .initiator) (v .responder)
  flow : ∀ ρ, Flow (p ρ.other).cx.self.readView (p ρ).cx (p ρ.other).cx (p ρ.other).inbox (hs ρ) (v ρ) (q ρ)
  sent : ∀ ρ, (p ρ).sent = apps (sealedRecs (p ρ).cx.log)
  got : ∀ ρ, (p ρ).got = apps (openedRecs (p ρ).cx.log)

/-- A joint configuration with one end's session and both message lists replaced. -/
def JointAt (X : PairConfig C) (ρ : Role) (mine his : Sptps C) (hsMine hsHis : List Hs) (vMine vHis : View) : Prop :=
  Joint X (ρ.pick mine his .initiator) (ρ.pick mine his .responder) (ρ.pick hsMine hsHis .initiator)
    (ρ.pick hsMine hsHis .responder) (ρ.pick vMine vHis .initiator) (ρ.pick vMine vHis .responder)

section Step

variable {X : PairConfig C} {p : Pair C} {hs : Role → List Hs} {v : Role → View} {q : Role → List Rec}

/-- The joint configuration as the end `ρ` sees it, up to its framing and counters. -/
theorem Agree.jointAt (h : Agree X p hs v q) (ρ : Role) {s : Sptps C}
    (e : s.handshake = (p ρ).cx.self.handshake) :
    JointAt X ρ s (p ρ.other).cx.self (hs ρ) (hs ρ.other) (v ρ) (v ρ.other) := by
  cases ρ with
  | initiator => exact h.joint.congr e rfl
  | responder => exact h.joint.congr rfl e

theorem Agree.incoming (h : Agree X p hs v q) (ρ : Role) : Flow (p ρ).cx.self.readView (p ρ.other).cx (p ρ).cx
    (p ρ).inbox (hs ρ.other) (v ρ.other) (q ρ.other) := by
  have hflow := h.flow ρ.other
  rwa [Role.other_other] at hflow

variable {cx cx' : Cx C} {k : ℕ} {qIn : List Rec} {ty : UInt8} {ρ : Role}

/-- A call at `ρ` that sealed `rs` and left its incoming lane as `hIn` says. -/
theorem Agree.act (h : Agree X p hs v q) (ρ : Role) {sent : List (UInt8 × Bytes)} {rs : List Rec}
    {new hsIn : List Hs} {vIn vOut : View} (hend : IsEnd X ρ cx'.self)
    (hj : JointAt X ρ cx'.self (p ρ.other).cx.self (hs ρ ++ new) hsIn vOut vIn)
    (hIn : Flow cx'.self.readView (p ρ.other).cx cx' ((p ρ).inbox.drop k) hsIn vIn qIn)
    (hlog : sealedRecs cx'.log = sealedRecs (p ρ).cx.log ++ rs)
    (hlane : Lane (v ρ) (p ρ).cx.self.outseqno.toUInt32 new vOut cx'.self.outseqno.toUInt32 rs)
    (hwires : wires cx'.out = (rs.map (Rec.wire C)).flatten) (hsent : sent = apps rs)
    (hgot : apps (openedRecs cx'.log) = apps (openedRecs (p ρ).cx.log) ++ records cx'.out) :
    ∃ hs' v' q', Agree X (p.act ρ cx' k sent) hs' v' q' := by
  refine ⟨ρ.pick (hs ρ ++ new) hsIn, ρ.pick vOut vIn, ρ.pick (q ρ ++ rs) qIn, ?_⟩
  have hself : p.act ρ cx' k sent ρ =
      ⟨cx', (p ρ).inbox.drop k, (p ρ).sent ++ sent, (p ρ).got ++ records cx'.out⟩ := Role.pick_self ..
  have hother : p.act ρ cx' k sent ρ.other =
      { p ρ.other with inbox := (p ρ.other).inbox ++ wires cx'.out } := Role.pick_other ..
  refine ⟨fun σ => ?_, ?_, fun σ => ?_, fun σ => ?_, fun σ => ?_⟩
  · obtain rfl | rfl := ρ.eq_or_other σ
    · rw [hself]
      exact hend
    · rw [hother]
      exact h.ends _
  · cases ρ with
    | initiator => exact hj
    | responder => exact hj
  · obtain rfl | rfl := ρ.eq_or_other σ
    · rw [hself, hother, Role.pick_self, Role.pick_self, Role.pick_self, hwires]
      exact (h.flow σ).send hlog hlane
    · rw [Role.other_other, hself, hother, Role.pick_other, Role.pick_other, Role.pick_other]
      exact hIn
  · obtain rfl | rfl := ρ.eq_or_other σ
    · rw [hself]
      change (p σ).sent ++ sent = apps (sealedRecs cx'.log)
      rw [hlog, hsent, h.sent σ, apps, apps, apps, List.filterMap_append]
    · rw [hother]
      exact h.sent _
  · obtain rfl | rfl := ρ.eq_or_other σ
    · rw [hself, hgot, h.got σ]
    · rw [hother]
      exact h.got _

theorem Agree.act_quiet (h : Agree X p hs v q) (ρ : Role) (hend : cx'.self.static = (p ρ).cx.self.static)
    (hsame : cx'.self.handshake = (p ρ).cx.self.handshake) (hn : cx'.self.outseqno = (p ρ).cx.self.outseqno)
    (hlog : sealedRecs cx'.log = sealedRecs (p ρ).cx.log) (hwires : wires cx'.out = [])
    (hgot : apps (openedRecs cx'.log) = apps (openedRecs (p ρ).cx.log) ++ records cx'.out)
    (hIn : Flow (p ρ).cx.self.readView (p ρ.other).cx cx' ((p ρ).inbox.drop k) (hs ρ.other) (v ρ.other) qIn) :
    ∃ hs' v' q', Agree X (p.act ρ cx' k []) hs' v' q' := by
  have hview : cx'.self.readView = (p ρ).cx.self.readView := by
    simp only [Sptps.readView, incipher_congr hsame, state_congr hsame]
  have hlane : Lane (v ρ) (p ρ).cx.self.outseqno.toUInt32 [] (v ρ) cx'.self.outseqno.toUInt32 [] := by
    rw [hn]
    exact .nil _ _
  refine h.act ρ ((h.ends ρ).congr hend) ?_ (hview ▸ hIn) (by rw [hlog, List.append_nil]) hlane hwires rfl hgot
  rw [List.append_nil]
  exact h.jointAt ρ hsame

theorem sendRecord_ok {body : Bytes} (hf : cx.self.framing = .stream)
    (h : (sendRecord ty body).run cx = .ok () cx') : ty < REC_HANDSHAKE ∧ cx.self.appSendReady = true ∧
      body.length < 2 ^ 16 ∧ cx' = cx.clearOut.emit ty body := by
  by_cases h₁ : cx.self.appSendReady = false ∨ REC_HANDSHAKE ≤ ty ∨ cx.self.needsRekey
  · simp [sendRecord, h₁] at h
  by_cases h₂ : cx.self.framing = .stream ∧ 65535 < body.length
  · simp [sendRecord, h₁, h₂] at h
  have hlen : body.length < 2 ^ 16 := by
    have := not_and.mp h₂ hf
    omega
  have hrun : (sendRecord ty body).run cx = .ok () (cx.clearOut.emit ty body) := by
    simp only [sendRecord, run_bind, self_apply, if_neg h₁, if_neg h₂, freshOut_apply]
    exact sendRecordPriv_apply cx.clearOut ty hlen
  rw [hrun] at h
  simp only [not_or, Bool.not_eq_false, UInt8.not_le] at h₁
  exact ⟨h₁.2.1, h₁.1, hlen, (Result.ok.inj h).2.symm⟩

theorem agree_send (h : Agree X p hs v q) (ρ : Role) {body : Bytes}
    (hrun : (sendRecord ty body).run (p ρ).cx = .ok () cx') :
    ∃ hs' v' q', Agree X (p.act ρ cx' 0 [(ty, body)]) hs' v' q' := by
  obtain ⟨hty, hready, hlen, rfl⟩ := sendRecord_ok (h.ends ρ).framing hrun
  have hv : v ρ = (p ρ).cx.self.sendView := by
    cases ρ with
    | initiator => exact h.joint.ready.1 hready
    | responder => exact h.joint.ready.2 hready
  obtain ⟨c, hc⟩ := Option.isSome_iff_exists.mp ((appSendReady_iff _).mp hready).1
  have hsends := (Sends.refl (show IsEnd X ρ (p ρ).cx.clearOut.self from h.ends ρ)).emit ty body
  have hlane : Lane (v ρ) (p ρ).cx.self.outseqno.toUInt32 [] (v ρ) ((p ρ).cx.self.outseqno.toUInt32 + 1)
      [⟨(p ρ).cx.self.outcipher, (p ρ).cx.self.outseqno.toUInt32, ty, body⟩] := by
    rw [hv, Sptps.sendView, hc]
    exact .app hty hlen (.nil _ _)
  have hIn := (h.incoming ρ).receiver hsends.opened hsends.stream hsends.inseqno
  refine h.act ρ hsends.isEnd ?_ hIn hsends.sealed (hsends.outseqno ▸ hlane) hsends.wires ?_ ?_
  · rw [List.append_nil]
    exact h.jointAt ρ rfl
  · simp [apps, Rec.app, hty]
  · rw [hsends.opened, hsends.records]
    simp [Sptps.records, Cx.clearOut]

theorem forceKex_ok (h : forceKex.run cx = .ok () cx') : cx.self.state = .secondaryKex := by
  by_contra hst
  have hbad : cx.self.outcipher.isNone = true ∨ cx.self.state ≠ .secondaryKex := .inr hst
  simp only [forceKex, run_bind, self_apply, if_pos hbad, fail_apply, reduceCtorEq] at h

theorem agree_force (h : Agree X p hs v q) (ρ : Role) {rng : C.Rng}
    (hrun : forceKex.run ((p ρ).cx.withRng rng) = .ok () cx') :
    ∃ hs' v' q', Agree X (p.act ρ cx' 0 []) hs' v' q' := by
  have hforced := forceKex_ok hrun
  have hst : (p ρ).cx.self.state = .secondaryKex := hforced
  obtain ⟨hidle, hout, hv, hnext⟩ : Idle (p ρ).cx.self ∧ (p ρ).cx.self.outcipher.isSome ∧
      v ρ = (p ρ).cx.self.sendView ∧ ∀ s' mine, Kexing s' mine → X.Honest mine →
        s'.outcipher = (p ρ).cx.self.outcipher →
        JointAt X ρ s' (p ρ.other).cx.self (hs ρ ++ [.kex mine]) (hs ρ.other) (v ρ) (v ρ.other) := by
    cases ρ with
    | initiator => exact h.joint.force_initiator hst
    | responder => exact h.joint.force_responder hst
  have hend : IsEnd X ρ ((p ρ).cx.withRng rng).self := h.ends ρ
  obtain ⟨mine, cx₁, hrun₁, hmine, hkex, hin, hout₁, hsends⟩ := idle_force hend hidle hout
  obtain ⟨-, rfl⟩ := Result.ok.inj (hrun.symm.trans hrun₁)
  have hview : cx'.self.readView = (p ρ).cx.self.readView :=
    readView_of_eq hin (by simp [hst]) (by simp [hkex.state])
  have hIn := (h.incoming ρ).receiver hsends.opened hsends.stream hsends.inseqno
  refine h.act ρ hsends.isEnd (hnext _ mine hkex hmine hout₁) (hview ▸ hIn) hsends.sealed
    (hsends.lane ?_ ?_) hsends.wires ?_ ?_
  · rw [hv]
    rfl
  · simpa using hmine.length_le
  · exact (apps_hsRecs _ _ _).symm
  · rw [hsends.opened, hsends.records]
    simp [Sptps.records, Cx.clearOut, Cx.withRng]

theorem answer (hC : C.Correct) {his : Sptps C} {m : Hs} {mine rest : List Hs} {vMine vHis : View}
    (hend : IsEnd X ρ cx.self) (hj : JointAt X ρ cx.self his mine (m :: rest) vMine vHis) : ∃ cx' new vMine' vHis',
    Answers X ρ cx cx' m rest vHis vHis' new vMine vMine' ∧
      JointAt X ρ cx'.self his (mine ++ new) rest vMine' vHis' := by
  cases ρ with
  | initiator => exact joint_initiator hC hend hj
  | responder =>
    obtain ⟨cx', new, vI, vR, hans, hj'⟩ := joint_responder hC hend hj
    exact ⟨cx', new, vR, vI, hans, hj'⟩

theorem dispatchRecord_app (body : Bytes) (hty : ty < REC_HANDSHAKE) (hst : cx.self.state ≠ .confirm) :
    (dispatchRecord ty body true).run cx = .ok () (cx.pushed (.record ty body)) := by
  simp only [dispatchRecord, if_pos hty, run_bind, self_apply, hst, Bool.true_eq_false, or_self, if_false,
    push_apply, Cx.pushed]

theorem readView_app {s : Sptps C} (h : s.readView.app = true) : s.state ≠ .confirm := by
  simp only [Sptps.readView, Bool.and_eq_true, bne_iff_ne] at h
  exact h.2

/-- The end `ρ` has taken `r` off the stream and not dispatched it yet. -/
structure Took (p : Pair C) (ρ : Role) (r : Rec) (cx : Cx C) : Prop where
  static : cx.self.static = (p ρ).cx.self.static
  handshake : cx.self.handshake = (p ρ).cx.self.handshake
  outseqno : cx.self.outseqno = (p ρ).cx.self.outseqno
  out : cx.out = []
  sealed : sealedRecs cx.log = sealedRecs (p ρ).cx.log
  opened : openedRecs cx.log = openedRecs (p ρ).cx.log ++ [r]

theorem took_intro (p : Pair C) (ρ : Role) (rng : C.Rng) (st : StreamBuf) (r : Rec) :
    Took p ρ r ((((p ρ).cx.withRng rng).clearOut.withStream st).tookRec r) := by
  refine ⟨rfl, rfl, rfl, rfl, ?_, ?_⟩ <;>
    simp [Cx.tookRec, Cx.withStream, Cx.clearOut, Cx.withRng, sealedRecs, Event.sealedRec, openedRecs,
      Event.openedRec]

theorem agree_app (h : Agree X p hs v q) {r : Rec} (htook : Took p ρ r cx) (hty : r.ty < REC_HANDSHAKE)
    (hst : (p ρ).cx.self.state ≠ .confirm)
    (hflow : Flow (p ρ).cx.self.readView (p ρ.other).cx cx ((p ρ).inbox.drop k) (hs ρ.other) (v ρ.other) qIn) :
    ∃ cx', (dispatchRecord r.ty r.body true).run cx = .ok () cx' ∧
      ∃ hs' v' q', Agree X (p.act ρ cx' k []) hs' v' q' := by
  have hst' : cx.self.state ≠ .confirm := state_congr htook.handshake ▸ hst
  have hopened : openedRecs (cx.pushed (.record r.ty r.body)).log = openedRecs cx.log := by
    simp [Cx.pushed, openedRecs, Event.openedRec]
  refine ⟨_, dispatchRecord_app r.body hty hst', h.act_quiet ρ htook.static htook.handshake htook.outseqno
    ?_ ?_ ?_ (hflow.receiver hopened rfl rfl)⟩
  · rw [← htook.sealed]
    simp [Cx.pushed, sealedRecs, Event.sealedRec]
  · simp [Cx.pushed, htook.out, wires]
  · rw [hopened, htook.opened]
    simp [Cx.pushed, htook.out, records, apps, Rec.app, hty]

theorem agree_handshake (hC : C.Correct) (h : Agree X p hs v q) {r : Rec} {m : Hs} {rest : List Hs}
    (htook : Took p ρ r cx) (hty : r.ty = REC_HANDSHAKE) (hbody : r.body = m.body) (hhs : hs ρ.other = m :: rest)
    (hflow : Flow (m.after.getD (p ρ).cx.self.readView) (p ρ.other).cx cx ((p ρ).inbox.drop k) rest (v ρ.other) qIn) :
    ∃ cx', (dispatchRecord r.ty r.body r.cipher.isSome).run cx = .ok () cx' ∧
      ∃ hs' v' q', Agree X (p.act ρ cx' k []) hs' v' q' := by
  have hend : IsEnd X ρ cx.self := (h.ends ρ).congr htook.static
  have hj := h.jointAt ρ htook.handshake
  rw [hhs] at hj
  obtain ⟨cx', new, vMine, vHis, hans, hj'⟩ := answer hC hend hj
  obtain ⟨rs, hsends, hlane, happs⟩ := hans.sends
  have hview : cx.self.readView = (p ρ).cx.self.readView := by
    simp only [Sptps.readView, incipher_congr htook.handshake, state_congr htook.handshake]
  have hIn : Flow cx'.self.readView (p ρ.other).cx cx' ((p ρ).inbox.drop k) rest vHis qIn := by
    have hmoved := hflow.receiver hsends.opened hsends.stream hsends.inseqno
    refine ⟨hmoved.logs, hmoved.bytes, hans.reads _ _ _ ?_, hmoved.buffered⟩
    rw [hview]
    exact hmoved.lane
  refine ⟨cx', ?_, h.act ρ hsends.isEnd hj' hIn ?_ (htook.outseqno ▸ hlane) ?_ happs.symm ?_⟩
  · rw [hty, hbody]
    exact hans.run
  · rw [hsends.sealed, htook.sealed]
  · rw [hsends.wires, htook.out]
    simp [wires]
  · rw [hsends.opened, hsends.records, htook.opened, htook.out]
    simp [records, apps, Rec.app, hty]

/-- Every delivery succeeds, and the two ends still agree after it. -/
theorem agree_deliver (hC : C.Correct) (h : Agree X p hs v q) (ρ : Role) (n : ℕ) (rng : C.Rng) :
    ∃ k cx', (receive ((p ρ).inbox.take n)).run ((p ρ).cx.withRng rng) = .ok k cx' ∧
      ∃ hs' v' q', Agree X (p.act ρ cx' k []) hs' v' q' := by
  have hend : IsEnd X ρ ((p ρ).cx.withRng rng).self := h.ends ρ
  have hIn : Flow ((p ρ).cx.withRng rng).self.readView (p ρ.other).cx ((p ρ).cx.withRng rng) (p ρ).inbox
      (hs ρ.other) (v ρ.other) (q ρ.other) := (h.incoming ρ).receiver rfl rfl rfl
  obtain ⟨st, k, hrun, hflow⟩ | ⟨st, r, q', k, hrun, hcase⟩ := hIn.deliver hC hend.framing n
  · refine ⟨k, _, hrun, h.act_quiet ρ rfl rfl rfl rfl rfl ?_ hflow⟩
    simp [records, Cx.withStream, Cx.clearOut, Cx.withRng]
  · have htook := took_intro p ρ rng st r
    obtain ⟨hty, hsome, happ, hflow⟩ | ⟨hty, m, rest, hhs, hbody, hflow⟩ := hcase
    · rw [hsome] at hrun
      obtain ⟨cx', hdisp, hagree⟩ := agree_app h htook hty (readView_app happ) hflow
      exact ⟨k, cx', hrun.trans (run_bind_ok hdisp), hagree⟩
    · obtain ⟨cx', hdisp, hagree⟩ := agree_handshake hC h htook hty hbody hhs hflow
      exact ⟨k, cx', hrun.trans (run_bind_ok hdisp), hagree⟩

end Step

theorem isEnd_fresh (X : PairConfig C) (ρ : Role) : IsEnd X ρ (.fresh (X.config ρ)) := by
  cases ρ <;> exact ⟨rfl, rfl, rfl, rfl, rfl, rfl, rfl⟩

theorem agree_start (X : PairConfig C) {cx : Role → Cx C} {rng : Role → C.Rng}
    (h : ∀ ρ, startWith (X.config ρ) (rng ρ) = .ok () (cx ρ)) :
    ∃ hs v q, Agree X (fun ρ => ⟨cx ρ, wires (cx ρ.other).out, [], []⟩) hs v q := by
  have hcx : ∀ ρ, cx ρ = Cx.kexSent ⟨.fresh (X.config ρ), rng ρ, [], []⟩ := fun ρ =>
    (Result.ok.inj ((h ρ).symm.trans (startWith_apply _ _))).2
  have hkex : ∀ ρ, ∃ mine, X.Honest mine ∧ HasKex (cx ρ).self mine ∧ (cx ρ).self.hiskex = none ∧
      Sends X ρ ⟨.fresh (X.config ρ), rng ρ, [], []⟩ (cx ρ) [⟨none, 0, REC_HANDSHAKE, mine.body⟩] := fun ρ => by
    rw [hcx ρ]
    exact (Sends.refl (isEnd_fresh X ρ)).kexSent rfl
  choose mine hmine hhas hnone hsends using hkex
  have hkexing : ∀ ρ, Kexing (cx ρ).self (mine ρ) := fun ρ => ⟨hhas ρ, by rw [hcx ρ]; rfl, hnone ρ⟩
  have hin : ∀ ρ, (cx ρ).self.incipher = none := fun ρ => by rw [hcx ρ]; rfl
  have hout : ∀ ρ, (cx ρ).self.outcipher = none := fun ρ => by rw [hcx ρ]; rfl
  refine ⟨fun ρ => [.kex (mine ρ)], fun _ => ⟨none, false⟩,
    fun ρ => [⟨none, 0, REC_HANDSHAKE, (mine ρ).body⟩], ?_⟩
  refine ⟨fun ρ => (hsends ρ).isEnd, ?_, fun ρ => ?_, fun ρ => ?_, fun ρ => ?_⟩
  · exact .kexKex (hkexing _) (hkexing _) (hmine _) (hmine _) (.first (hout _) (hout _) (hin _) (hin _))
  · have hfresh : (cx ρ.other).self.stream = ⟨[], 0⟩ := (hsends ρ.other).stream
    refine ⟨?_, ?_, ?_, ?_⟩
    · rw [(hsends ρ).sealed, (hsends ρ.other).opened]
      rfl
    · rw [hfresh, Role.other_other, (hsends ρ).wires]
      rfl
    · have hview : (cx ρ.other).self.readView = ⟨none, false⟩ := by simp [Sptps.readView, hin]
      rw [hview, (hsends ρ.other).inseqno, (hsends ρ).outseqno]
      exact lane_hs (v := ⟨none, false⟩) (.kex (mine ρ)) (hmine ρ).length_le
    · rw [hfresh]
      refine ⟨?_, fun h2 => absurd h2 (by simp)⟩
      rw [length_wire]
      simp only [List.length_nil]
      omega
  · rw [(hsends ρ).sealed]
    rfl
  · rw [(hsends ρ).opened]
    rfl

theorem agree_run (hC : C.Correct) {X : PairConfig C} {p : Pair C} (hrun : PairRun X p) :
    ∃ hs v q, Agree X p hs v q := by
  induction hrun with
  | start rng h => exact agree_start X h
  | step _ hstep ih =>
    obtain ⟨hs, v, q, h⟩ := ih
    cases hstep with
    | send ρ hok => exact agree_send h ρ hok
    | force ρ hok => exact agree_force h ρ hok
    | @deliver ρ n rng k cx' hok =>
      obtain ⟨k', cx'', hok', hagree⟩ := agree_deliver hC h ρ n rng
      obtain ⟨rfl, rfl⟩ := Result.ok.inj (hok.symm.trans hok')
      exact hagree

/-- Whatever the two users and the network do, no delivery fails; what an end has handed out is a prefix
of what its peer was given, and all of it once nothing is in flight; and each record was opened with the
cipher and the number it was sealed with. -/
theorem stream_pair_delivers (hC : C.Correct) {X : PairConfig C} {p : Pair C} (hrun : PairRun X p) (ρ : Role) :
    (∀ n rng, ∃ k cx', (receive ((p ρ).inbox.take n)).run ((p ρ).cx.withRng rng) = .ok k cx') ∧
    (p ρ).got <+: (p ρ.other).sent ∧ ((p ρ).inbox = [] → (p ρ).got = (p ρ.other).sent) ∧
    openedRecs (p ρ).cx.log <+: sealedRecs (p ρ.other).cx.log := by
  obtain ⟨hs, v, q, h⟩ := agree_run hC hrun
  have hlogs := (h.incoming ρ).logs
  refine ⟨fun n rng => ?_, ?_, fun hempty => ?_, ?_⟩
  · obtain ⟨k, cx', hok, -⟩ := agree_deliver hC h ρ n rng
    exact ⟨k, cx', hok⟩
  · rw [h.got, h.sent, hlogs]
    exact (List.prefix_append _ _).filterMap _
  · rw [h.got, h.sent, hlogs, (h.incoming ρ).drained hempty, List.append_nil]
  · rw [hlogs]
    exact List.prefix_append _ _

/-- The move of an executed interleaving; one that is refused leaves the pair alone. -/
inductive PairMove (C : Crypto)
  | send (ρ : Role) (ty : UInt8) (body : Bytes)
  | force (ρ : Role) (rng : C.Rng)
  | deliver (ρ : Role) (n : ℕ) (rng : C.Rng)

def Pair.exec (p : Pair C) : PairMove C → Pair C
  | .send ρ ty body =>
    match (sendRecord ty body).run (p ρ).cx with
    | .ok () cx' => p.act ρ cx' 0 [(ty, body)]
    | .error .. => p
  | .force ρ rng =>
    match forceKex.run ((p ρ).cx.withRng rng) with
    | .ok () cx' => p.act ρ cx' 0 []
    | .error .. => p
  | .deliver ρ n rng =>
    match (receive ((p ρ).inbox.take n)).run ((p ρ).cx.withRng rng) with
    | .ok k cx' => p.act ρ cx' k []
    | .error .. => p

theorem pairRun_exec {X : PairConfig C} {p : Pair C} (h : PairRun X p) (m : PairMove C) :
    PairRun X (p.exec m) := by
  cases m with
  | send ρ ty body =>
    simp only [Pair.exec]
    split
    case h_1 hok => exact h.step (.send ρ hok)
    case h_2 => exact h
  | force ρ rng =>
    simp only [Pair.exec]
    split
    case h_1 hok => exact h.step (.force ρ hok)
    case h_2 => exact h
  | deliver ρ n rng =>
    simp only [Pair.exec]
    split
    case h_1 hok => exact h.step (.deliver ρ n hok)
    case h_2 => exact h

theorem pairRun_foldl {X : PairConfig C} {p : Pair C} (h : PairRun X p) (ms : List (PairMove C)) :
    PairRun X (ms.foldl Pair.exec p) := by
  induction ms generalizing p with
  | nil => exact h
  | cons m ms ih => exact ih (pairRun_exec h m)

/-- Two hybrid ends over the null cryptography. -/
def nullEnds : PairConfig Crypto.null := ⟨.x25519MlKem768, .chaCha20Poly1305, [], 16, (), ()⟩

def nullRng : Crypto.null.Rng := ()

def nullEnd (ρ : Role) : Cx Crypto.null := Cx.kexSent ⟨.fresh (nullEnds.config ρ), nullRng, [], []⟩

/-- The handshake with its confirmation, a record from the initiator while the responder starts a rekey,
and what the responder has then read. -/
def nullPair : Pair Crypto.null :=
  [.deliver .responder 4000 nullRng, .deliver .initiator 4000 nullRng, .deliver .responder 4000 nullRng,
    .deliver .initiator 4000 nullRng, .deliver .initiator 4000 nullRng, .deliver .responder 4000 nullRng,
    .send .initiator 0 [7], .force .responder nullRng, .deliver .responder 4000 nullRng].foldl Pair.exec
    fun ρ => ⟨nullEnd ρ, wires (nullEnd ρ.other).out, [], []⟩

theorem stream_pair_delivers_null : PairRun nullEnds nullPair ∧ (nullPair .responder).got = [(0, [7])] ∧
    (nullPair .responder).got <+: (nullPair .initiator).sent := by
  have hok : ∀ ρ, startWith (nullEnds.config ρ) nullRng = .ok () (nullEnd ρ) := fun ρ =>
    startWith_apply _ _
  have hrun : PairRun nullEnds nullPair := pairRun_foldl (.start _ hok) _
  exact ⟨hrun, by decide +kernel, (stream_pair_delivers Crypto.null_correct hrun .responder).2.1⟩

end Tincr.Sptps
