import Tincr.Net.Pmtu

/-!
The `minmtu` of a tunnel and its copy in the handles of the fast path. Probe replies, acknowledgements over the
meta connection and the timeout of UDP store the copy, and a handshake makes a new one; the PMTU tick and the
reports of `EMSGSIZE` lower `minmtu` and store nothing.
-/

namespace Tincr.Pmtu

/-- How a probe was sent. A report that it is too long is handled before the send returns. -/
structure Sent where
  udpSent : Bool
  tooLong : Option ℕ
deriving DecidableEq, Repr

namespace PmtuState

def udpProbeDue (s : PmtuState) (now interval : ℕ) : Bool :=
  !s.udpConfirmed && !s.udpProbeAttempted && s.phase.isDiscoveryStart || decide (interval ≤ now - s.udpProbeAttemptedAt)

def resetUnreachable (s : PmtuState) : PmtuState :=
  { s.startDiscovery with
    maxmtu := MTU, minmtu := 0, maxrecentlen := 0, udpConfirmed := false, pingSent := false, udpPingRtt := none }

def report (s : PmtuState) (o : Sent) : PmtuState :=
  match o.tooLong with
  | some atLen => (s.onEmsgsize atLen).2
  | none => s

def dispatch : List PmtuAction → List Sent → PmtuState → PmtuState
  | .sendProbe _ countsMiss :: acts, o :: outs, s =>
    let s := s.report o
    dispatch acts outs (if countsMiss && o.udpSent then s.onCountedProbeSent else s)
  | _ :: acts, outs, s => dispatch acts outs s
  | [], _, s => s

end PmtuState

/-- What `try_udp` reads and what its sends return; the reply is the gratuitous one, if it is due, and the second
request the one for local discovery. -/
structure TryUdp where
  now : ℕ
  timeout : ℕ
  keepaliveInterval : ℕ
  interval : ℕ
  attemptedAt : ℕ
  reply : Option Sent
  request : Sent
  localRequest : Option Sent
deriving DecidableEq, Repr

/-- The same for the PMTU part of `try_tx`; `initialMaxmtu` is what the kernel says about the route. -/
structure TryMtu where
  now : ℕ
  pinginterval : ℕ
  initialMaxmtu : ℕ
  outs : List Sent
deriving DecidableEq, Repr

/-- The PMTU state of a tunnel, and the `minmtu` of its handles if it has any. -/
structure TunnelMtu where
  pmtu : Option PmtuState
  handle : Option ℕ
deriving DecidableEq, Repr

namespace TunnelMtu

def minmtu (p : TunnelMtu) : ℕ := (p.pmtu.map (·.minmtu)).getD 0

def publish (p : TunnelMtu) : TunnelMtu := { p with handle := p.handle.map fun _ => p.minmtu }

def udpProbeH (p : TunnelMtu) (len now : ℕ) : TunnelMtu :=
  publish { p with pmtu := some (((p.pmtu.getD (.new now MTU)).onProbeReply len now).2) }

def applyMetaUdpConfirm (p : TunnelMtu) (len now : ℕ) : TunnelMtu :=
  match p.pmtu with
  | none => p
  | some s =>
    let p := { p with pmtu := some (s.onMetaAck len now).2 }
    if (s.onMetaAck len now).1 then p.publish else p

/-- The acknowledgement in an `MTU_INFO`, if it is for us and on the path, and the provisional MTU, if it is taken. -/
def onMtuInfo (p : TunnelMtu) (udpRxLen : Option ℕ) (now : ℕ) (newMtu : Option ℕ) : TunnelMtu :=
  let p := match udpRxLen with
    | some len => p.applyMetaUdpConfirm len now
    | none => p
  match newMtu with
  | some mtu => { p with pmtu := p.pmtu.map fun s => { s with mtu := mtu } }
  | none => p

def handleUdpEmsgsize (p : TunnelMtu) (atLen : ℕ) : TunnelMtu :=
  { p with pmtu := p.pmtu.map fun s => (s.onEmsgsize atLen).2 }

def handleUdpUnreachable (p : TunnelMtu) : TunnelMtu :=
  { p with pmtu := p.pmtu.map fun s => { s with udpConfirmed := false } }

def handshakeDone (p : TunnelMtu) : TunnelMtu := { p with handle := some p.minmtu }

def becameUnreachable (p : TunnelMtu) : TunnelMtu := ⟨p.pmtu.map PmtuState.resetUnreachable, none⟩

def pmtuCap (p : TunnelMtu) (cap now : ℕ) : TunnelMtu :=
  let s := p.pmtu.getD (.new now (min cap MTU))
  { p with pmtu := some { s with
      mtu := if s.mtu = 0 ∨ cap < s.mtu then cap else s.mtu, maxmtu := min s.maxmtu cap } }

def recentLen (p : TunnelMtu) (len : ℕ) : TunnelMtu :=
  { p with pmtu := p.pmtu.map fun s => if s.maxrecentlen < len then { s with maxrecentlen := len } else s }

/-- The head of `try_udp`: without a sign of life from UDP, discovery starts again. -/
def revalidate (p : TunnelMtu) (u : TryUdp) : TunnelMtu :=
  if p.pmtu.any fun s => s.udpTimedOut u.now u.timeout || s.udpNeedsColdRevalidation u.now u.timeout then
    ⟨p.pmtu.map PmtuState.onUdpTimeout, p.handle.map fun _ => 0⟩
  else p

def gratuitous (u : TryUdp) (s : PmtuState) : PmtuState :=
  match u.reply with
  | some o => if s.udpConfirmed then { s with maxrecentlen := 0 }.report o else s
  | none => s

def requests (u : TryUdp) : List Sent := u.request :: u.localRequest.toList

def requestDue (u : TryUdp) (s : PmtuState) : Bool :=
  s.udpProbeDue u.now (if s.udpConfirmed then u.keepaliveInterval else u.interval)

def probeUdp (u : TryUdp) (s : PmtuState) : PmtuState :=
  if requestDue u s then
    ((requests u).foldl PmtuState.report s).onUdpProbeAttempt u.attemptedAt ((requests u).any (·.udpSent))
  else s

def tryUdp (p : TunnelMtu) (u : TryUdp) : TunnelMtu :=
  let p := p.revalidate u
  { p with pmtu := some (probeUdp u (gratuitous u (p.pmtu.getD (.new u.now MTU)))) }

def seed (p : TunnelMtu) (a : TryMtu) : PmtuState :=
  let s := p.pmtu.getD (.new a.now a.initialMaxmtu)
  if s.phase.isDiscoveryStart then { s with maxmtu := a.initialMaxmtu } else s

/-- The PMTU part of `try_tx`; `none` is the `unreachable!` arm of the tick. -/
def tryMtu (f : ProbeStep) (p : TunnelMtu) (a : TryMtu) : Option TunnelMtu :=
  if (p.seed a).udpConfirmed then
    ((p.seed a).tick f a.now a.pinginterval).map fun (acts, s) => { p with pmtu := some (s.dispatch acts a.outs) }
  else some { p with pmtu := some (p.seed a) }

/-- `try_tx` for a direct target with a key: `try_udp` if UDP discovery is on, then the tick if it was asked for. -/
def tryTx (f : ProbeStep) (p : TunnelMtu) (udp : Option TryUdp) (mtu : Option TryMtu) : Option TunnelMtu :=
  let p := match udp with
    | some u => p.tryUdp u
    | none => p
  match mtu with
  | some a => p.tryMtu f a
  | none => some p

end TunnelMtu

/-! ### What lowers `minmtu` -/

namespace PmtuState

/-- `minmtu` does not grow, and it goes down under one condition. -/
def Drops (s s' : PmtuState) (c : Prop) : Prop := s'.minmtu ≤ s.minmtu ∧ (s'.minmtu = s.minmtu ↔ ¬ c)

theorem Drops.trans {s s' s'' : PmtuState} {c c' : Prop} (h : Drops s s' c) (h' : Drops s' s'' c') :
    Drops s s'' (c ∨ c') := by
  obtain ⟨hle, hiff⟩ := h
  obtain ⟨hle', hiff'⟩ := h'
  refine ⟨hle'.trans hle, ?_⟩
  rw [not_or, ← hiff, ← hiff']
  omega

theorem drops_same {s s' : PmtuState} (h : s'.minmtu = s.minmtu) : Drops s s' False := ⟨h.le, iff_of_true h not_false⟩

theorem Drops.congr {s s' : PmtuState} {c c' : Prop} (h : Drops s s' c) (hc : c ↔ c') : Drops s s' c' :=
  ⟨h.1, by rw [h.2, hc]⟩

def Crossed (s : PmtuState) : Prop := s.phase.isFixed = false ∧ s.maxmtu < s.minmtu

theorem tryFixMtu_drops (s : PmtuState) : Drops s s.tryFixMtu.2 s.Crossed := by
  rcases tryFixMtu_cases s with ⟨hrun, hnot⟩ | ⟨_, hconv, hrun⟩ <;> rw [hrun]
  · refine ⟨le_rfl, iff_of_true rfl ?_⟩
    rintro ⟨hphase, hlt⟩
    cases hp : s.phase with
    | discovery sent => exact hnot (.inr ⟨⟨sent, hp⟩, hlt.le⟩)
    | fix => exact hnot (.inl hp)
    | steady | revalidate misses | lost => rw [hp] at hphase; cases hphase
  · have hphase : s.phase.isFixed = false := by
      rcases hconv with hfix | ⟨⟨sent, hsent⟩, -⟩
      · rw [hfix]; rfl
      · rw [hsent]; rfl
    refine ⟨settled_le_minmtu s, ?_⟩
    simp only [settled_eq_iff, Crossed, hphase, true_and, not_lt]

def CapLowers (s : PmtuState) (atLen : ℕ) : Prop :=
  s.phase.isFixed = false ∧ min s.maxmtu (emsgsizeLimit atLen) < s.minmtu

theorem onEmsgsize_drops (s : PmtuState) (atLen : ℕ) : Drops s (s.onEmsgsize atLen).2 (s.CapLowers atLen) := by
  have hdrop := tryFixMtu_drops { s with
    maxmtu := if emsgsizeLimit atLen < s.maxmtu then emsgsizeLimit atLen else s.maxmtu
    mtu := if emsgsizeLimit atLen < s.mtu then emsgsizeLimit atLen else s.mtu }
  have hmin : (if emsgsizeLimit atLen < s.maxmtu then emsgsizeLimit atLen else s.maxmtu) =
      min s.maxmtu (emsgsizeLimit atLen) := by
    split_ifs <;> omega
  refine hdrop.congr ?_
  simp only [Crossed, CapLowers, hmin]

def TickLowers (s : PmtuState) (now pinginterval : ℕ) : Prop :=
  s.due now pinginterval = true ∧ (s.Crossed ∨ s.phase = .lost ∧ s.minmtu ≠ 0)

theorem tick_drops (f : ProbeStep) (s : PmtuState) (now pinginterval : ℕ) :
    ∃ acts s', s.tick f now pinginterval = some (acts, s') ∧ Drops s s' (s.TickLowers now pinginterval) := by
  rcases tick_cases f s now pinginterval with
    ⟨hdue, htick⟩ | ⟨hdue, hlost, htick⟩ | ⟨hdue, hlost, probes, phase, -, -, -, htick⟩ <;> refine ⟨_, _, htick, ?_⟩
  · exact (drops_same rfl).congr (by simp [TickLowers, hdue])
  · refine ⟨Nat.zero_le _, ?_⟩
    simp [TickLowers, hdue, hlost, Crossed, PmtuPhase.isFixed, eq_comm]
  · have hdrop := tryFixMtu_drops { s with mtuPingSent := now }
    refine Drops.congr (c := s.Crossed) ⟨hdrop.1, hdrop.2⟩ ?_
    simp [TickLowers, hdue, hlost]

def ReportLowers (s : PmtuState) (o : Sent) : Prop := ∃ atLen, o.tooLong = some atLen ∧ s.CapLowers atLen

theorem report_drops (s : PmtuState) (o : Sent) : Drops s (s.report o) (s.ReportLowers o) := by
  rw [report]
  cases ho : o.tooLong with
  | none => exact (drops_same rfl).congr (by simp [ReportLowers, ho])
  | some atLen => exact (onEmsgsize_drops s atLen).congr (by simp [ReportLowers, ho])

def ReportsLower : List Sent → PmtuState → Prop
  | [], _ => False
  | o :: os, s => s.ReportLowers o ∨ ReportsLower os (s.report o)

theorem reports_drop (os : List Sent) (s : PmtuState) : Drops s (os.foldl report s) (ReportsLower os s) := by
  induction os generalizing s with
  | nil => exact drops_same rfl
  | cons o os ih => exact (report_drops s o).trans (ih (s.report o))

def DispatchLowers : List PmtuAction → List Sent → PmtuState → Prop
  | .sendProbe _ countsMiss :: acts, o :: outs, s =>
    s.ReportLowers o ∨ DispatchLowers acts outs
      (if countsMiss && o.udpSent then (s.report o).onCountedProbeSent else s.report o)
  | _ :: acts, outs, s => DispatchLowers acts outs s
  | [], _, _ => False

theorem dispatch_drops (acts : List PmtuAction) (outs : List Sent) (s : PmtuState) :
    Drops s (dispatch acts outs s) (DispatchLowers acts outs s) := by
  induction acts, outs, s using dispatch.induct with
  | case1 len countsMiss acts o outs s s' ih =>
    refine (report_drops s o).trans ?_
    refine ((drops_same ?_).trans ih).congr (by rw [false_or])
    split_ifs <;> rfl
  | case2 a acts outs s h ih =>
    rw [dispatch, DispatchLowers]
    · exact ih
    · exact h
    · exact h
  | case3 outs s => exact drops_same rfl

end PmtuState

namespace TunnelMtu

open PmtuState

inductive Event
  | udpProbeReply (len now : ℕ)
  | tryTx (udp : Option TryUdp) (mtu : Option TryMtu)
  | mtuInfo (udpRxLen : Option ℕ) (now : ℕ) (newMtu : Option ℕ)
  | emsgsize (atLen : ℕ)
  | udpUnreachable
  | handshakeDone
  | becameUnreachable
  | pmtuCap (cap now : ℕ)
  | recentLen (len : ℕ)
deriving DecidableEq, Repr

def step (f : ProbeStep) (p : TunnelMtu) : Event → Option TunnelMtu
  | .udpProbeReply len now => some (p.udpProbeH len now)
  | .tryTx udp mtu => p.tryTx f udp mtu
  | .mtuInfo udpRxLen now newMtu => some (p.onMtuInfo udpRxLen now newMtu)
  | .emsgsize atLen => some (p.handleUdpEmsgsize atLen)
  | .udpUnreachable => some p.handleUdpUnreachable
  | .handshakeDone => some p.handshakeDone
  | .becameUnreachable => some p.becameUnreachable
  | .pmtuCap cap now => some (p.pmtuCap cap now)
  | .recentLen len => some (p.recentLen len)

def run (f : ProbeStep) (evs : List Event) (p : TunnelMtu) : Option TunnelMtu := evs.foldlM (step f) p

def Mirrored (p : TunnelMtu) : Prop := ∀ v, p.handle = some v → v = p.minmtu

/-- The state in which `try_udp` sends its reply. -/
def udpState (p : TunnelMtu) (u : TryUdp) : PmtuState := (p.revalidate u).pmtu.getD (.new u.now MTU)

def UdpLowers (p : TunnelMtu) (u : TryUdp) : Prop :=
  (∃ o, u.reply = some o ∧ (p.udpState u).udpConfirmed = true ∧ (p.udpState u).ReportLowers o) ∨
    requestDue u (gratuitous u (p.udpState u)) = true ∧ ReportsLower (requests u) (gratuitous u (p.udpState u))

/-- The tick lowers `minmtu`, or one of its probes is reported too long and does. -/
def MtuLowers (f : ProbeStep) (p : TunnelMtu) (a : TryMtu) : Prop :=
  (p.seed a).udpConfirmed = true ∧ ((p.seed a).TickLowers a.now a.pinginterval ∨
    ∃ acts s, (p.seed a).tick f a.now a.pinginterval = some (acts, s) ∧ DispatchLowers acts a.outs s)

def Lowers (f : ProbeStep) (p : TunnelMtu) : Event → Prop
  | .emsgsize atLen => ∃ s, p.pmtu = some s ∧ s.CapLowers atLen
  | .tryTx udp mtu => (∃ u, udp = some u ∧ p.UdpLowers u) ∨
      ∃ a, mtu = some a ∧ MtuLowers f ((udp.map p.tryUdp).getD p) a
  | _ => False

theorem gratuitous_drops (u : TryUdp) (s : PmtuState) :
    Drops s (gratuitous u s) (∃ o, u.reply = some o ∧ s.udpConfirmed = true ∧ s.ReportLowers o) := by
  rw [gratuitous]
  cases ho : u.reply with
  | none => exact (drops_same rfl).congr (by simp)
  | some o =>
    dsimp only
    split_ifs with hc
    · have hdrop : Drops s _ (s.ReportLowers o) := report_drops { s with maxrecentlen := 0 } o
      exact hdrop.congr (by simp [hc])
    · exact (drops_same rfl).congr (by simp [hc])

theorem probeUdp_drops (u : TryUdp) (s : PmtuState) :
    Drops s (probeUdp u s) (requestDue u s = true ∧ ReportsLower (requests u) s) := by
  rw [probeUdp]
  split_ifs with hdue
  · refine ((reports_drop (requests u) s).trans (drops_same ?_)).congr (by simp [hdue])
    rw [onUdpProbeAttempt]
    split_ifs <;> rfl
  · exact (drops_same rfl).congr (by simp [hdue])

/-- What lowers `minmtu` is what makes the copy stale. -/
theorem mirrored_drops {p : TunnelMtu} (h : p.Mirrored) {s s' : PmtuState} {c : Prop} (hs : s.minmtu = p.minmtu)
    (hdrop : Drops s s' c) : Mirrored { p with pmtu := some s' } ↔ ¬ (p.handle.isSome ∧ c) := by
  cases hv : p.handle with
  | none => simp [Mirrored]
  | some v =>
    have hval := h v hv
    simp only [Mirrored, Option.some.injEq, forall_eq', Option.isSome_some, true_and, ← hdrop.2]
    show v = s'.minmtu ↔ _
    omega

theorem Mirrored.revalidate {p : TunnelMtu} (h : p.Mirrored) (u : TryUdp) : (p.revalidate u).Mirrored := by
  rw [TunnelMtu.revalidate]
  split_ifs with hstale
  · -- a stale path was confirmed, so the timeout takes effect
    obtain ⟨s, hs, hc⟩ := (Option.any_eq_true _ _).1 hstale
    have hconf : s.udpConfirmed = true := by
      simp only [udpTimedOut, udpNeedsColdRevalidation, Bool.or_eq_true, Bool.and_eq_true] at hc
      rcases hc with hc | hc
      · exact hc.1.1
      · exact hc.1.1
    intro v hv
    obtain ⟨_, -, rfl⟩ := Option.map_eq_some_iff.1 hv
    simp [minmtu, hs, onUdpTimeout, hconf]
  · exact h

theorem revalidate_isSome (p : TunnelMtu) (u : TryUdp) : (p.revalidate u).handle.isSome = p.handle.isSome := by
  rw [revalidate]
  split_ifs
  · simp
  · rfl

theorem getD_minmtu (p : TunnelMtu) {s : PmtuState} (hs : s.minmtu = 0) : (p.pmtu.getD s).minmtu = p.minmtu := by
  rw [minmtu]
  cases p.pmtu with
  | none => exact hs
  | some s' => rfl

theorem tryUdp_drops (p : TunnelMtu) (u : TryUdp) :
    ∃ s, p.tryUdp u = { p.revalidate u with pmtu := some s } ∧ Drops (p.udpState u) s (p.UdpLowers u) :=
  ⟨_, rfl, (gratuitous_drops u (p.udpState u)).trans (probeUdp_drops u (gratuitous u (p.udpState u)))⟩

theorem seed_minmtu (p : TunnelMtu) (a : TryMtu) : (p.seed a).minmtu = p.minmtu := by
  rw [← getD_minmtu p (s := .new a.now a.initialMaxmtu) rfl, seed]
  split_ifs <;> rfl

theorem tryMtu_drops (f : ProbeStep) (p : TunnelMtu) (a : TryMtu) :
    ∃ s, p.tryMtu f a = some { p with pmtu := some s } ∧ Drops (p.seed a) s (MtuLowers f p a) := by
  rw [tryMtu]
  split_ifs with hc
  · obtain ⟨acts, s, htick, hdrop⟩ := tick_drops f (p.seed a) a.now a.pinginterval
    refine ⟨_, by rw [htick]; rfl, (hdrop.trans (dispatch_drops acts a.outs s)).congr ?_⟩
    simp [MtuLowers, hc, htick]
  · exact ⟨_, rfl, (drops_same rfl).congr (by simp [MtuLowers, hc])⟩

theorem tryTx_mirrored (f : ProbeStep) {p : TunnelMtu} (h : p.Mirrored) (udp : Option TryUdp) (mtu : Option TryMtu) :
    ∃ p', p.tryTx f udp mtu = some p' ∧ (p'.Mirrored ↔ ¬ (p.handle.isSome ∧ p.Lowers f (.tryTx udp mtu))) := by
  cases udp with
  | none =>
    cases mtu with
    | none => exact ⟨p, rfl, iff_of_true h (by simp [Lowers])⟩
    | some a =>
      obtain ⟨s, hrun, hdrop⟩ := tryMtu_drops f p a
      refine ⟨_, hrun, (mirrored_drops h (seed_minmtu p a) hdrop).trans ?_⟩
      simp [Lowers]
  | some u =>
    obtain ⟨s₁, hudp, hdrop₁⟩ := tryUdp_drops p u
    have hmirror := fun {s c} => @mirrored_drops _ (h.revalidate u) (p.udpState u) s c (getD_minmtu _ rfl)
    rw [revalidate_isSome] at hmirror
    cases mtu with
    | none =>
      refine ⟨p.tryUdp u, rfl, ?_⟩
      rw [hudp, hmirror hdrop₁]
      simp [Lowers]
    | some a =>
      obtain ⟨s₂, hrun, hdrop₂⟩ := tryMtu_drops f (p.tryUdp u) a
      refine ⟨_, hrun, ?_⟩
      -- the tick starts from what `try_udp` left
      have hseed : ((p.tryUdp u).seed a).minmtu = s₁.minmtu := by
        rw [seed_minmtu, hudp]
        rfl
      have hdrop₂' : Drops s₁ s₂ (MtuLowers f (p.tryUdp u) a) := by
        rw [Drops, ← hseed]
        exact hdrop₂
      have hstate : ({ p.tryUdp u with pmtu := some s₂ } : TunnelMtu) = { p.revalidate u with pmtu := some s₂ } := by
        rw [hudp]
      rw [hstate, hmirror (hdrop₁.trans hdrop₂')]
      simp [Lowers]

theorem publish_mirrored (p : TunnelMtu) : p.publish.Mirrored := by
  intro v hv
  obtain ⟨_, -, rfl⟩ := Option.map_eq_some_iff.1 hv
  rfl

theorem Mirrored.of_eq {p p' : TunnelMtu} (h : p.Mirrored) (hmin : p'.minmtu = p.minmtu) (hhandle : p'.handle = p.handle) :
    p'.Mirrored := by
  intro v hv
  rw [hmin]
  exact h v (hhandle ▸ hv)

theorem map_minmtu {p : TunnelMtu} {g : PmtuState → PmtuState} (hg : ∀ s, (g s).minmtu = s.minmtu) :
    minmtu { p with pmtu := p.pmtu.map g } = p.minmtu := by
  rw [minmtu, minmtu]
  cases p.pmtu with
  | none => rfl
  | some s => exact hg s

theorem Mirrored.applyMetaUdpConfirm {p : TunnelMtu} (h : p.Mirrored) (len now : ℕ) :
    (p.applyMetaUdpConfirm len now).Mirrored := by
  rw [TunnelMtu.applyMetaUdpConfirm]
  cases hp : p.pmtu with
  | none => exact h
  | some s =>
    dsimp only
    split_ifs with hok
    · exact publish_mirrored _
    · refine h.of_eq ?_ rfl
      -- refused, so nothing but the phase may have changed
      have hping : s.pingSent = false := by
        simp only [onMetaAck, rewind_ite_pingSent] at hok
        cases hs : s.pingSent with
        | false => rfl
        | true => simp [hs] at hok
      simp only [minmtu, hp, Option.map_some, Option.getD_some]
      simp only [onMetaAck, rewind_ite_pingSent, hping]
      show (if _ then _ else _ : PmtuState).minmtu = _
      split_ifs <;> rfl

theorem step_mirrored (f : ProbeStep) {p : TunnelMtu} (h : p.Mirrored) (e : Event) :
    ∃ p', p.step f e = some p' ∧ (p'.Mirrored ↔ ¬ (p.handle.isSome ∧ p.Lowers f e)) := by
  cases e with
  | tryTx udp mtu => exact tryTx_mirrored f h udp mtu
  | emsgsize atLen =>
    refine ⟨_, rfl, ?_⟩
    cases hp : p.pmtu with
    | none => exact iff_of_true (h.of_eq (by simp [minmtu, handleUdpEmsgsize, hp]) rfl) (by simp [Lowers, hp])
    | some s =>
      have hstate : p.handleUdpEmsgsize atLen = { p with pmtu := some (s.onEmsgsize atLen).2 } := by
        simp [handleUdpEmsgsize, hp]
      rw [hstate, mirrored_drops h (by simp [minmtu, hp]) (onEmsgsize_drops s atLen)]
      simp [Lowers, hp]
  | udpProbeReply len now => exact ⟨_, rfl, iff_of_true (publish_mirrored _) (by simp [Lowers])⟩
  | mtuInfo udpRxLen now newMtu =>
    refine ⟨_, rfl, iff_of_true ?_ (by simp [Lowers])⟩
    have hack : Mirrored (match udpRxLen with
        | some len => p.applyMetaUdpConfirm len now
        | none => p) := by
      cases udpRxLen with
      | none => exact h
      | some len => exact h.applyMetaUdpConfirm len now
    cases newMtu with
    | none => exact hack
    | some mtu => exact hack.of_eq (map_minmtu fun _ => rfl) rfl
  | udpUnreachable => exact ⟨_, rfl, iff_of_true (h.of_eq (map_minmtu fun _ => rfl) rfl) (by simp [Lowers])⟩
  | handshakeDone => exact ⟨_, rfl, iff_of_true (fun v hv => (Option.some.inj hv).symm) (by simp [Lowers])⟩
  | becameUnreachable => exact ⟨_, rfl, iff_of_true (fun v hv => by cases hv) (by simp [Lowers])⟩
  | pmtuCap cap now =>
    refine ⟨_, rfl, iff_of_true (h.of_eq ?_ rfl) (by simp [Lowers])⟩
    exact getD_minmtu p (s := .new now (min cap MTU)) rfl
  | recentLen len =>
    refine ⟨_, rfl, iff_of_true (h.of_eq (map_minmtu fun s => ?_) rfl) (by simp [Lowers])⟩
    split_ifs <;> rfl

def fresh : TunnelMtu := ⟨none, none⟩

theorem run_concat (f : ProbeStep) (evs : List Event) (e : Event) (p : TunnelMtu) :
    run f (evs ++ [e]) p = (run f evs p).bind fun p => p.step f e := by
  rw [run, List.foldlM_append]
  simp only [List.foldlM_cons, List.foldlM_nil, bind_pure]
  rfl

theorem step_returns (f : ProbeStep) (p : TunnelMtu) (e : Event) : ∃ p', p.step f e = some p' := by
  cases e with
  | tryTx udp mtu =>
    cases mtu with
    | none => exact ⟨_, rfl⟩
    | some a =>
      obtain ⟨s, hrun, -⟩ := tryMtu_drops f ((udp.map p.tryUdp).getD p) a
      refine ⟨{ (udp.map p.tryUdp).getD p with pmtu := some s }, ?_⟩
      rw [← hrun]
      cases udp <;> rfl
  | _ => exact ⟨_, rfl⟩

theorem run_returns (f : ProbeStep) (evs : List Event) (p : TunnelMtu) : ∃ p', p.run f evs = some p' := by
  induction evs using List.reverseRecOn with
  | nil => exact ⟨p, rfl⟩
  | append_singleton evs e ih =>
    obtain ⟨p₁, hrun⟩ := ih
    obtain ⟨p₂, hstep⟩ := step_returns f p₁ e
    exact ⟨p₂, by rw [run_concat, hrun]; exact hstep⟩

/-- In every run the copy has the tunnel's `minmtu` after each event, just as long as no event meets a tunnel with
handles and lowers `minmtu` in a tick or for a report of `EMSGSIZE`. -/
theorem run_mirrored_iff (f : ProbeStep) (evs : List Event) : (∃ p, fresh.run f evs = some p) ∧
    ((∀ pre p, pre <+: evs → fresh.run f pre = some p → p.Mirrored) ↔
      ∀ pre e p, pre ++ [e] <+: evs → fresh.run f pre = some p → ¬ (p.handle.isSome ∧ p.Lowers f e)) := by
  refine ⟨run_returns f evs fresh, fun hall pre e p hpre hrun => ?_, fun hall pre => ?_⟩
  · have hmirror := hall pre p ((List.prefix_append pre [e]).trans hpre) hrun
    obtain ⟨p', hstep, hiff⟩ := step_mirrored f hmirror e
    exact hiff.1 (hall _ p' hpre (by rw [run_concat, hrun]; exact hstep))
  · induction pre using List.reverseRecOn with
    | nil =>
      intro p _ hrun
      obtain rfl := Option.some.inj hrun
      intro v hv
      cases hv
    | append_singleton pre e ih =>
      intro p' hpre hrun
      rw [run_concat] at hrun
      obtain ⟨p, hp, hstep⟩ := Option.bind_eq_some_iff.1 hrun
      have hmirror := ih p ((List.prefix_append pre [e]).trans hpre) hp
      obtain ⟨p'', hstep', hiff⟩ := step_mirrored f hmirror e
      obtain rfl := Option.some.inj (hstep.symm.trans hstep')
      exact hiff.2 (hall pre e p hpre hp)

def quietTick (now : ℕ) : Event := .tryTx none (some ⟨now, 10000000, MTU, [⟨true, none⟩, ⟨true, none⟩]⟩)

/-- A report of `EMSGSIZE`, and a decrease of the path MTU that the tick detects: the copy keeps the old value. -/
theorem stale_minmtu :
    (fresh.run PmtuState.Trial.widest [.handshakeDone, .udpProbeReply 1400 0, .emsgsize 1300]).map
      (fun p => (p.handle, p.minmtu)) = some (some 1400, 1299) ∧
    (fresh.run PmtuState.Trial.widest [.handshakeDone, .udpProbeReply 1518 0, quietTick 10000000, quietTick 11000000,
      quietTick 12000000, quietTick 13000000]).map (fun p => (p.handle, p.minmtu)) = some (some 1518, 0) := by
  constructor <;> decide +kernel

end TunnelMtu

end Tincr.Pmtu
