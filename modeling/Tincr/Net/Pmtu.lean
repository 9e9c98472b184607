import Mathlib

/-!
Path MTU discovery of one node. `minmtu` is what a probe is known to have passed with, `maxmtu` what may still
pass, `mtu` what discovery settled on; replies, late ones too, raise the first, and `EMSGSIZE` lowers the
second. Instants and durations are microseconds, and `duration_since` is zero where it would be negative.
-/

namespace Tincr.Pmtu

def MTU : ℕ := 1518

def MINMTU : ℕ := 512

def MIN_PROBE_SIZE : ℕ := 18

def PROBES_PER_CYCLE : ℕ := 8

def PMTU_PROBE_TICK : ℕ := 333333

def PMTU_REVALIDATE_TICK : ℕ := 1000000

inductive PmtuPhase
  | discovery (sent : ℕ)
  | fix
  | steady
  | revalidate (misses : ℕ)
  | lost
deriving DecidableEq, Repr

namespace PmtuPhase

def isDiscoveryStart (p : PmtuPhase) : Bool := p = discovery 0

def isFixed : PmtuPhase → Bool
  | steady | revalidate _ | lost => true
  | discovery _ | fix => false

end PmtuPhase

structure PmtuState where
  mtu : ℕ
  minmtu : ℕ
  maxmtu : ℕ
  phase : PmtuPhase
  udpConfirmed : Bool
  pingSent : Bool
  udpProbeAttempted : Bool
  udpProbeAttemptedAt : ℕ
  udpPingSent : ℕ
  udpReplyRx : ℕ
  mtuPingSent : ℕ
  maxrecentlen : ℕ
  udpPingRtt : Option ℕ
deriving DecidableEq, Repr

inductive PmtuAction
  | sendProbe (len : ℕ) (countsMiss : Bool)
  | logFixed (mtu probes : ℕ)
  | logReset
  | logIncrease
deriving DecidableEq, Repr

/-- The exponential step of a probe over an interval, `interval ^ (multiplier * position / 7)` rounded: it does not
leave the interval. -/
structure ProbeStep where
  offset : ℕ → ℕ → Bool → ℕ
  le : ∀ interval position full, 0 < interval → offset interval position full ≤ interval

def probeSize (f : ProbeStep) (minmtu maxmtu sent : ℕ) : ℕ :=
  let minmtuEff := max minmtu MINMTU
  let interval := maxmtu - minmtuEff
  let cyclePosition := PROBES_PER_CYCLE - sent % PROBES_PER_CYCLE - 1
  minmtuEff + if 0 < interval then f.offset interval cyclePosition (maxmtu = MTU) else 0

namespace PmtuState

def new (now initialMaxmtu : ℕ) : PmtuState where
  mtu := 0
  minmtu := 0
  maxmtu := initialMaxmtu
  phase := .discovery 0
  udpConfirmed := false
  pingSent := false
  udpProbeAttempted := false
  udpProbeAttemptedAt := now
  udpPingSent := now
  udpReplyRx := now
  mtuPingSent := now
  maxrecentlen := 0
  udpPingRtt := none

def onUdpProbeAttempt (s : PmtuState) (now : ℕ) (sent : Bool) : PmtuState :=
  let s := { s with udpProbeAttempted := true, udpProbeAttemptedAt := now }
  if sent then { s with udpPingSent := now, pingSent := true } else s

def udpNeedsColdRevalidation (s : PmtuState) (now timeout : ℕ) : Bool :=
  s.udpConfirmed && !s.pingSent && decide (timeout ≤ now - s.udpReplyRx)

def udpTimedOut (s : PmtuState) (now timeout : ℕ) : Bool :=
  s.udpConfirmed && s.pingSent && decide (timeout ≤ now - s.udpPingSent)

def startDiscovery (s : PmtuState) : PmtuState := { s with phase := .discovery 0 }

/-- The probes that a report of `try_fix_mtu` counts; past discovery there is nothing to fix. -/
def fixProbes : PmtuPhase → Option ℕ
  | .discovery sent => some sent
  | .fix => some 20
  | .steady | .revalidate _ | .lost => none

def settled (s : PmtuState) : ℕ :=
  if s.maxmtu < s.minmtu then if MINMTU ≤ s.maxmtu then s.maxmtu else 0 else s.minmtu

def tryFixMtu (s : PmtuState) : List PmtuAction × PmtuState :=
  match fixProbes s.phase with
  | none => ([], s)
  | some probes =>
    if s.phase = .fix ∨ s.maxmtu ≤ s.minmtu then
      ([.logFixed s.settled probes],
        { s with minmtu := s.settled, maxmtu := s.settled, mtu := s.settled, phase := .steady })
    else ([], s)

def due (s : PmtuState) (now pinginterval : ℕ) : Bool :=
  match s.phase with
  | .discovery sent => sent = 0 || PMTU_PROBE_TICK ≤ now - s.mtuPingSent
  | .fix => PMTU_PROBE_TICK ≤ now - s.mtuPingSent
  | .steady => pinginterval ≤ now - s.mtuPingSent
  | .revalidate _ | .lost => PMTU_REVALIDATE_TICK ≤ now - s.mtuPingSent

def resetLost (s : PmtuState) : List PmtuAction × PmtuState :=
  if s.phase = .lost then ([.logReset], { s with phase := .discovery 0, minmtu := 0 }) else ([], s)

/-- The probes of `tick`; `none` is its `unreachable!` arm. -/
def probe (f : ProbeStep) (s : PmtuState) : Option (List PmtuAction × PmtuState) :=
  match s.phase with
  | .steady => some (.sendProbe (max s.maxmtu MIN_PROBE_SIZE) true ::
      if min (s.maxmtu + 1) 65535 < MTU then [.sendProbe (min (s.maxmtu + 1) 65535) false] else [], s)
  | .revalidate _ => some ([.sendProbe (max s.maxmtu MIN_PROBE_SIZE) true], s)
  | .lost | .fix => none
  | .discovery sent => some ([.sendProbe (max (probeSize f s.minmtu s.maxmtu sent) MIN_PROBE_SIZE) false],
      { s with phase := if 20 ≤ sent + 1 then .fix else .discovery (sent + 1) })

def tick (f : ProbeStep) (s : PmtuState) (now pinginterval : ℕ) : Option (List PmtuAction × PmtuState) :=
  if s.due now pinginterval then
    let (fixed, s) := tryFixMtu { s with mtuPingSent := now }
    let (lost, s) := s.resetLost
    (s.probe f).map fun (probes, s) => (fixed ++ lost ++ probes, s)
  else some ([], s)

def onCountedProbeSent (s : PmtuState) : PmtuState :=
  { s with phase := match s.phase with
      | .steady => .revalidate 1
      | .revalidate misses => if 2 ≤ misses then .lost else .revalidate (misses + 1)
      | phase => phase }

/-- The rewind to the steady state that both kinds of acknowledgement do. -/
def rewind (s : PmtuState) (now : ℕ) : PmtuState := { s with phase := .steady, mtuPingSent := now }

def onMetaAck (s : PmtuState) (len now : ℕ) : Bool × PmtuState :=
  let len := min len MTU
  let s := if s.phase.isFixed && decide (s.maxmtu ≤ len) then s.rewind now else s
  if !s.pingSent then (false, s)
  else (true, { s with
    udpConfirmed := true
    udpReplyRx := now
    maxmtu := if s.maxmtu < len then len else s.maxmtu
    minmtu := if MINMTU ≤ len ∧ s.minmtu < len then len else s.minmtu })

def measured (s : PmtuState) (now : ℕ) : PmtuState :=
  let s := if s.pingSent then { s with udpPingRtt := some (min (now - s.udpPingSent) (2 ^ 32 - 1)), pingSent := false }
    else s
  { s with udpConfirmed := true, udpReplyRx := now }

def onProbeReply (s : PmtuState) (len now : ℕ) : List PmtuAction × PmtuState :=
  let len := min len MTU
  let s := s.measured now
  if s.maxmtu < len then
    ([.logIncrease], { s with
      minmtu := if MINMTU ≤ len then len else 0, maxmtu := MTU, phase := .discovery 1 })
  else
    let s := if s.phase.isFixed && decide (len = s.maxmtu) then s.rewind now else s
    if MINMTU ≤ len ∧ s.minmtu < len then tryFixMtu { s with minmtu := len } else ([], s)

/-- The cap that `on_emsgsize` takes from the length of the datagram. -/
def emsgsizeLimit (atLen : ℕ) : ℕ := max (atLen - 1) MINMTU

def onEmsgsize (s : PmtuState) (atLen : ℕ) : List PmtuAction × PmtuState :=
  let mtu := emsgsizeLimit atLen
  tryFixMtu { s with
    maxmtu := if mtu < s.maxmtu then mtu else s.maxmtu
    mtu := if mtu < s.mtu then mtu else s.mtu }

def onUdpTimeout (s : PmtuState) : PmtuState :=
  if !s.udpConfirmed then s
  else { s.startDiscovery with
    udpConfirmed := false
    pingSent := false
    udpProbeAttempted := false
    udpPingRtt := none
    maxrecentlen := 0
    minmtu := 0
    maxmtu := MTU }

inductive Event
  | tick (now pinginterval : ℕ)
  | countedProbeSent
  | metaAck (len now : ℕ)
  | probeReply (len now : ℕ)
  | emsgsize (atLen : ℕ)
  | udpTimeout
  | tryFixMtu
  | udpProbeAttempt (now : ℕ) (sent : Bool)
deriving DecidableEq, Repr

def handle (f : ProbeStep) (s : PmtuState) : Event → Option (List PmtuAction × PmtuState)
  | .tick now pinginterval => s.tick f now pinginterval
  | .countedProbeSent => some ([], s.onCountedProbeSent)
  | .metaAck len now => some ([], (s.onMetaAck len now).2)
  | .probeReply len now => some (s.onProbeReply len now)
  | .emsgsize atLen => some (s.onEmsgsize atLen)
  | .udpTimeout => some ([], s.onUdpTimeout)
  | .tryFixMtu => some s.tryFixMtu
  | .udpProbeAttempt now sent => some ([], s.onUdpProbeAttempt now sent)

def Within (v : ℕ) : Prop := v = 0 ∨ MINMTU ≤ v ∧ v ≤ MTU

structure Bounded (s : PmtuState) : Prop where
  minmtu : Within s.minmtu
  mtu : Within s.mtu
  maxmtu : s.maxmtu ≤ MTU
  sent : ∀ n, s.phase = .discovery n → n < 20

/-- What the network said since discovery last started: the probe lengths that were acknowledged and the limits from
`EMSGSIZE`, and whether an acknowledgement over the meta connection went over `maxmtu` without a restart. -/
structure Learnt where
  acked : List ℕ
  limits : List ℕ
  overruled : Bool
deriving DecidableEq, Repr

namespace Learnt

def start : Learnt := ⟨[], [], false⟩

def restarted (s : PmtuState) : Event → List PmtuAction → Bool
  | .udpTimeout, _ => s.udpConfirmed
  | _, acts => decide (.logReset ∈ acts ∨ .logIncrease ∈ acts)

/-- The event adds to what was learnt, after a restart to nothing. -/
def after (k : Learnt) (s : PmtuState) (e : Event) (acts : List PmtuAction) : Learnt :=
  let k := if restarted s e acts then start else k
  match e with
  | .probeReply len _ => { k with acked := k.acked ++ [len] }
  | .metaAck len _ =>
    if s.pingSent then
      { k with acked := k.acked ++ [len], overruled := k.overruled || decide (s.maxmtu < min len MTU) }
    else k
  | .emsgsize atLen => { k with limits := k.limits ++ [emsgsizeLimit atLen] }
  | _ => k

def Backs (k : Learnt) (m : ℕ) : Prop :=
  m = 0 ∨ (∃ a ∈ k.acked, m ≤ a) ∧ (k.overruled = false → ∀ l ∈ k.limits, m ≤ l)

end Learnt

/-- The lower bound was acknowledged, and the upper one respects the limits. -/
structure Justified (s : PmtuState) (k : Learnt) : Prop where
  acked : s.minmtu = 0 ∨ ∃ a ∈ k.acked, s.minmtu ≤ a
  limits : k.overruled = false → ∀ l ∈ k.limits, s.maxmtu ≤ l

structure Kept (acts : List PmtuAction) (s : PmtuState) (k : Learnt) : Prop where
  bounded : s.Bounded
  justified : s.Justified k
  backed : ∀ m probes, .logFixed m probes ∈ acts → k.Backs m

section Fix

variable {s : PmtuState} {k : Learnt}

theorem settled_le_minmtu (s : PmtuState) : s.settled ≤ s.minmtu := by
  unfold settled
  split_ifs <;> omega

theorem settled_le_maxmtu (s : PmtuState) : s.settled ≤ s.maxmtu := by
  unfold settled
  split_ifs <;> omega

theorem settled_eq_iff : s.settled = s.minmtu ↔ s.minmtu ≤ s.maxmtu := by
  unfold settled
  split_ifs <;> omega

theorem Bounded.settled (h : s.Bounded) : Within s.settled := by
  obtain ⟨hmin, -, hmax, -⟩ := h
  unfold PmtuState.settled
  split_ifs with hlt hfloor
  · exact .inr ⟨hfloor, hmax⟩
  · exact .inl rfl
  · exact hmin

/-- Discovery is over: it sent all its probes, or nothing is left between the bounds. -/
def Converged (s : PmtuState) : Prop := s.phase = .fix ∨ (∃ sent, s.phase = .discovery sent) ∧ s.maxmtu ≤ s.minmtu

theorem tryFixMtu_cases (s : PmtuState) :
    (s.tryFixMtu = ([], s) ∧ ¬ s.Converged) ∨
      ∃ probes, s.Converged ∧ s.tryFixMtu = ([.logFixed s.settled probes],
        { s with minmtu := s.settled, maxmtu := s.settled, mtu := s.settled, phase := .steady }) := by
  cases hphase : s.phase with
  | steady | revalidate misses => exact .inl ⟨by rw [tryFixMtu, hphase]; rfl, by simp [Converged, hphase]⟩
  | lost => exact .inl ⟨by rw [tryFixMtu, hphase]; rfl, by simp [Converged, hphase]⟩
  | fix => exact .inr ⟨20, .inl hphase, by rw [tryFixMtu, hphase]; exact if_pos (.inl rfl)⟩
  | discovery sent =>
    by_cases hle : s.maxmtu ≤ s.minmtu
    · exact .inr ⟨sent, .inr ⟨⟨sent, hphase⟩, hle⟩, by rw [tryFixMtu, hphase]; exact if_pos (.inr hle)⟩
    · refine .inl ⟨?_, by simp [Converged, hphase, hle]⟩
      rw [tryFixMtu, hphase]
      exact if_neg (by simp [hle])

theorem Justified.settled (hj : s.Justified k) : k.Backs s.settled := by
  have hmin := settled_le_minmtu s
  have hmax := settled_le_maxmtu s
  rcases hj.acked with hzero | ⟨a, ha, hle⟩
  · exact .inl (by omega)
  · exact .inr ⟨⟨a, ha, hmin.trans hle⟩, fun hover l hl => hmax.trans (hj.limits hover l hl)⟩

theorem tryFixMtu_kept (h : s.Bounded) (hj : s.Justified k) :
    Kept s.tryFixMtu.1 s.tryFixMtu.2 k := by
  rcases tryFixMtu_cases s with ⟨hrun, -⟩ | ⟨probes, -, hrun⟩ <;> rw [hrun]
  · exact ⟨h, hj, fun m probes hm => by cases hm⟩
  · refine ⟨⟨h.settled, h.settled, ?_, by simp⟩, ⟨?_, fun hover l hl => ?_⟩, fun m probes' hm => ?_⟩
    · exact (settled_le_maxmtu s).trans h.maxmtu
    · rcases hj.settled with hzero | ⟨hacked, -⟩
      · exact .inl hzero
      · exact .inr hacked
    · exact (settled_le_maxmtu s).trans (hj.limits hover l hl)
    · obtain ⟨rfl, -⟩ : m = s.settled ∧ probes' = probes := by simpa using hm
      exact hj.settled

/-- Actions that do not start discovery again. -/
def Quiet (acts : List PmtuAction) : Prop := ∀ a ∈ acts, a ≠ .logReset ∧ a ≠ .logIncrease

theorem tryFixMtu_quiet (s : PmtuState) : Quiet s.tryFixMtu.1 := by
  intro a ha
  rcases tryFixMtu_cases s with ⟨hrun, -⟩ | ⟨_, -, hrun⟩ <;> rw [hrun] at ha <;> simp at ha
  simp [ha]

theorem Quiet.restarted {acts : List PmtuAction} (h : Quiet acts) {e : Event} (he : e ≠ .udpTimeout) :
    Learnt.restarted s e acts = false := by
  have hnot : ¬ (.logReset ∈ acts ∨ .logIncrease ∈ acts) := by
    rintro (hmem | hmem)
    · exact (h _ hmem).1 rfl
    · exact (h _ hmem).2 rfl
  cases e <;> first | exact (he rfl).elim | simpa [Learnt.restarted] using hnot

end Fix

section Tick

variable {f : ProbeStep} {s : PmtuState} {k : Learnt}

theorem probe_spec (hfix : s.phase ≠ .fix) (hlost : s.phase ≠ .lost) :
    ∃ probes phase, s.probe f = some (probes, { s with phase := phase }) ∧ (∀ n, phase = .discovery n → n < 20) ∧
      ∀ a ∈ probes, ∃ len countsMiss, a = .sendProbe len countsMiss := by
  cases hphase : s.phase with
  | fix => exact (hfix hphase).elim
  | lost => exact (hlost hphase).elim
  | steady =>
    refine ⟨_, s.phase, show s.probe f = some (_, s) by rw [probe, hphase], by simp [hphase], ?_⟩
    intro a ha
    split_ifs at ha <;> simp at ha
    · rcases ha with rfl | rfl <;> exact ⟨_, _, rfl⟩
    · exact ⟨_, _, ha⟩
  | revalidate misses => exact ⟨_, s.phase, show s.probe f = some (_, s) by rw [probe, hphase], by simp [hphase], by simp⟩
  | discovery sent =>
    refine ⟨_, _, by rw [probe, hphase], fun n hn => ?_, by simp⟩
    split_ifs at hn
    obtain rfl := PmtuPhase.discovery.inj hn
    omega

/-- A tick waits, starts discovery again, or fixes what there is to fix and sends its probes. -/
theorem tick_cases (f : ProbeStep) (s : PmtuState) (now pinginterval : ℕ) :
    (s.due now pinginterval = false ∧ s.tick f now pinginterval = some ([], s)) ∨
      (s.due now pinginterval = true ∧ s.phase = .lost ∧ s.tick f now pinginterval = some
        ([.logReset, .sendProbe (max (probeSize f 0 s.maxmtu 0) MIN_PROBE_SIZE) false],
          { s with mtuPingSent := now, minmtu := 0, phase := .discovery 1 })) ∨
      (s.due now pinginterval = true ∧ s.phase ≠ .lost ∧ ∃ probes phase,
        (tryFixMtu { s with mtuPingSent := now }).2.probe f =
          some (probes, { (tryFixMtu { s with mtuPingSent := now }).2 with phase := phase }) ∧
        (∀ n, phase = .discovery n → n < 20) ∧ (∀ a ∈ probes, ∃ len countsMiss, a = .sendProbe len countsMiss) ∧
        s.tick f now pinginterval = some ((tryFixMtu { s with mtuPingSent := now }).1 ++ probes,
          { (tryFixMtu { s with mtuPingSent := now }).2 with phase := phase })) := by
  cases hdue : s.due now pinginterval with
  | false => exact .inl ⟨rfl, by rw [tick, hdue]; rfl⟩
  | true =>
    refine .inr ?_
    by_cases hlost : s.phase = .lost
    · refine .inl ⟨rfl, hlost, ?_⟩
      simp only [tick, hdue, if_true, resetLost, hlost]
      rfl
    · refine .inr ⟨rfl, hlost, ?_⟩
      generalize hfixed : tryFixMtu { s with mtuPingSent := now } = fixed
      have hphase : fixed.2.phase ≠ .fix ∧ fixed.2.phase ≠ .lost := by
        rw [← hfixed]
        rcases tryFixMtu_cases { s with mtuPingSent := now } with ⟨hrun, hnot⟩ | ⟨_, -, hrun⟩ <;> rw [hrun]
        · exact ⟨fun hfix => hnot (.inl hfix), hlost⟩
        · simp
      obtain ⟨probes, phase, hprobe, hsent, hall⟩ := @probe_spec f _ hphase.1 hphase.2
      refine ⟨probes, phase, hprobe, hsent, hall, ?_⟩
      simp only [tick, hdue, if_true, hfixed, resetLost, if_neg hphase.2, hprobe, Option.map_some, List.append_nil]

theorem tick_kept (f : ProbeStep) (h : s.Bounded) (hj : s.Justified k) (now pinginterval : ℕ) :
    ∃ acts s', s.tick f now pinginterval = some (acts, s') ∧ Kept acts s' (k.after s (.tick now pinginterval) acts) := by
  rcases tick_cases f s now pinginterval with
    ⟨-, hrun⟩ | ⟨-, -, hrun⟩ | ⟨-, -, probes, phase, -, hsent, hall, hrun⟩
  · exact ⟨_, _, hrun, h, hj, fun m probes hm => by cases hm⟩
  · refine ⟨_, _, hrun, ⟨.inl rfl, h.mtu, h.maxmtu, by simp⟩, ⟨.inl rfl, fun _ l hl => ?_⟩, by simp⟩
    simp [Learnt.after, Learnt.restarted, Learnt.start] at hl
  · obtain ⟨hb, hj', hbacked⟩ := @tryFixMtu_kept { s with mtuPingSent := now } k ⟨h.minmtu, h.mtu, h.maxmtu, h.sent⟩
      ⟨hj.acked, hj.limits⟩
    have hquiet : Quiet ((tryFixMtu { s with mtuPingSent := now }).1 ++ probes) := by
      intro a ha
      rcases List.mem_append.1 ha with ha | ha
      · exact tryFixMtu_quiet _ a ha
      · obtain ⟨len, countsMiss, rfl⟩ := hall a ha
        simp
    have hsame : k.after s (.tick now pinginterval) ((tryFixMtu { s with mtuPingSent := now }).1 ++ probes) = k := by
      simp [Learnt.after, hquiet.restarted]
    refine ⟨_, _, hrun, ?_⟩
    rw [hsame]
    refine ⟨⟨hb.minmtu, hb.mtu, hb.maxmtu, hsent⟩, ⟨hj'.acked, hj'.limits⟩, fun m p hm => ?_⟩
    rcases List.mem_append.1 hm with hm | hm
    · exact hbacked m p hm
    · obtain ⟨len, countsMiss, heq⟩ := hall _ hm
      cases heq

end Tick

section Events

variable {s : PmtuState} {k : Learnt}

theorem countedProbeSent_kept (h : s.Bounded) (hj : s.Justified k) : Kept [] s.onCountedProbeSent k := by
  refine ⟨⟨h.minmtu, h.mtu, h.maxmtu, fun n hn => h.sent n ?_⟩, ⟨hj.acked, hj.limits⟩, by simp⟩
  simp only [onCountedProbeSent] at hn
  split at hn
  · cases hn
  · split_ifs at hn
  · exact hn

theorem Justified.ack (hj : s.Justified k) (len : ℕ) : s.Justified { k with acked := k.acked ++ [len] } := by
  refine ⟨?_, hj.limits⟩
  rcases hj.acked with hzero | ⟨a, ha, hle⟩
  · exact .inl hzero
  · exact .inr ⟨a, List.mem_append_left _ ha, hle⟩

/-- The rewind changes nothing that is bounded or has to be justified. -/
theorem rewind_ite (h : s.Bounded) (hj : s.Justified k) (c : Bool) (now : ℕ) :
    Bounded (if c then s.rewind now else s) ∧ Justified (if c then s.rewind now else s) k := by
  cases c
  · exact ⟨h, hj⟩
  · exact ⟨⟨h.minmtu, h.mtu, h.maxmtu, by simp [rewind]⟩, hj.acked, hj.limits⟩

theorem rewind_ite_pingSent (s : PmtuState) (c : Bool) (now : ℕ) :
    (if c then s.rewind now else s).pingSent = s.pingSent := by
  cases c <;> rfl

theorem rewind_ite_maxmtu (s : PmtuState) (c : Bool) (now : ℕ) :
    (if c then s.rewind now else s).maxmtu = s.maxmtu := by
  cases c <;> rfl

theorem metaAck_kept (h : s.Bounded) (hj : s.Justified k) (len now : ℕ) :
    Kept [] (s.onMetaAck len now).2 (k.after s (.metaAck len now) []) := by
  obtain ⟨h', hj'⟩ := rewind_ite h hj (s.phase.isFixed && decide (s.maxmtu ≤ min len MTU)) now
  have hping := rewind_ite_pingSent s (s.phase.isFixed && decide (s.maxmtu ≤ min len MTU)) now
  have hmax := rewind_ite_maxmtu s (s.phase.isFixed && decide (s.maxmtu ≤ min len MTU)) now
  simp only [onMetaAck]
  generalize (if (s.phase.isFixed && decide (s.maxmtu ≤ min len MTU)) = true then s.rewind now else s) = r at *
  cases hp : s.pingSent with
  | false => simpa [Learnt.after, Learnt.restarted, hping, hp] using ⟨h', hj', by simp⟩
  | true =>
    have hlen := min_le_right len MTU
    have hacked := hj'.ack len
    simp only [hping, hp, Learnt.after, Learnt.restarted, Bool.not_true, Bool.false_eq_true, if_false, if_true,
      List.not_mem_nil, or_self, decide_false]
    refine ⟨⟨?_, h'.mtu, ?_, h'.sent⟩, ⟨?_, fun hover l hl => ?_⟩, by simp⟩ <;> dsimp only
    · split_ifs with hraise
      · exact .inr ⟨hraise.1, hlen⟩
      · exact h'.minmtu
    · split_ifs
      · exact hlen
      · exact h'.maxmtu
    · split_ifs with hraise
      · exact .inr ⟨len, by simp, min_le_left len MTU⟩
      · exact hacked.acked
    · -- not overruled, so `maxmtu` stays
      have hboth : k.overruled = false ∧ ¬ r.maxmtu < min len MTU := by simpa [hmax] using hover
      rw [if_neg hboth.2]
      exact hj'.limits hboth.1 l hl

theorem emsgsize_kept (h : s.Bounded) (hj : s.Justified k) (atLen : ℕ) :
    Kept (s.onEmsgsize atLen).1 (s.onEmsgsize atLen).2 (k.after s (.emsgsize atLen) (s.onEmsgsize atLen).1) := by
  have hlimit : MINMTU ≤ emsgsizeLimit atLen := le_max_right _ _
  have hquiet : Quiet (s.onEmsgsize atLen).1 := tryFixMtu_quiet _
  simp only [Learnt.after, hquiet.restarted (show Event.emsgsize atLen ≠ .udpTimeout by simp)]
  refine tryFixMtu_kept ⟨h.minmtu, ?_, ?_, h.sent⟩ ⟨hj.acked, fun hover l hl => ?_⟩ <;> dsimp only
  · split_ifs with hlt
    · rcases h.mtu with hzero | ⟨-, hle⟩
      · omega
      · exact .inr ⟨hlimit, hlt.le.trans hle⟩
    · exact h.mtu
  · split_ifs with hlt
    · exact hlt.le.trans h.maxmtu
    · exact h.maxmtu
  · rcases List.mem_append.1 hl with hl | hl
    · have hle := hj.limits hover l hl
      split_ifs <;> omega
    · rw [List.mem_singleton.1 hl]
      split_ifs <;> omega

theorem probeReply_kept (h : s.Bounded) (hj : s.Justified k) (len now : ℕ) :
    Kept (s.onProbeReply len now).1 (s.onProbeReply len now).2
      (k.after s (.probeReply len now) (s.onProbeReply len now).1) := by
  have hlen := min_le_right len MTU
  simp only [onProbeReply]
  generalize hr : s.measured now = r
  -- the measurement leaves the bounds alone
  have hbase : r.Bounded ∧ r.Justified k := by
    rw [← hr, measured]
    split_ifs <;> exact ⟨⟨h.minmtu, h.mtu, h.maxmtu, h.sent⟩, hj.acked, hj.limits⟩
  by_cases hover : r.maxmtu < min len MTU
  · have hafter : k.after s (.probeReply len now) [.logIncrease] = ⟨[len], [], false⟩ := by
      simp [Learnt.after, Learnt.restarted, Learnt.start]
    rw [if_pos hover]
    dsimp only
    rw [hafter]
    refine ⟨⟨?_, hbase.1.mtu, le_rfl, by simp⟩, ⟨?_, by simp⟩, by simp⟩ <;> dsimp only
    · split_ifs with hfloor
      · exact .inr ⟨hfloor, hlen⟩
      · exact .inl rfl
    · split_ifs
      · exact .inr ⟨len, by simp, min_le_left len MTU⟩
      · exact .inl rfl
  · rw [if_neg hover]
    obtain ⟨h', hj'⟩ := rewind_ite hbase.1 hbase.2 (r.phase.isFixed && decide (min len MTU = r.maxmtu)) now
    generalize (if (r.phase.isFixed && decide (min len MTU = r.maxmtu)) = true then r.rewind now else r) = r' at *
    have hacked := hj'.ack len
    split_ifs with hraise
    · simp only [Learnt.after, (tryFixMtu_quiet _).restarted (show Event.probeReply len now ≠ .udpTimeout by simp)]
      refine tryFixMtu_kept ⟨.inr ⟨hraise.1, hlen⟩, h'.mtu, h'.maxmtu, h'.sent⟩ ⟨?_, hj'.limits⟩
      exact .inr ⟨len, by simp, min_le_left len MTU⟩
    · exact ⟨h', by simpa [Learnt.after, Learnt.restarted] using hacked, by simp⟩

theorem udpTimeout_kept (h : s.Bounded) (hj : s.Justified k) : Kept [] s.onUdpTimeout (k.after s .udpTimeout []) := by
  cases hc : s.udpConfirmed with
  | false => simpa [onUdpTimeout, Learnt.after, Learnt.restarted, hc] using ⟨h, hj, by simp⟩
  | true =>
    simp only [onUdpTimeout, Learnt.after, Learnt.restarted, hc, Bool.not_true, Bool.false_eq_true, if_false, if_true]
    refine ⟨⟨.inl rfl, h.mtu, le_rfl, fun n hn => ?_⟩, ⟨.inl rfl, by simp [Learnt.start]⟩, by simp⟩
    obtain rfl : 0 = n := PmtuPhase.discovery.inj hn
    omega

end Events

/-- One event keeps it all, and the `unreachable!` arm is not reached. -/
theorem handle_kept (f : ProbeStep) {s : PmtuState} {k : Learnt} (h : s.Bounded) (hj : s.Justified k) (e : Event) :
    ∃ acts s', s.handle f e = some (acts, s') ∧ Kept acts s' (k.after s e acts) := by
  cases e with
  | tick now pinginterval => exact tick_kept f h hj now pinginterval
  | countedProbeSent => exact ⟨_, _, rfl, countedProbeSent_kept h hj⟩
  | metaAck len now => exact ⟨_, _, rfl, metaAck_kept h hj len now⟩
  | probeReply len now => exact ⟨_, _, rfl, probeReply_kept h hj len now⟩
  | emsgsize atLen => exact ⟨_, _, rfl, emsgsize_kept h hj atLen⟩
  | udpTimeout => exact ⟨_, _, rfl, udpTimeout_kept h hj⟩
  | tryFixMtu =>
    have hsame : k.after s .tryFixMtu s.tryFixMtu.1 = k := by
      simp [Learnt.after, (tryFixMtu_quiet s).restarted (show Event.tryFixMtu ≠ .udpTimeout by simp)]
    exact ⟨s.tryFixMtu.1, s.tryFixMtu.2, rfl, by rw [hsame]; exact tryFixMtu_kept h hj⟩
  | udpProbeAttempt now sent =>
    refine ⟨_, _, rfl, ?_, ?_, by simp⟩ <;> rw [onUdpProbeAttempt] <;> split_ifs
    · exact ⟨h.minmtu, h.mtu, h.maxmtu, h.sent⟩
    · exact ⟨h.minmtu, h.mtu, h.maxmtu, h.sent⟩
    · exact ⟨hj.acked, hj.limits⟩
    · exact ⟨hj.acked, hj.limits⟩

def Event.keepalive : Event → Bool
  | .udpProbeAttempt _ sent => sent
  | _ => false

theorem tryFixMtu_pingSent (s : PmtuState) : s.tryFixMtu.2.pingSent = s.pingSent := by
  rcases tryFixMtu_cases s with ⟨hrun, -⟩ | ⟨_, -, hrun⟩ <;> rw [hrun]

theorem handle_pingSent {f : ProbeStep} {s s' : PmtuState} {e : Event} {acts : List PmtuAction}
    (hrun : s.handle f e = some (acts, s')) (he : e.keepalive = false) (h : s.pingSent = false) : s'.pingSent = false := by
  cases e with
  | tick now pinginterval =>
    rcases tick_cases f s now pinginterval with
      ⟨-, htick⟩ | ⟨-, -, htick⟩ | ⟨-, -, probes, phase, -, -, -, htick⟩ <;> rw [handle, htick] at hrun <;> cases hrun
    · exact h
    · exact h
    · exact (tryFixMtu_pingSent _).trans h
  | countedProbeSent => cases hrun; exact h
  | metaAck len now =>
    cases hrun
    simp only [onMetaAck, rewind_ite_pingSent, h]
    exact (rewind_ite_pingSent s _ now).trans h
  | probeReply len now =>
    obtain rfl : (s.onProbeReply len now).2 = s' := congrArg Prod.snd (Option.some.inj hrun)
    have hmeasured : (s.measured now).pingSent = false := by
      rw [measured]
      split_ifs
      · rfl
      · exact h
    simp only [onProbeReply]
    split_ifs <;> first | exact hmeasured | exact (tryFixMtu_pingSent _).trans hmeasured
  | emsgsize atLen =>
    obtain rfl : (s.onEmsgsize atLen).2 = s' := congrArg Prod.snd (Option.some.inj hrun)
    exact (tryFixMtu_pingSent _).trans h
  | udpTimeout =>
    cases hrun
    rw [onUdpTimeout]
    split_ifs
    · exact h
    · rfl
  | tryFixMtu =>
    obtain rfl : s.tryFixMtu.2 = s' := congrArg Prod.snd (Option.some.inj hrun)
    exact (tryFixMtu_pingSent s).trans h
  | udpProbeAttempt now sent =>
    cases hrun
    obtain rfl : sent = false := he
    exact h

def fixedValues (acts : List PmtuAction) : List ℕ :=
  acts.filterMap fun
    | .logFixed mtu _ => some mtu
    | _ => none

/-- A run: the state, what was learnt, and the values reported as fixed, each with what was learnt by then. -/
structure Trial where
  state : PmtuState
  learnt : Learnt
  fixed : List (ℕ × Learnt)
deriving DecidableEq, Repr

namespace Trial

def start (now initialMaxmtu : ℕ) : Trial := ⟨.new now initialMaxmtu, .start, []⟩

def step (f : ProbeStep) (t : Trial) (e : Event) : Option Trial :=
  (t.state.handle f e).map fun (acts, s) =>
    ⟨s, t.learnt.after t.state e acts, t.fixed ++ (fixedValues acts).map fun m => (m, t.learnt.after t.state e acts)⟩

def run (f : ProbeStep) (evs : List Event) (t : Trial) : Option Trial := evs.foldlM (step f) t

structure Sound (t : Trial) : Prop where
  bounded : t.state.Bounded
  justified : t.state.Justified t.learnt
  backed : ∀ p ∈ t.fixed, p.2.Backs p.1

structure Calm (t : Trial) : Prop where
  pingSent : t.state.pingSent = false
  learnt : t.learnt.overruled = false
  fixed : ∀ p ∈ t.fixed, p.2.overruled = false

variable {f : ProbeStep} {t t' : Trial} {e : Event}

theorem sound_start (now : ℕ) {initialMaxmtu : ℕ} (h : initialMaxmtu ≤ MTU) : (start now initialMaxmtu).Sound := by
  refine ⟨⟨.inl rfl, .inl rfl, h, fun n hn => ?_⟩, ⟨.inl rfl, by simp [start, Learnt.start]⟩, by simp [start]⟩
  obtain rfl : 0 = n := PmtuPhase.discovery.inj hn
  omega

theorem step_sound (f : ProbeStep) (h : t.Sound) (e : Event) : ∃ t', t.step f e = some t' ∧ t'.Sound := by
  obtain ⟨acts, s, hrun, hkept⟩ := handle_kept f h.bounded h.justified e
  refine ⟨_, by rw [step, hrun]; rfl, hkept.bounded, hkept.justified, fun p hp => ?_⟩
  rcases List.mem_append.1 hp with hp | hp
  · exact h.backed p hp
  · obtain ⟨m, hm, rfl⟩ := List.mem_map.1 hp
    obtain ⟨a, ha, hval⟩ := List.mem_filterMap.1 hm
    cases a <;> cases hval
    exact hkept.backed _ _ ha

theorem run_sound (f : ProbeStep) (h : t.Sound) (evs : List Event) : ∃ t', t.run f evs = some t' ∧ t'.Sound := by
  induction evs generalizing t with
  | nil => exact ⟨t, rfl, h⟩
  | cons e evs ih =>
    obtain ⟨t₁, hstep, hsound⟩ := step_sound f h e
    obtain ⟨t₂, hrun, hsound₂⟩ := ih hsound
    exact ⟨t₂, by rw [run, List.foldlM_cons, hstep]; exact hrun, hsound₂⟩

theorem step_calm (hstep : t.step f e = some t') (he : e.keepalive = false) (h : t.Calm) : t'.Calm := by
  obtain ⟨⟨acts, s⟩, hrun, rfl⟩ := Option.map_eq_some_iff.1 hstep
  have hlearnt : (t.learnt.after t.state e acts).overruled = false := by
    have hreset : (if Learnt.restarted t.state e acts then Learnt.start else t.learnt).overruled = false := by
      split_ifs
      · rfl
      · exact h.learnt
    cases e <;> simp [Learnt.after, hreset, h.pingSent]
  refine ⟨handle_pingSent hrun he h.pingSent, hlearnt, fun p hp => ?_⟩
  rcases List.mem_append.1 hp with hp | hp
  · exact h.fixed p hp
  · obtain ⟨m, -, rfl⟩ := List.mem_map.1 hp
    exact hlearnt

theorem run_calm {evs : List Event} (hrun : t.run f evs = some t') (hevs : ∀ e ∈ evs, e.keepalive = false)
    (h : t.Calm) : t'.Calm := by
  induction evs generalizing t with
  | nil =>
    obtain rfl := Option.some.inj hrun
    exact h
  | cons e evs ih =>
    rw [run, List.foldlM_cons] at hrun
    obtain ⟨t₁, hstep, hrun⟩ := Option.bind_eq_some_iff.1 hrun
    exact ih hrun (fun e he => hevs e (List.mem_cons_of_mem _ he)) (step_calm hstep (hevs e List.mem_cons_self) h)

/-- In every run the `unreachable!` arm is not reached, the bounds stay in their ranges, and a value that is reported
as fixed is zero or was acknowledged and is within the limits from `EMSGSIZE`. Once keepalives are out, an
acknowledgement over the meta connection may raise `maxmtu` over such a limit; nothing else does. -/
theorem run_fixed_backed (f : ProbeStep) (now : ℕ) {initialMaxmtu : ℕ} (h : initialMaxmtu ≤ MTU) (evs : List Event) :
    ∃ t, (start now initialMaxmtu).run f evs = some t ∧ Within t.state.minmtu ∧ Within t.state.mtu ∧
      t.state.maxmtu ≤ MTU ∧ ∀ p ∈ t.fixed, p.1 = 0 ∨ (∃ a ∈ p.2.acked, p.1 ≤ a) ∧
        ((∀ e ∈ evs, e.keepalive = false) ∨ p.2.overruled = false → ∀ l ∈ p.2.limits, p.1 ≤ l) := by
  obtain ⟨t, hrun, hsound⟩ := run_sound f (sound_start now h) evs
  refine ⟨t, hrun, hsound.bounded.minmtu, hsound.bounded.mtu, hsound.bounded.maxmtu, fun p hp => ?_⟩
  rcases hsound.backed p hp with hzero | ⟨hacked, hlimits⟩
  · exact .inl hzero
  · refine .inr ⟨hacked, fun hcalm => hlimits ?_⟩
    rcases hcalm with hevs | hover
    · exact (run_calm hrun hevs ⟨rfl, rfl, by simp [start]⟩).fixed p hp
    · exact hover

def widest : ProbeStep := ⟨fun interval _ _ => interval, fun _ _ _ _ => le_rfl⟩

theorem run_fixed_backed_capped : ∃ t, (start 0 MTU).run widest
      [.tick 0 10, .probeReply 1400 5, .emsgsize 1300, .countedProbeSent, .emsgsize 1200] = some t ∧
    t.fixed.map (·.1) = [1299] ∧ Within t.state.minmtu ∧ Within t.state.mtu ∧ t.state.maxmtu ≤ MTU ∧
    ∀ p ∈ t.fixed, p.1 = 0 ∨ (∃ a ∈ p.2.acked, p.1 ≤ a) ∧ ∀ l ∈ p.2.limits, p.1 ≤ l := by
  obtain ⟨t, hrun, hmin, hmtu, hmax, hfixed⟩ := run_fixed_backed widest 0 (le_refl MTU)
    [.tick 0 10, .probeReply 1400 5, .emsgsize 1300, .countedProbeSent, .emsgsize 1200]
  have hvalues : ((start 0 MTU).run widest [.tick 0 10, .probeReply 1400 5, .emsgsize 1300, .countedProbeSent,
      .emsgsize 1200]).map (fun t => t.fixed.map (·.1)) = some [1299] := by decide
  rw [hrun] at hvalues
  refine ⟨t, hrun, Option.some.inj hvalues, hmin, hmtu, hmax, fun p hp => ?_⟩
  rcases hfixed p hp with hzero | ⟨hacked, hlimits⟩
  · exact .inl hzero
  · exact .inr ⟨hacked, hlimits (.inl (by decide))⟩

/-- With a keepalive out, a late acknowledgement over the meta connection goes over the limit. -/
example : ((start 0 MTU).run widest [.udpProbeAttempt 0 true, .emsgsize 1400, .metaAck 1450 1, .tick 2 10]).map
    (fun t => t.fixed) = some [(1450, ⟨[1450], [1399], true⟩)] := by decide

end Trial

section Probes

variable {f : ProbeStep} {s s' : PmtuState} {acts : List PmtuAction}

theorem probeSize_le (f : ProbeStep) {minmtu maxmtu : ℕ} (hmin : minmtu ≤ MTU) (hmax : maxmtu ≤ MTU) (sent : ℕ) :
    probeSize f minmtu maxmtu sent ≤ MTU := by
  have heff : max minmtu MINMTU ≤ MTU := max_le hmin (by decide)
  simp only [probeSize]
  split_ifs with hpos
  · have hle := f.le _ (PROBES_PER_CYCLE - sent % PROBES_PER_CYCLE - 1) (decide (maxmtu = MTU)) hpos
    omega
  · exact heff

def InRange (acts : List PmtuAction) : Prop :=
  ∀ len countsMiss, .sendProbe len countsMiss ∈ acts → MIN_PROBE_SIZE ≤ len ∧ len ≤ MTU

theorem Bounded.minmtu_le (h : s.Bounded) : s.minmtu ≤ MTU := by
  rcases h.minmtu with hzero | ⟨-, hle⟩
  · omega
  · exact hle

theorem max_inRange {len : ℕ} (h : len ≤ MTU) : MIN_PROBE_SIZE ≤ max len MIN_PROBE_SIZE ∧ max len MIN_PROBE_SIZE ≤ MTU :=
  ⟨le_max_right _ _, max_le h (by decide)⟩

/-- The probe for an increase is the one that is not raised to the smallest size. -/
theorem probe_inRange (h : s.Bounded) (hrun : s.probe f = some (acts, s')) :
    InRange acts ↔ ¬ (s.phase = .steady ∧ s.maxmtu + 1 < MIN_PROBE_SIZE) := by
  have hmax := h.maxmtu
  cases hphase : s.phase with
  | lost | fix => rw [probe, hphase] at hrun; cases hrun
  | steady =>
    rw [probe, hphase] at hrun
    obtain ⟨rfl, -⟩ := Prod.mk.inj (Option.some.inj hrun)
    have hsat : min (s.maxmtu + 1) 65535 = s.maxmtu + 1 := min_eq_left (by unfold MTU at hmax; omega)
    rw [hsat]
    constructor
    · rintro hall ⟨-, hlow⟩
      have hroom : s.maxmtu + 1 < MTU := hlow.trans (by decide)
      rw [if_pos hroom] at hall
      have := (hall (s.maxmtu + 1) false (by simp)).1
      omega
    · intro hnot len countsMiss hmem
      rcases List.mem_cons.1 hmem with heq | hmem
      · obtain ⟨rfl, -⟩ := PmtuAction.sendProbe.inj heq
        exact max_inRange hmax
      · split_ifs at hmem with hroom
        · obtain ⟨rfl, -⟩ := PmtuAction.sendProbe.inj (List.mem_singleton.1 hmem)
          exact ⟨not_lt.1 fun hlow => hnot ⟨rfl, hlow⟩, hroom.le⟩
        · cases hmem
  | revalidate misses =>
    rw [probe, hphase] at hrun
    obtain ⟨rfl, -⟩ := Prod.mk.inj (Option.some.inj hrun)
    refine iff_of_true (fun len countsMiss hmem => ?_) (by simp)
    obtain ⟨rfl, -⟩ := PmtuAction.sendProbe.inj (List.mem_singleton.1 hmem)
    exact max_inRange hmax
  | discovery sent =>
    rw [probe, hphase] at hrun
    obtain ⟨rfl, -⟩ := Prod.mk.inj (Option.some.inj hrun)
    refine iff_of_true (fun len countsMiss hmem => ?_) (by simp)
    obtain ⟨rfl, -⟩ := PmtuAction.sendProbe.inj (List.mem_singleton.1 hmem)
    exact max_inRange (probeSize_le f h.minmtu_le hmax sent)

/-- A tick would find, or bring about, the steady state with an upper bound that leaves no room for a probe. -/
def SteadyLow (s : PmtuState) : Prop :=
  s.phase = .steady ∧ s.maxmtu + 1 < MIN_PROBE_SIZE ∨ s.Converged ∧ s.settled + 1 < MIN_PROBE_SIZE

theorem steadyLow_iff (s : PmtuState) (now : ℕ) : s.SteadyLow ↔
    (tryFixMtu { s with mtuPingSent := now }).2.phase = .steady ∧
      (tryFixMtu { s with mtuPingSent := now }).2.maxmtu + 1 < MIN_PROBE_SIZE := by
  rcases tryFixMtu_cases { s with mtuPingSent := now } with ⟨hrun, hnot⟩ | ⟨_, hconv, hrun⟩ <;> rw [hrun]
  · have hnot' : ¬ s.Converged := hnot
    simp [SteadyLow, hnot']
  · have hconv' : s.Converged := hconv
    have hphase : s.phase ≠ .steady := by
      rcases hconv' with hfix | ⟨⟨sent, hsent⟩, -⟩
      · simp [hfix]
      · simp [hsent]
    have hsettled : settled { s with mtuPingSent := now } = s.settled := rfl
    simp [SteadyLow, hconv', hphase, hsettled]

/-- A tick in any run: its probes are in range unless discovery is fixed below the smallest probe, where the probe for
an increase is too short. -/
theorem tick_probes_iff (f : ProbeStep) (start : ℕ) {initialMaxmtu : ℕ} (h : initialMaxmtu ≤ MTU) {evs : List Event}
    {t : Trial} (hrun : (Trial.start start initialMaxmtu).run f evs = some t) (now pinginterval : ℕ) :
    ∃ acts s', t.state.tick f now pinginterval = some (acts, s') ∧
      ((∀ len countsMiss, .sendProbe len countsMiss ∈ acts → MIN_PROBE_SIZE ≤ len ∧ len ≤ MTU) ↔
        ¬ (t.state.due now pinginterval = true ∧ t.state.SteadyLow)) := by
  obtain ⟨t', hrun', hsound⟩ := Trial.run_sound f (Trial.sound_start start h) evs
  obtain rfl := Option.some.inj (hrun.symm.trans hrun')
  rcases tick_cases f t.state now pinginterval with
    ⟨hdue, htick⟩ | ⟨-, hlost, htick⟩ | ⟨hdue, -, probes, phase, hprobe, -, -, htick⟩
  · exact ⟨_, _, htick, iff_of_true (by simp) (by simp [hdue])⟩
  · refine ⟨_, _, htick, iff_of_true (fun len countsMiss hmem => ?_) ?_⟩
    · rcases List.mem_cons.1 hmem with heq | hmem
      · cases heq
      rw [(PmtuAction.sendProbe.inj (List.mem_singleton.1 hmem)).1]
      exact max_inRange (probeSize_le f (Nat.zero_le _) hsound.bounded.maxmtu 0)
    · simp [SteadyLow, Converged, hlost]
  · have hkept := @tryFixMtu_kept { t.state with mtuPingSent := now } t.learnt
      ⟨hsound.bounded.minmtu, hsound.bounded.mtu, hsound.bounded.maxmtu, hsound.bounded.sent⟩
      ⟨hsound.justified.acked, hsound.justified.limits⟩
    refine ⟨_, _, htick, ?_⟩
    rw [hdue, steadyLow_iff t.state now, eq_self_iff_true, true_and, ← probe_inRange hkept.bounded hprobe]
    constructor
    · exact fun hall len countsMiss hmem => hall len countsMiss (List.mem_append_right _ hmem)
    · intro hall len countsMiss hmem
      rcases List.mem_append.1 hmem with hmem | hmem
      · -- the report is not a probe
        rcases tryFixMtu_cases { t.state with mtuPingSent := now } with ⟨hfix, -⟩ | ⟨_, -, hfix⟩ <;>
          rw [hfix] at hmem <;> simp at hmem
      · exact hall len countsMiss hmem

/-- UDP is confirmed by a reply that is too short to count, and no probe of discovery is answered. -/
def unanswered : List Event :=
  .probeReply 18 0 :: (List.range 20).map fun i => .tick (400000 * i) 10000000

theorem tick_probes_iff_unanswered : ∃ t acts s', (Trial.start 0 MTU).run Trial.widest unanswered = some t ∧
    t.state.tick Trial.widest 8000000 10000000 = some (acts, s') ∧
    ((∀ len countsMiss, .sendProbe len countsMiss ∈ acts → MIN_PROBE_SIZE ≤ len ∧ len ≤ MTU) ↔
      ¬ (t.state.due 8000000 10000000 = true ∧ t.state.SteadyLow)) := by
  obtain ⟨t, hrun, -⟩ := Trial.run_sound Trial.widest (Trial.sound_start 0 (le_refl MTU)) unanswered
  obtain ⟨acts, s', htick, hiff⟩ := tick_probes_iff Trial.widest 0 (le_refl MTU) hrun 8000000 10000000
  exact ⟨t, acts, s', hrun, htick, hiff⟩

/-- Discovery is fixed at zero, and the probe for an increase has one byte. -/
theorem tick_short_probe : ((Trial.start 0 MTU).run Trial.widest unanswered).bind
    (fun t => (t.state.tick Trial.widest 8000000 10000000).map (·.1)) =
      some [.logFixed 0 20, .sendProbe 18 true, .sendProbe 1 false] := by decide +kernel

end Probes

end PmtuState

end Tincr.Pmtu
