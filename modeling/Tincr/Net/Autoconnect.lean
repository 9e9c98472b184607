import Tincr.Lib.Sorted
import Tincr.Net.Links

/-!
The decision which connections to make and to drop. Shortcuts to peers that much traffic is relayed for are counted in
two snapshots, of the connections past their ACK and of the slots without any connection. A slot whose dial is under
way is in neither, so the cap on shortcuts holds in runs in which no tick comes while a shortcut is being dialled.
-/

namespace Tincr.Net

open Links

inductive AutoAction
  | connect (name : String) (origin : OutOrigin)
  | disconnect (name : String) (origin : OutOrigin)
  | cancelPending (name : String)
  | noop
deriving DecidableEq

structure NodeSnapshot where
  name : String
  reachable : Bool
  hasAddress : Bool
  hasDhtKey : Bool
  directlyConnected : Bool
  edgeCount : ℕ
  relayRateBps : ℕ
  txRateBps : ℕ
  nexthop : Option String
  backoffUntil : Option ℕ

/-- The age is missing where the connection has not been activated, which counts as very old. -/
structure OutgoingSnapshot where
  name : String
  origin : OutOrigin
  age : Option ℕ

structure ShortcutKnobs where
  dLo : ℕ
  dShortcut : ℕ
  dHi : ℕ
  relayHiBps : ℕ
  relayLoBps : ℕ
  minHold : ℕ

abbrev SHORTCUT_BACKOFF : ℕ := 60000000000

def ShortcutKnobs.default : ShortcutKnobs where
  dLo := 3
  dShortcut := 2
  dHi := 6
  relayHiBps := 32768
  relayLoBps := 4096
  minHold := SHORTCUT_BACKOFF

namespace Autoconnect

section Decide

variable (myself : String) (nodes : List NodeSnapshot) (active pending : List OutgoingSnapshot) (knobs : ShortcutKnobs)
  (now : ℕ) (r : UInt32)

def pick {α : Type} (as : List α) : Option α := as[r.toNat % as.length]?

def isPending (name : String) : Bool := pending.any (·.name == name)

def makeNewConnection : AutoAction :=
  let eligible := nodes.filter fun n =>
    n.name != myself && !n.directlyConnected && (n.hasAddress || n.hasDhtKey || n.reachable)
  match pick r eligible with
  | some n => if isPending pending n.name then .noop else .connect n.name .autoBackbone
  | none => .noop

def connectToUnreachable : AutoAction :=
  match pick r nodes with
  | some n =>
    if n.name == myself || n.directlyConnected || n.reachable || !(n.hasAddress || n.hasDhtKey) then .noop
    else if isPending pending n.name then .noop
    else .connect n.name .autoBackbone
  | none => .noop

def hotNexthops : List String :=
  (nodes.filter fun n => decide (knobs.relayLoBps < n.txRateBps)).filterMap (·.nexthop)

def held (o : OutgoingSnapshot) : Bool := o.age.all (knobs.minHold ≤ ·)

def dropSuperfluousOutgoing : AutoAction :=
  let droppable := active.filter fun o =>
    (o.origin != .autoShortcut || held knobs o) && !(hotNexthops nodes knobs).contains o.name &&
      (nodes.find? (·.name == o.name)).any (decide <| 2 ≤ ·.edgeCount)
  match pick r droppable with
  | some o => .disconnect o.name o.origin
  | none => .noop

def shortcutCount : ℕ := (active ++ pending).countP (·.origin == .autoShortcut)

def shortcutCandidates : List NodeSnapshot :=
  nodes.filter fun n =>
    n.name != myself && !n.directlyConnected && (n.hasAddress || n.hasDhtKey) &&
      decide (knobs.relayHiBps < n.relayRateBps) && n.backoffUntil.all (decide <| · ≤ now) && !isPending pending n.name

/-- The busiest one, by name if there are several, as `max_by` takes it. -/
def busiest : List NodeSnapshot → Option NodeSnapshot
  | [] => none
  | n :: ns => some (ns.foldl (fun a b =>
      if a.relayRateBps > b.relayRateBps ∨ (a.relayRateBps = b.relayRateBps ∧ b.name < a.name) then a else b) n)

def idleShortcuts : List OutgoingSnapshot :=
  active.filter fun o =>
    o.origin == .autoShortcut && held knobs o && !(hotNexthops nodes knobs).contains o.name &&
      (nodes.find? (·.name == o.name)).any fun n => decide (2 ≤ n.edgeCount) && decide (n.txRateBps < knobs.relayLoBps)

def nc : ℕ := nodes.countP fun n => n.directlyConnected && n.name != myself

def decideRest : AutoAction :=
  let dropped := if knobs.dHi < nc myself nodes then dropSuperfluousOutgoing nodes active knobs r else .noop
  if dropped ≠ .noop then dropped
  else
    match if knobs.dLo < nc myself nodes then pick r (idleShortcuts nodes active knobs) else none with
    | some o => .disconnect o.name .autoShortcut
    | none =>
      match pending.find? (·.origin != .autoShortcut) with
      | some p => .cancelPending p.name
      | none => connectToUnreachable myself nodes pending r

def decideAction : AutoAction :=
  if nc myself nodes < knobs.dLo then makeNewConnection myself nodes pending r
  else
    let cand :=
      if shortcutCount active pending < knobs.dShortcut ∧ nc myself nodes < knobs.dHi then
        busiest (shortcutCandidates myself nodes pending knobs now)
      else none
    match cand with
    | some n => .connect n.name .autoShortcut
    | none => decideRest myself nodes active pending knobs r

end Decide

/-! ### The daemon -/

/-- What the graph, the traffic counters and the configuration say of a node. -/
structure NodeFacts where
  name : String
  reachable : Bool
  hasAddress : Bool
  hasDhtKey : Bool
  edgeCount : ℕ
  relayRateBps : ℕ
  txRateBps : ℕ
  nexthop : Option String

structure State extends Links where
  shortcutBackoff : List (String × ℕ)

def snapshot (s : State) (f : NodeFacts) : NodeSnapshot where
  name := f.name
  reachable := f.reachable
  hasAddress := f.hasAddress
  hasDhtKey := f.hasDhtKey
  directlyConnected := ((s.nodeConn.lookup f.name).bind s.conn).isSome
  edgeCount := f.edgeCount
  relayRateBps := f.relayRateBps
  txRateBps := f.txRateBps
  nexthop := f.nexthop
  backoffUntil := s.shortcutBackoff.lookup f.name

def activeOutgoing (s : Links) (now : ℕ) : List OutgoingSnapshot :=
  s.conns.filterMap fun (_, c) =>
    if c.active then
      c.outgoing.map fun oid =>
        { name := c.name
          origin := ((s.slot oid).map (·.origin)).getD .autoBackbone
          age := c.activatedAt.map (now - ·) }
    else none

def served (s : Links) (oid : ℕ) : Bool := s.conns.any fun (_, c) => c.outgoing == some oid

/-- Slots that no connection serves, not even one before its ACK. -/
def pendingOutgoing (s : Links) : List OutgoingSnapshot :=
  (s.outgoings.filter fun (oid, _) => !served s oid).map fun (_, o) => { name := o.nodeName, origin := o.origin, age := none }

/-- `decide_autoconnect`: the graph facts are given in the order of the names. -/
def decideAutoconnect (s : State) (facts : List NodeFacts) (knobs : ShortcutKnobs) (now : ℕ) (r : UInt32) :
    State × AutoAction :=
  let s := { s with shortcutBackoff := s.shortcutBackoff.filter fun entry => now < entry.2 }
  (s, decideAction s.name (facts.map (snapshot s)) (activeOutgoing s.toLinks now) (pendingOutgoing s.toLinks) knobs now r)

def stampBackoff (s : State) (name : String) (now : ℕ) : State :=
  { s with shortcutBackoff := (name, now + SHORTCUT_BACKOFF) :: s.shortcutBackoff.filter fun entry => entry.1 ≠ name }

def execute (s : State) (now : ℕ) (started : Bool) : AutoAction → State
  | .noop => s
  | .connect name origin =>
    if s.outgoings.any fun (_, o) => o.nodeName == name then s
    else { s with toLinks := (s.addSlot ⟨name, origin⟩).setupOutgoingConnection s.fresh started }
  | .disconnect name origin =>
    let s := if origin = .autoShortcut then stampBackoff s name now else s
    match s.conns.find? fun (_, c) => c.active && c.outgoing.isSome && c.name == name with
    | some (cid, c) =>
      -- the slot is taken off first, so that it is not dialled again
      let links := s.setConn cid { c with outgoing := none }
      let links := match c.outgoing with
        | some oid => links.dropSlot oid
        | none => links
      { s with toLinks := links.terminate cid started }
    | none => s
  | .cancelPending name =>
    let s := if s.outgoings.any fun (_, o) => o.nodeName == name && o.origin == .autoShortcut then stampBackoff s name now
      else s
    match s.outgoings.find? fun (_, o) => o.nodeName == name with
    | some (oid, _) => { s with toLinks := s.dropSlot oid }
    | none => s

inductive Event
  | tick (facts : List NodeFacts) (now : ℕ) (r : UInt32) (started : Bool)
  | accepted (name : String)
  | retry (oid : ℕ) (started : Bool)
  | acked (id now : ℕ) (redial : Bool)
  | closed (id : ℕ) (redial : Bool)

def step (knobs : ShortcutKnobs) (s : State) : Event → State
  | .tick facts now r started =>
    let (s, action) := decideAutoconnect s facts knobs now r
    execute s now started action
  | .accepted name => { s with toLinks := s.addConn { name := name, outgoing := none } }
  | .retry oid started => { s with toLinks := s.setupOutgoingConnection oid started }
  | .acked id now redial => { s with toLinks := s.onAck id now redial }
  | .closed id redial => { s with toLinks := s.terminate id redial }

def shortcuts (s : Links) : ℕ := s.outgoings.countP fun (_, o) => o.origin == .autoShortcut

/-! ### What the snapshots show -/

/-- A shortcut that some connection serves is served by one past its ACK. -/
def Visible (s : Links) : Prop :=
  ∀ e ∈ s.outgoings, e.2.origin = .autoShortcut → served s e.1 = true →
    ∃ c ∈ s.conns, c.2.active = true ∧ c.2.outgoing = some e.1

def activeSlots (s : Links) : List ℕ := s.conns.filterMap fun (_, c) => if c.active then c.outgoing else none

def isShortcut (s : Links) (oid : ℕ) : Bool := (s.slot oid).any (·.origin == .autoShortcut)

theorem countP_activeOutgoing (s : Links) (now : ℕ) :
    (activeOutgoing s now).countP (·.origin == .autoShortcut) = (activeSlots s).countP (isShortcut s) := by
  unfold activeOutgoing activeSlots
  induction s.conns with
  | nil => rfl
  | cons c conns ih =>
    obtain ⟨id, c⟩ := c
    rw [List.filterMap_cons, List.filterMap_cons]
    by_cases hactive : c.active = true
    · cases hout : c.outgoing with
      | none => simpa [hactive, hout] using ih
      | some oid =>
        have horigin : (((s.slot oid).map (·.origin)).getD .autoBackbone == .autoShortcut) = isShortcut s oid := by
          unfold isShortcut
          cases s.slot oid <;> rfl
        simp only [hactive, hout, if_true, Option.map_some, List.countP_cons, ih, horigin]
    · simpa [hactive] using ih

theorem countP_pendingOutgoing (s : Links) : (pendingOutgoing s).countP (·.origin == .autoShortcut) =
    s.outgoings.countP fun e => e.2.origin == .autoShortcut && !served s e.1 := by
  rw [pendingOutgoing, List.countP_map, List.countP_filter]
  rfl

theorem slot_of_mem {s : Links} {e : ℕ × Outgoing} (h : e ∈ s.outgoings) : s.slot e.1 = some e.2 :=
  List.lookup_of_mem s.nodup_slots h

/-- The shortcuts with a connection are among those counted, if they are visible. -/
theorem served_le {s : Links} (h : Visible s) : (s.outgoings.countP fun e => e.2.origin == .autoShortcut && served s e.1) ≤
    (activeSlots s).countP (isShortcut s) := by
  have hnodup : ((s.outgoings.filter fun e => e.2.origin == .autoShortcut && served s e.1).map Prod.fst).Nodup :=
    s.nodup_slots.sublist (List.filter_sublist.map _)
  have hsub : ((s.outgoings.filter fun e => e.2.origin == .autoShortcut && served s e.1).map Prod.fst) ⊆
      (activeSlots s).filter (isShortcut s) := by
    intro oid hoid
    obtain ⟨e, he, rfl⟩ := List.mem_map.1 hoid
    obtain ⟨hmem, hboth⟩ := List.mem_filter.1 he
    obtain ⟨hshort, hserved⟩ := (Bool.and_eq_true _ _).mp hboth
    obtain ⟨⟨id, c⟩, hc, hactive, hout⟩ := h e hmem (by simpa using hshort) hserved
    refine List.mem_filter.2 ⟨List.mem_filterMap.2 ⟨_, hc, ?_⟩, ?_⟩
    · exact (if_pos hactive).trans hout
    · simp only [isShortcut, slot_of_mem hmem]
      exact hshort
  have hle := (List.subperm_of_subset hnodup hsub).length_le
  rwa [List.length_map, ← List.countP_eq_length_filter, ← List.countP_eq_length_filter] at hle

/-- In a visible state the decision counts all shortcuts. -/
theorem shortcuts_le_shortcutCount {s : Links} (h : Visible s) (now : ℕ) :
    shortcuts s ≤ shortcutCount (activeOutgoing s now) (pendingOutgoing s) := by
  have hsplit : shortcuts s = (s.outgoings.countP fun e => e.2.origin == .autoShortcut && served s e.1) +
      s.outgoings.countP fun e => e.2.origin == .autoShortcut && !served s e.1 := by
    rw [shortcuts, List.countP_eq_countP_filter_add _ _ fun e => served s e.1, List.countP_filter, List.countP_filter]
  rw [shortcutCount, List.countP_append, countP_activeOutgoing, countP_pendingOutgoing, hsplit]
  exact Nat.add_le_add_right (served_le h) _

/-! ### What a decision does -/

section Arms

variable {myself : String} {nodes : List NodeSnapshot} {active pending : List OutgoingSnapshot} {knobs : ShortcutKnobs}
  {now : ℕ} {r : UInt32} {name : String}

theorem makeNewConnection_ne : makeNewConnection myself nodes pending r ≠ .connect name .autoShortcut := by
  unfold makeNewConnection
  dsimp only
  split
  · split_ifs <;> simp
  · simp

theorem connectToUnreachable_ne : connectToUnreachable myself nodes pending r ≠ .connect name .autoShortcut := by
  unfold connectToUnreachable
  split
  · split_ifs <;> simp
  · simp

theorem dropSuperfluousOutgoing_ne : dropSuperfluousOutgoing nodes active knobs r ≠ .connect name .autoShortcut := by
  unfold dropSuperfluousOutgoing
  dsimp only
  split <;> simp

theorem decideRest_ne : decideRest myself nodes active pending knobs r ≠ .connect name .autoShortcut := by
  have hdropped : (if knobs.dHi < nc myself nodes then dropSuperfluousOutgoing nodes active knobs r else .noop) ≠
      .connect name .autoShortcut := by
    split_ifs
    · exact dropSuperfluousOutgoing_ne
    · simp
  unfold decideRest
  dsimp only
  generalize (if knobs.dHi < nc myself nodes then dropSuperfluousOutgoing nodes active knobs r else .noop) = dropped
    at hdropped ⊢
  generalize (if knobs.dLo < nc myself nodes then pick r (idleShortcuts nodes active knobs) else none) = idle
  by_cases hnoop : dropped ≠ .noop
  · rw [if_pos hnoop]
    exact hdropped
  · rw [if_neg hnoop]
    cases idle with
    | some o => simp
    | none =>
      cases pending.find? (·.origin != .autoShortcut) with
      | some p => simp
      | none => exact connectToUnreachable_ne

/-- A shortcut is added only below the cap, as it is counted. -/
theorem shortcutCount_lt (h : decideAction myself nodes active pending knobs now r = .connect name .autoShortcut) :
    shortcutCount active pending < knobs.dShortcut := by
  unfold decideAction at h
  by_cases hfew : nc myself nodes < knobs.dLo
  · rw [if_pos hfew] at h
    exact absurd h makeNewConnection_ne
  · rw [if_neg hfew] at h
    by_contra hcap
    rw [if_neg fun hboth => hcap hboth.1] at h
    exact decideRest_ne h

end Arms

theorem shortcuts_of_sublist {s s' : Links} (h : s'.outgoings.Sublist s.outgoings) : shortcuts s' ≤ shortcuts s :=
  h.countP_le

theorem shortcuts_connect (s : State) (now : ℕ) (started : Bool) (name : String) (origin : OutOrigin) :
    shortcuts (execute s now started (.connect name origin)).toLinks ≤
      shortcuts s.toLinks + if origin = .autoShortcut then 1 else 0 := by
  by_cases hdup : (s.outgoings.any fun (_, o) => o.nodeName == name) = true
  · simp only [execute, if_pos hdup]
    exact Nat.le_add_right _ _
  · simp only [execute, if_neg hdup, shortcuts, outgoings_setupOutgoingConnection, addSlot, List.countP_append]
    refine Nat.add_le_add_left (le_of_eq ?_) _
    simp [List.countP_cons]

theorem toLinks_stamp (s : State) (now : ℕ) (name : String) (c : Prop) [Decidable c] :
    (if c then stampBackoff s name now else s).toLinks = s.toLinks := by
  split_ifs <;> rfl

theorem outgoings_execute (s : State) (now : ℕ) (started : Bool) {action : AutoAction}
    (h : ∀ name origin, action ≠ .connect name origin) :
    (execute s now started action).outgoings.Sublist s.outgoings := by
  cases action with
  | noop => exact List.Sublist.refl _
  | connect name origin => exact absurd rfl (h name origin)
  | disconnect name origin =>
    unfold execute
    dsimp only
    rw [← toLinks_stamp s now name (origin = .autoShortcut)]
    generalize (if origin = .autoShortcut then stampBackoff s name now else s) = t
    split
    · rw [outgoings_terminate]
      split
      · exact List.filter_sublist
      · exact List.Sublist.refl _
    · exact List.Sublist.refl _
  | cancelPending name =>
    unfold execute
    dsimp only
    generalize hc : (s.outgoings.any fun (_, o) => o.nodeName == name && o.origin == .autoShortcut) = c
    rw [← toLinks_stamp s now name (c = true)]
    generalize (if c = true then stampBackoff s name now else s) = t
    split
    · exact List.filter_sublist
    · exact List.Sublist.refl _

/-- A tick in a visible state keeps the cap. -/
theorem shortcuts_tick {knobs : ShortcutKnobs} {s : State} (hcap : shortcuts s.toLinks ≤ knobs.dShortcut)
    (hvisible : Visible s.toLinks) (facts : List NodeFacts) (now : ℕ) (r : UInt32) (started : Bool) :
    shortcuts (step knobs s (.tick facts now r started)).toLinks ≤ knobs.dShortcut := by
  unfold step
  dsimp only
  generalize hdecide : decideAutoconnect s facts knobs now r = decided
  obtain ⟨t, action⟩ := decided
  obtain ⟨ht, haction⟩ := Prod.ext_iff.1 hdecide
  -- forgetting old backoffs leaves the slots as they are
  have hlinks : t.toLinks = s.toLinks := (congrArg State.toLinks ht).symm
  by_cases hconnect : ∃ name origin, action = .connect name origin
  · obtain ⟨name, origin, rfl⟩ := hconnect
    have hadd := shortcuts_connect t now started name origin
    rw [hlinks] at hadd
    by_cases horigin : origin = .autoShortcut
    · subst horigin
      have hcount := (shortcuts_le_shortcutCount hvisible now).trans_lt (shortcutCount_lt haction)
      rw [if_pos rfl] at hadd
      exact hadd.trans hcount
    · rw [if_neg horigin] at hadd
      exact hadd.trans hcap
  · have hsub := outgoings_execute t now started fun name origin h => hconnect ⟨name, origin, h⟩
    exact (shortcuts_of_sublist (hlinks ▸ hsub)).trans hcap

theorem outgoings_step (knobs : ShortcutKnobs) (s : State) {event : Event}
    (h : ∀ facts now r started, event ≠ .tick facts now r started) :
    (step knobs s event).outgoings.Sublist s.outgoings := by
  cases event with
  | tick facts now r started => exact absurd rfl (h facts now r started)
  | accepted name => exact List.Sublist.refl _
  | retry oid started => exact (outgoings_setupOutgoingConnection _ _ _).symm ▸ List.Sublist.refl _
  | acked id now redial => exact outgoings_onAck _ _ _ _
  | closed id redial => exact (outgoings_terminate _ _ _).symm ▸ List.Sublist.refl _

/-- An event that is no tick, or a tick while no shortcut is being dialled. -/
def Event.Settled (s : State) : Event → Prop
  | .tick _ _ _ _ => Visible s.toLinks
  | _ => True

theorem shortcuts_step {knobs : ShortcutKnobs} {s : State} {event : Event}
    (hcap : shortcuts s.toLinks ≤ knobs.dShortcut) (hsettled : event.Settled s) :
    shortcuts (step knobs s event).toLinks ≤ knobs.dShortcut := by
  cases event with
  | tick facts now r started => exact shortcuts_tick hcap hsettled facts now r started
  | _ => exact (shortcuts_of_sublist (outgoings_step knobs s (by simp))).trans hcap

/-- The cap holds throughout a run whose ticks all come while no shortcut is being dialled. -/
theorem shortcuts_capped (knobs : ShortcutKnobs) (s : State) (events : List Event) (hstart : shortcuts s.toLinks = 0)
    (hsettled : ∀ (k : ℕ) (event : Event), events[k]? = some event → event.Settled ((events.take k).foldl (step knobs) s)) :
    ∀ k, shortcuts ((events.take k).foldl (step knobs) s).toLinks ≤ knobs.dShortcut := by
  intro k
  induction k with
  | zero => exact hstart.le.trans (Nat.zero_le _)
  | succ k ih =>
    rw [List.take_add_one]
    cases hevent : events[k]? with
    | none => simpa using ih
    | some event =>
      rw [Option.toList_some, List.foldl_append, List.foldl_cons, List.foldl_nil]
      exact shortcuts_step ih (hsettled k event hevent)

def empty : State :=
  { name := "me", conns := [], outgoings := [], nodeConn := [], fresh := 0, nodup_slots := List.nodup_nil,
    slots_lt := by simp, shortcutBackoff := [] }

/-- A peer that is reached through others, with this much traffic. -/
def relayed (name : String) (rate : ℕ) : NodeFacts :=
  { name := name, reachable := true, hasAddress := true, hasDhtKey := false, edgeCount := 2, relayRateBps := rate,
    txRateBps := 0, nexthop := some "a" }

def backbone : List Event :=
  [.accepted "a", .accepted "b", .accepted "c", .acked 0 0 false, .acked 1 0 false, .acked 2 0 false]

/-- A tick at which one peer is above the bound. -/
def tickFor (name : String) : Event :=
  .tick [relayed "a" 0, relayed "b" 0, relayed "c" 0, relayed name 100000] 5 0 true

instance (s : Links) : Decidable (Visible s) :=
  inferInstanceAs (Decidable (∀ e ∈ s.outgoings, e.2.origin = .autoShortcut → served s e.1 = true →
    ∃ c ∈ s.conns, c.2.active = true ∧ c.2.outgoing = some e.1))

instance (s : State) : DecidablePred (Event.Settled s)
  | .tick _ _ _ _ => inferInstanceAs (Decidable (Visible s.toLinks))
  | .accepted _ => isTrue trivial
  | .retry _ _ => isTrue trivial
  | .acked _ _ _ => isTrue trivial
  | .closed _ _ => isTrue trivial

def settledRun : List Event :=
  backbone ++ [tickFor "x", .acked 4 6 true, tickFor "y", .acked 6 6 true, tickFor "z"]

theorem settled_settledRun (k : ℕ) (event : Event) (h : settledRun[k]? = some event) :
    event.Settled ((settledRun.take k).foldl (step .default) empty) := by
  have hall : ∀ i : Fin settledRun.length,
      (settledRun.get i).Settled ((settledRun.take i.1).foldl (step .default) empty) := by decide +kernel
  obtain ⟨hk, rfl⟩ := List.getElem?_eq_some_iff.1 h
  exact hall ⟨k, hk⟩

theorem shortcuts_capped_settled : shortcuts empty.toLinks = 0 ∧
    ∀ k, shortcuts ((settledRun.take k).foldl (step .default) empty).toLinks ≤ ShortcutKnobs.default.dShortcut :=
  ⟨rfl, shortcuts_capped .default empty settledRun rfl settled_settledRun⟩

/-- Three ticks while the dials are under way, where two shortcuts are allowed. -/
theorem shortcuts_dialled : shortcuts empty.toLinks = 0 ∧ ShortcutKnobs.default.dShortcut = 2 ∧
    shortcuts ((backbone ++ [tickFor "x", tickFor "y", tickFor "z"]).foldl (step .default) empty).toLinks = 3 := by
  decide +kernel

/-! ### One slot for a node -/

def OnePerNode (s : Links) : Prop := (s.outgoings.map fun e => e.2.nodeName).Nodup

theorem onePerNode_execute {s : State} (h : OnePerNode s.toLinks) (now : ℕ) (started : Bool) (action : AutoAction) :
    OnePerNode (execute s now started action).toLinks := by
  by_cases hconnect : ∃ name origin, action = .connect name origin
  · obtain ⟨name, origin, rfl⟩ := hconnect
    unfold execute
    dsimp only
    split_ifs with hdup
    · exact h
    · rw [OnePerNode, outgoings_setupOutgoingConnection, addSlot, List.map_append, List.nodup_append]
      refine ⟨h, List.nodup_singleton _, ?_⟩
      rintro _ hold _ hnew rfl
      obtain ⟨e, he, rfl⟩ := List.mem_map.1 hold
      exact hdup (List.any_eq_true.2 ⟨e, he, by simpa using hnew⟩)
  · exact h.sublist ((outgoings_execute s now started fun name origin h => hconnect ⟨name, origin, h⟩).map _)

/-- In every run, however dials, retries and ticks interleave, no node is dialled for two slots. -/
theorem slots_distinct (knobs : ShortcutKnobs) (s : State) (events : List Event) (h : OnePerNode s.toLinks) :
    OnePerNode (events.foldl (step knobs) s).toLinks := by
  induction events generalizing s with
  | nil => exact h
  | cons event events ih =>
    refine ih _ ?_
    cases event with
    | tick facts now r started =>
      exact onePerNode_execute (s := (decideAutoconnect s facts knobs now r).1) h now started _
    | _ => exact h.sublist ((outgoings_step knobs s (by simp)).map _)

theorem slots_distinct_settledRun : OnePerNode empty.toLinks ∧ OnePerNode (settledRun.foldl (step .default) empty).toLinks :=
  ⟨List.nodup_nil, slots_distinct .default empty settledRun List.nodup_nil⟩

end Autoconnect

end Tincr.Net
