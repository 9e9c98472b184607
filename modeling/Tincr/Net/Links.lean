import Mathlib

/-!
Meta connections and the slots they are dialled for. A slot stays while its dials fail and are retried; a connection
carries the slot it serves. When a second connection to a node is acknowledged one of the two is closed, and the slot
of the closed one moves to the one that is kept.
-/

namespace Tincr.Net

inductive OutOrigin
  | configConnectTo
  | autoBackbone
  | autoShortcut
deriving DecidableEq

/-- A dial slot, without its addresses and its backoff. -/
structure Outgoing where
  nodeName : String
  origin : OutOrigin
deriving DecidableEq

/-- A connection whose peer has named itself, or that was dialled to it. -/
structure Connection where
  name : String
  outgoing : Option ℕ
  active : Bool := false
  activatedAt : Option ℕ := none
deriving DecidableEq

/-- The connections and slots of a daemon, by their keys, which are not used again, and the connection of each node. -/
structure Links where
  name : String
  conns : List (ℕ × Connection)
  outgoings : List (ℕ × Outgoing)
  nodeConn : List (String × ℕ)
  fresh : ℕ
  nodup_slots : (outgoings.map Prod.fst).Nodup
  slots_lt : ∀ e ∈ outgoings, e.1 < fresh

namespace Links

def conn (s : Links) (id : ℕ) : Option Connection := s.conns.lookup id

def slot (s : Links) (oid : ℕ) : Option Outgoing := s.outgoings.lookup oid

def setConn (s : Links) (id : ℕ) (c : Connection) : Links :=
  { s with conns := s.conns.map fun (i, c') => if i = id then (i, c) else (i, c') }

def addConn (s : Links) (c : Connection) : Links :=
  { s with
    conns := s.conns ++ [(s.fresh, c)]
    fresh := s.fresh + 1
    slots_lt e he := Nat.lt_succ_of_lt (s.slots_lt e he) }

def dropConn (s : Links) (id : ℕ) : Links := { s with conns := s.conns.filter fun (i, _) => i ≠ id }

def addSlot (s : Links) (o : Outgoing) : Links :=
  { s with
    outgoings := s.outgoings ++ [(s.fresh, o)]
    fresh := s.fresh + 1
    nodup_slots := by
      have hnew : s.fresh ∉ s.outgoings.map Prod.fst := by
        intro hmem
        obtain ⟨e, he, heq⟩ := List.mem_map.1 hmem
        exact (s.slots_lt e he).ne heq
      simpa [List.nodup_append, s.nodup_slots] using fun a b hb heq => hnew (List.mem_map.2 ⟨_, hb, heq⟩)
    slots_lt e he := by
      rcases List.mem_append.1 he with he | he
      · exact Nat.lt_succ_of_lt (s.slots_lt e he)
      · rw [List.mem_singleton.1 he]
        exact Nat.lt_succ_self _ }

def dropSlot (s : Links) (oid : ℕ) : Links :=
  { s with
    outgoings := s.outgoings.filter fun (i, _) => i ≠ oid
    nodup_slots := s.nodup_slots.sublist (List.filter_sublist.map _)
    slots_lt e he := s.slots_lt e (List.mem_of_mem_filter he) }

/-- `do_outgoing_connection`: `started` is whether some address could be dialled; otherwise the retry timer is set. -/
def doOutgoingConnection (s : Links) (oid : ℕ) (started : Bool) : Links :=
  match s.slot oid with
  | some o => if started then s.addConn { name := o.nodeName, outgoing := some oid } else s
  | none => s

/-- `setup_outgoing_connection`, which the retry timer calls. -/
def setupOutgoingConnection (s : Links) (oid : ℕ) (started : Bool) : Links :=
  match s.slot oid with
  | some o => if (s.nodeConn.lookup o.nodeName).isSome then s else s.doOutgoingConnection oid started
  | none => s

def clearNodeConn (s : Links) (name : String) (id : ℕ) : Links :=
  { s with nodeConn := s.nodeConn.filter fun entry => entry ≠ (name, id) }

def setNodeConn (s : Links) (name : String) (id : ℕ) : Links :=
  { s with nodeConn := (name, id) :: s.nodeConn.filter fun entry => entry.1 ≠ name }

/-- `terminate`. A slot that is still there is dialled again. -/
def terminate (s : Links) (id : ℕ) (redial : Bool) : Links :=
  match s.conn id with
  | none => s
  | some c =>
    let s := (s.dropConn id).clearNodeConn c.name id
    match c.outgoing with
    | some oid => s.doOutgoingConnection oid redial
    | none => s

/-- Takes the slot off the connection that is dropped, and gives it to the one that is kept unless that has one, in
which case the slot goes. -/
def moveSlot (s : Links) (keep drop : ℕ) : Links :=
  match s.conn drop with
  | some dc =>
    match dc.outgoing with
    | some oid =>
      let s := s.setConn drop { dc with outgoing := none }
      match s.conn keep with
      | some kc => if kc.outgoing.isNone then s.setConn keep { kc with outgoing := some oid } else s.dropSlot oid
      | none => s.dropSlot oid
    | none => s
  | none => s

/-- Which of two connections with a node is kept: the one dialled by the end with the smaller name, or the new one if
both were dialled by the same end. -/
def keepOld (s : Links) (name : String) (old new : Connection) : Bool :=
  old.outgoing.isSome != new.outgoing.isSome && old.outgoing.isSome == decide (s.name < name)

def activate (s : Links) (id : ℕ) (now : ℕ) : Links :=
  match s.conn id with
  | some c => (s.setNodeConn c.name id).setConn id { c with active := true, activatedAt := some now }
  | none => s

/-- `on_ack`. A second ACK on a connection is an error that ends it. -/
def onAck (s : Links) (id : ℕ) (now : ℕ) (redial : Bool) : Links :=
  match s.conn id with
  | none => s
  | some c =>
    if c.active then s.terminate id redial
    else
      match (s.nodeConn.lookup c.name).filter (· ≠ id) with
      | some old =>
        let oldConn := (s.conn old).getD { name := c.name, outgoing := none }
        if s.keepOld c.name oldConn c then (s.moveSlot old id).terminate id redial
        else ((s.moveSlot id old).terminate old redial).activate id now
      | none => s.activate id now

/-! ### What happens to the slots -/

section Slots

variable (s : Links) (id oid : ℕ) (b : Bool)

theorem outgoings_doOutgoingConnection : (s.doOutgoingConnection oid b).outgoings = s.outgoings := by
  unfold doOutgoingConnection
  split
  · split_ifs
    · rfl
    · rfl
  · rfl

theorem outgoings_setupOutgoingConnection : (s.setupOutgoingConnection oid b).outgoings = s.outgoings := by
  unfold setupOutgoingConnection
  split
  · split_ifs
    · rfl
    · exact outgoings_doOutgoingConnection s oid b
  · rfl

theorem outgoings_terminate : (s.terminate id b).outgoings = s.outgoings := by
  unfold terminate
  split
  · rfl
  · dsimp only
    split
    · exact outgoings_doOutgoingConnection _ _ _
    · rfl

theorem outgoings_activate (now : ℕ) : (s.activate id now).outgoings = s.outgoings := by
  unfold activate
  split
  · rfl
  · rfl

theorem outgoings_moveSlot (keep drop : ℕ) : (s.moveSlot keep drop).outgoings.Sublist s.outgoings := by
  unfold moveSlot
  split
  · split
    · dsimp only
      split
      · split_ifs
        · exact List.Sublist.refl _
        · exact List.filter_sublist
      · exact List.filter_sublist
    · exact List.Sublist.refl _
  · exact List.Sublist.refl _

theorem outgoings_onAck (now : ℕ) : (s.onAck id now b).outgoings.Sublist s.outgoings := by
  unfold onAck
  split
  · exact List.Sublist.refl _
  · split_ifs
    · rw [outgoings_terminate]
    · split
      · dsimp only
        split_ifs
        · rw [outgoings_terminate]
          exact s.outgoings_moveSlot _ _
        · rw [outgoings_activate, outgoings_terminate]
          exact s.outgoings_moveSlot _ _
      · rw [outgoings_activate]

end Slots

end Links

end Tincr.Net
