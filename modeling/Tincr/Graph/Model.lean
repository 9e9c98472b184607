import Tincr.Lib.Slab

/-!
The mesh graph: a slab of nodes, a slab of edges, and the edges in weight order. Each node keeps its
outgoing edges sorted by the name of their destination, and each edge the link to its twin. A method of
the source that can panic returns `Except Panic`; an index that was never handed out, an `expect` on a
freed slot and the two `expect`s on the indexes are the panics.
-/

namespace Tincr

abbrev NodeId := ℕ

abbrev EdgeId := ℕ

def OPTION_INDIRECT : UInt32 := 1

def STICKY_THRESHOLD_PCT : ℤ := 133

structure Node where
  name : String
  edges : List EdgeId
  reachable : Bool
deriving DecidableEq, Repr

structure Edge where
  fromNode : NodeId
  toNode : NodeId
  weight : ℤ
  options : UInt32
  reverse : Option EdgeId
  toName : String
deriving DecidableEq, Repr

/-- The key of `weight_order`: weight, then the two names. -/
abbrev WeightKey := ℤ ×ₗ String ×ₗ String

def weightKey (weight : ℤ) (fromName toName : String) : WeightKey := toLex (weight, toLex (fromName, toName))

structure Graph where
  nodes : Slab Node
  edges : Slab Edge
  weightOrder : Std.TreeMap WeightKey EdgeId

namespace Graph

inductive Panic
  | outOfRange
  | liveSlot
  | u32Slots
  | edgeInList
  | edgeInWeightOrder
deriving DecidableEq, Repr

def new : Graph := ⟨.empty, .empty, {}⟩

def node (g : Graph) (n : NodeId) : Option Node := g.nodes.get n

def edge (g : Graph) (e : EdgeId) : Option Edge := g.edges.get e

def slot {α : Type} (s : Slab α) (i : ℕ) : Except Panic α :=
  match s.cells[i]? with
  | none => .error .outOfRange
  | some none => .error .liveSlot
  | some (some a) => .ok a

def allocSlot {α : Type} (s : Slab α) : Except Panic ℕ :=
  if s.free = [] ∧ 2 ^ 32 ≤ s.cells.length then .error .u32Slots else .ok s.next

/-- The edges of an edge list; the searches in it read every slot they compare with. -/
def readEdges (edges : Slab Edge) (ids : List EdgeId) : Except Panic (List (EdgeId × Edge)) :=
  ids.mapM fun eid => do pure (eid, ← slot edges eid)

def addNode (g : Graph) (name : String) : Except Panic (NodeId × Graph) := do
  let idx ← allocSlot g.nodes
  pure (idx, { g with nodes := g.nodes.insert ⟨name, [], true⟩ })

def addEdge (g : Graph) (fromNode toNode : NodeId) (weight : ℤ) (options : UInt32) :
    Except Panic (EdgeId × Graph) := do
  let id ← allocSlot g.edges
  let toN ← slot g.nodes toNode
  let back ← readEdges g.edges toN.edges
  let reverse := (back.find? fun p => p.2.toNode == fromNode).map (·.1)
  let linked := match reverse with
    | some r => g.edges.modify r fun d => { d with reverse := some id }
    | none => g.edges
  let fromN ← slot g.nodes fromNode
  let out ← readEdges linked fromN.edges
  -- `partition_point` on the list sorted by `to_name`
  let pos := (out.takeWhile fun p => decide (p.2.toName < toN.name)).length
  pure (id, {
    nodes := g.nodes.modify fromNode fun n => { n with edges := n.edges.insertIdx pos id }
    edges := linked.insert ⟨fromNode, toNode, weight, options, reverse, toN.name⟩
    weightOrder := g.weightOrder.insert (weightKey weight fromN.name toN.name) id })

def delEdge (g : Graph) (e : EdgeId) : Except Panic (Option Unit × Graph) :=
  match g.edges.cells[e]? with
  | none => .error .outOfRange
  | some none => .ok (none, g)
  | some (some d) => do
    let unlinked ← match d.reverse with
      | some r => do
        let _ ← slot g.edges r
        pure (g.edges.modify r fun d => { d with reverse := none })
      | none => pure g.edges
    let fromN ← slot g.nodes d.fromNode
    let out ← readEdges unlinked fromN.edges
    -- `binary_search_by` on the list sorted by `to_name`
    match out.findIdx? fun p => p.2.toName == d.toName with
    | none => .error .edgeInList
    | some pos => pure (some (), {
        nodes := g.nodes.modify d.fromNode fun n => { n with edges := n.edges.eraseIdx pos }
        edges := unlinked.erase e
        weightOrder := g.weightOrder.erase (weightKey d.weight fromN.name d.toName) })

def delNode (g : Graph) (n : NodeId) : Except Panic (Option Unit × Graph) :=
  match g.nodes.cells[n]? with
  | none => .error .outOfRange
  | some none => .ok (none, g)
  | some (some x) => do
    let g ← x.edges.foldlM (fun g e => do pure (← g.delEdge e).2) g
    pure (some (), { g with nodes := g.nodes.erase n })

def updateEdge (g : Graph) (e : EdgeId) (weight : ℤ) (options : UInt32) :
    Except Panic (Option Unit × Graph) :=
  match g.edges.cells[e]? with
  | none => .error .outOfRange
  | some none => .ok (none, g)
  | some (some d) =>
    let edges := g.edges.modify e fun d => { d with options := options, weight := weight }
    if d.weight = weight then .ok (some (), { g with edges := edges })
    else do
      let fromN ← slot g.nodes d.fromNode
      let old := weightKey d.weight fromN.name d.toName
      if g.weightOrder.contains old then
        pure (some (), { g with
          edges := edges
          weightOrder := (g.weightOrder.erase old).insert (weightKey weight fromN.name d.toName) e })
      else .error .edgeInWeightOrder

def lookupEdge (g : Graph) (fromNode toNode : NodeId) : Except Panic (Option EdgeId) :=
  match g.nodes.cells[toNode]? with
  | none => .error .outOfRange
  | some none => .ok none
  | some (some toN) =>
    match g.nodes.cells[fromNode]? with
    | none => .error .outOfRange
    | some none => .ok none
    | some (some fromN) => do
      let out ← readEdges g.edges fromN.edges
      pure ((out.find? fun p => p.2.toName == toN.name).map (·.1))

def setReachable (g : Graph) (n : NodeId) (r : Bool) : Except Panic Graph := do
  let _ ← slot g.nodes n
  pure { g with nodes := g.nodes.modify n fun x => { x with reachable := r } }

structure Route where
  indirect : Bool
  distance : ℕ
  weightedDistance : ℤ
  nexthop : NodeId
  via : NodeId
  prevedge : Option EdgeId
  options : UInt32
deriving DecidableEq, Repr

/-- `i32::saturating_add`. -/
def satAdd (a b : ℤ) : ℤ := max (-2 ^ 31) (min (2 ^ 31 - 1) (a + b))

/-- The route to the far end of an edge that leaves a node with route `r`. -/
def candidate (myself : NodeId) (r : Route) (eid : EdgeId) (e : Edge) : Route where
  indirect := r.indirect || e.options &&& OPTION_INDIRECT != 0
  distance := r.distance + 1
  weightedDistance := satAdd r.weightedDistance e.weight
  nexthop := if r.nexthop = myself then e.toNode else r.nexthop
  via := if r.indirect || e.options &&& OPTION_INDIRECT != 0 then r.via else e.toNode
  prevedge := some eid
  options := e.options

def Route.lighter (old cand : Route) : Bool :=
  old.distance == cand.distance && decide (cand.weightedDistance < old.weightedDistance)

/-- What becomes of the route to a node when a candidate turns up; `none` if it stays. An upgrade to a
direct route that is not lighter takes over all but the next hop and the weight. -/
def Route.revisit (old : Option Route) (cand : Route) : Option Route :=
  match old with
  | none => some cand
  | some old =>
    if (!old.indirect || cand.indirect) && !old.lighter cand then none
    else if old.lighter cand then some cand
    else some { cand with nexthop := old.nexthop, weightedDistance := old.weightedDistance }

/-- The state of the search: routes so far, weights seen over the previous next hop, the queue. -/
structure Bfs where
  route : NodeId → Option Route
  stickyWdist : NodeId → Option ℤ
  todo : List NodeId

/-- The weight of a candidate over the previous next hop, if it has the hops of the route so far. -/
def Bfs.stick (st : Bfs) (prevNh : Option NodeId) (n : NodeId) (cand : Route) : Bfs :=
  if some cand.nexthop = prevNh ∧ (st.route n).all (·.distance == cand.distance) then
    let w := ((st.stickyWdist n).map fun w => min w cand.weightedDistance).getD cand.weightedDistance
    { st with stickyWdist := Function.update st.stickyWdist n (some w) }
  else st

def Bfs.relax (myself : NodeId) (prevNh : NodeId → Option NodeId) (r : Route) (st : Bfs) (p : EdgeId × Edge) : Bfs :=
  if p.2.reverse = none ∨ p.2.toNode = myself then st
  else
    let cand := candidate myself r p.1 p.2
    let st := st.stick (prevNh p.2.toNode) p.2.toNode cand
    match Route.revisit (st.route p.2.toNode) cand with
    | none => st
    | some new =>
      { st with route := Function.update st.route p.2.toNode (some new), todo := st.todo ++ [p.2.toNode] }

def visit (g : Graph) (myself : NodeId) (prevNh : NodeId → Option NodeId) (st : Bfs) (n : NodeId) : Except Panic Bfs :=
  match st.route n with
  | none => .error .liveSlot
  | some r => do
    let x ← slot g.nodes n
    let out ← readEdges g.edges x.edges
    pure (out.foldl (Bfs.relax myself prevNh r) st)

def search (g : Graph) (myself : NodeId) (prevNh : NodeId → Option NodeId) : ℕ → Bfs → Option (Except Panic Bfs)
  | fuel, st =>
    match st.todo, fuel with
    | [], _ => some (.ok st)
    | _ :: _, 0 => none
    | n :: rest, fuel + 1 =>
      match visit g myself prevNh { st with todo := rest } n with
      | .error p => some (.error p)
      | .ok st => search g myself prevNh fuel st

/-- The previous next hop stays if its weight is within the threshold. -/
def stickyPostPass (route : NodeId → Option Route) (prev : List (Option Route)) (stickyWdist : NodeId → Option ℤ)
    (n : NodeId) : Option Route :=
  match route n, prev[n]?.join, stickyWdist n with
  | some new, some old, some w =>
    if old.nexthop ≠ new.nexthop ∧ w * 100 ≤ new.weightedDistance * STICKY_THRESHOLD_PCT then
      some { new with nexthop := old.nexthop, weightedDistance := w }
    else some new
  | r, _, _ => r

def Bfs.start (myself : NodeId) : Bfs where
  route := Function.update (fun _ => none) myself (some ⟨false, 0, 0, myself, myself, none, 0⟩)
  stickyWdist := fun _ => none
  todo := [myself]

/-- A bound for the rounds: every entry of the queue lowers the weight of a node or makes it direct. -/
def rounds (g : Graph) : ℕ := g.nodes.cells.length * 2 ^ 33 + 1

/-- `sssp_sticky`; `none` if the bound on the rounds is too small, which it never is. -/
def ssspSticky (g : Graph) (myself : NodeId) (prev : List (Option Route)) :
    Option (Except Panic (NodeId → Option Route)) :=
  if g.nodes.cells.length ≤ myself then some (.error .outOfRange)
  else
    (search g myself (fun n => (prev[n]?.join).map (·.nexthop)) g.rounds (.start myself)).map fun res =>
      res.map fun st => if prev = [] then st.route else stickyPostPass st.route prev st.stickyWdist

def sssp (g : Graph) (myself : NodeId) : Option (Except Panic (NodeId → Option Route)) := g.ssspSticky myself []

end Graph

end Tincr
