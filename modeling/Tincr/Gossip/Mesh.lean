import Tincr.Graph.Mst

/-!
What gossip does to the mesh graph, and what `run_graph` reports about it. The daemon keeps the ids of the
nodes by name; a node is created unreachable, so that its first appearance is reported, and `purge` deletes
unreachable nodes that nothing points to. Reports are kept here under the name of the node, since ids are
handed out again.
-/

namespace Tincr

namespace Graph

def nodeIds (g : Graph) : Except Panic (List NodeId) :=
  if 2 ^ 32 ≤ g.nodes.cells.length then .error .u32Slots
  else .ok ((List.range g.nodes.cells.length).filter fun n => (g.nodes.get n).isSome)

def nodeEdges (g : Graph) (n : NodeId) : List EdgeId := ((g.nodes.get n).map (·.edges)).getD []

inductive Transition
  | becameReachable (node via : NodeId)
  | becameUnreachable (node : NodeId)
deriving DecidableEq, Repr

def diffNode (myself : NodeId) (newRoutes : NodeId → Option Route) (acc : List Transition × Graph) (n : NodeId) :
    Except Panic (List Transition × Graph) :=
  if n = myself then .ok acc
  else
    match acc.2.node n with
    | none => .error .liveSlot
    | some x =>
      if (newRoutes n).isSome = x.reachable then .ok acc
      else do
        let g ← acc.2.setReachable n (newRoutes n).isSome
        match newRoutes n with
        | some r => pure (acc.1 ++ [.becameReachable n r.via], g)
        | none => pure (acc.1 ++ [.becameUnreachable n], g)

def diffReachability (g : Graph) (myself : NodeId) (newRoutes : NodeId → Option Route) :
    Except Panic (List Transition × Graph) := do
  let nodes ← g.nodeIds
  nodes.foldlM (diffNode myself newRoutes) ([], g)

def table (g : Graph) (routes : NodeId → Option Route) : List (Option Route) :=
  (List.range g.nodes.cells.length).map routes

/-- `run_graph`: the search, the reports and the tree. -/
def runGraph (g : Graph) (myself : NodeId) (prevRoutes : List (Option Route)) :
    Option (Except Panic (List Transition × List EdgeId × List (Option Route) × Graph)) :=
  match g.ssspSticky myself prevRoutes with
  | none => none
  | some (.error p) => some (.error p)
  | some (.ok routes) =>
    match g.diffReachability myself routes with
    | .error p => some (.error p)
    | .ok (transitions, g') =>
      match g'.mst with
      | none => none
      | some (.error p) => some (.error p)
      | some (.ok mst) => some (.ok (transitions, mst, g.table routes, g'))

end Graph

open Tincr.Graph

/-- The daemon's view of the mesh, with the reports so far: the name of the node, and whether it came up. -/
structure Mesh where
  graph : Graph
  myself : NodeId
  nodeIds : String → Option NodeId
  lastRoutes : List (Option Route)
  lastMst : List EdgeId
  log : List (String × Bool)

namespace Mesh

def init (name : String) : Mesh where
  graph := { Graph.new with nodes := Graph.new.nodes.insert ⟨name, [], true⟩ }
  myself := 0
  nodeIds := Function.update (fun _ => none) name (some 0)
  lastRoutes := []
  lastMst := []
  log := []

def lookupOrAddNode (m : Mesh) (name : String) : Except Panic (NodeId × Mesh) :=
  match m.nodeIds name with
  | some id => .ok (id, m)
  | none => do
    let (id, g) ← m.graph.addNode name
    let g ← g.setReachable id false
    pure (id, { m with graph := g, nodeIds := Function.update m.nodeIds name (some id) })

/-- The first pass of `purge`: the edges that leave an unreachable node. -/
def purgeEdges (g : Graph) (unreachable : List (NodeId × String)) : Except Panic Graph :=
  unreachable.foldlM (fun g p => (g.nodeEdges p.1).foldlM (fun g eid => do pure (← g.delEdge eid).2) g) g

/-- The second pass: the nodes, unless they came back, up to the first one that an edge still points to. A node
is kept if the settings ask for it (`AutoConnect`, or `StrictSubnets` with a subnet of its own). -/
def purgeNodes (kept : String → Bool) (targets : List NodeId) : List (NodeId × String) → Mesh → Except Panic Mesh
  | [], m => .ok m
  | (nid, name) :: rest, m =>
    if (m.graph.node nid).any (·.reachable) then purgeNodes kept targets rest m
    else if nid ∈ targets then .ok m
    else if kept name then purgeNodes kept targets rest m
    else do
      let (_, g) ← m.graph.delNode nid
      purgeNodes kept targets rest { m with graph := g, nodeIds := Function.update m.nodeIds name none }

def purge (m : Mesh) (kept : String → Bool) : Except Panic Mesh := do
  let nodes ← m.graph.nodeIds
  let unreachable := nodes.filterMap fun nid =>
    (m.graph.node nid).bind fun x => if x.reachable then none else some (nid, x.name)
  let g ← purgeEdges m.graph unreachable
  let targets := g.edges.cells.filterMap fun c => c.map (·.toNode)
  purgeNodes kept targets unreachable { m with graph := g }

def reported (g : Graph) : Transition → String × Bool
  | .becameReachable n _ => (((g.node n).map (·.name)).getD "<unknown>", true)
  | .becameUnreachable n => (((g.node n).map (·.name)).getD "<unknown>", false)

def runGraphAndLog (m : Mesh) : Option (Except Panic Mesh) :=
  (m.graph.runGraph m.myself m.lastRoutes).map fun res => res.map fun (transitions, mst, routes, g) =>
    { m with graph := g, lastRoutes := routes, lastMst := mst, log := m.log ++ transitions.map (reported g) }

inductive Change
  | node (name : String)
  | addEdge (fromNode toNode : NodeId) (weight : ℤ) (options : UInt32)
  | updateEdge (e : EdgeId) (weight : ℤ) (options : UInt32)
  | delEdge (e : EdgeId)
  | purge (kept : String → Bool)

def Change.apply (m : Mesh) : Change → Except Panic Mesh
  | node name => do pure (← m.lookupOrAddNode name).2
  | addEdge fromNode toNode weight options => do
    let (_, g) ← m.graph.addEdge fromNode toNode weight options
    pure { m with graph := g }
  | updateEdge e weight options => do
    let (_, g) ← m.graph.updateEdge e weight options
    pure { m with graph := g }
  | delEdge e => do
    let (_, g) ← m.graph.delEdge e
    pure { m with graph := g }
  | purge kept => m.purge kept

def step (m : Mesh) (c : Change) : Option (Except Panic Mesh) :=
  match c.apply m with
  | .error p => some (.error p)
  | .ok m => m.runGraphAndLog

end Mesh

end Tincr
