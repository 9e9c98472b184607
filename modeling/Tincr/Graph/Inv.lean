import Tincr.Graph.Model

/-!
The representation invariant of the mesh graph: the four indexes say the same. An edge list holds the live
edges that leave its node, sorted by the name of their far end; the weight order has one entry for each
live edge; and the twin of an edge is the live edge the other way round. That the free lists hold the empty
slots is part of the slabs.
-/

namespace Tincr.Graph

structure Indexed (g : Graph) : Prop where
  name_inj : ∀ {m n x y}, g.nodes.get m = some x → g.nodes.get n = some y → x.name = y.name → m = n
  mem_edges : ∀ {n x}, g.nodes.get n = some x → ∀ e, e ∈ x.edges ↔ ∃ d, g.edges.get e = some d ∧ d.fromNode = n
  sorted : ∀ {n x}, g.nodes.get n = some x → x.edges.Pairwise fun a b =>
    ∀ da db, g.edges.get a = some da → g.edges.get b = some db → da.toName < db.toName
  ends : ∀ {e d}, g.edges.get e = some d → (g.nodes.get d.fromNode).isSome ∧
    (∃ y, g.nodes.get d.toNode = some y ∧ y.name = d.toName) ∧ d.fromNode ≠ d.toNode
  weight : ∀ k e, g.weightOrder[k]? = some e ↔
    ∃ d x, g.edges.get e = some d ∧ g.nodes.get d.fromNode = some x ∧ weightKey d.weight x.name d.toName = k

structure Inv (g : Graph) : Prop extends Indexed g where
  reverse : ∀ {e d}, g.edges.get e = some d → ∀ r, d.reverse = some r ↔
    ∃ b, g.edges.get r = some b ∧ b.fromNode = d.toNode ∧ b.toNode = d.fromNode

def pairs (edges : Slab Edge) (ids : List EdgeId) : List (EdgeId × Edge) :=
  ids.filterMap fun e => (edges.get e).map fun d => (e, d)

def arcs (g : Graph) (n : NodeId) : List (EdgeId × Edge) :=
  match g.nodes.get n with
  | none => []
  | some x => pairs g.edges x.edges

section Read

variable {α : Type} {s : Slab α} {i : ℕ} {a : α}

theorem slot_of_get (h : s.get i = some a) : slot s i = .ok a := by
  rw [slot, Slab.get_eq_some.mp h]

theorem mem_pairs {edges : Slab Edge} {ids : List EdgeId} {p : EdgeId × Edge} :
    p ∈ pairs edges ids ↔ p.1 ∈ ids ∧ edges.get p.1 = some p.2 := by
  obtain ⟨e, d⟩ := p
  simp only [pairs, List.mem_filterMap, Option.map_eq_some_iff, Prod.mk.injEq]
  constructor
  · rintro ⟨e', he', d', hd', rfl, rfl⟩
    exact ⟨he', hd'⟩
  · rintro ⟨he, hd⟩
    exact ⟨e, he, d, hd, rfl, rfl⟩

theorem readEdges_eq {edges : Slab Edge} {ids : List EdgeId} (h : ∀ e ∈ ids, (edges.get e).isSome) :
    readEdges edges ids = .ok (pairs edges ids) := by
  induction ids with
  | nil => rfl
  | cons e ids ih =>
    obtain ⟨d, hd⟩ := Option.isSome_iff_exists.1 (h e List.mem_cons_self)
    have hrest := ih fun e he => h e (List.mem_cons_of_mem _ he)
    rw [readEdges] at hrest ⊢
    rw [List.mapM_cons, slot_of_get hd, hrest]
    simp only [pairs, List.filterMap_cons, hd, Option.map_some]
    rfl

end Read

namespace Indexed

variable {g : Graph} (h : g.Indexed)
include h

theorem isSome_of_mem {n : NodeId} {x : Node} (hx : g.nodes.get n = some x) : ∀ e ∈ x.edges, (g.edges.get e).isSome := by
  intro e he
  obtain ⟨d, hd, -⟩ := (h.mem_edges hx e).1 he
  rw [hd]
  rfl

theorem mem_arcs {n : NodeId} {p : EdgeId × Edge} :
    p ∈ g.arcs n ↔ g.edges.get p.1 = some p.2 ∧ p.2.fromNode = n := by
  unfold arcs
  cases hx : g.nodes.get n with
  | none =>
    refine ⟨fun hp => (by cases hp), fun ⟨hp, hfrom⟩ => ?_⟩
    have := (h.ends hp).1
    rw [hfrom, hx] at this
    cases this
  | some x =>
    rw [mem_pairs, h.mem_edges hx]
    constructor
    · rintro ⟨⟨d, hd, hfrom⟩, hp⟩
      obtain rfl := Option.some.inj (hd.symm.trans hp)
      exact ⟨hp, hfrom⟩
    · rintro ⟨hp, hfrom⟩
      exact ⟨⟨p.2, hp, hfrom⟩, hp⟩

theorem edge_unique {e e' : EdgeId} {d d' : Edge} (hd : g.edges.get e = some d) (hd' : g.edges.get e' = some d')
    (hfrom : d.fromNode = d'.fromNode) (hto : d.toNode = d'.toNode) : e = e' := by
  obtain ⟨x, hx⟩ := Option.isSome_iff_exists.1 (h.ends hd).1
  obtain ⟨y, hy, hname⟩ := (h.ends hd).2.1
  obtain ⟨y', hy', hname'⟩ := (h.ends hd').2.1
  rw [hto, hy'] at hy
  obtain rfl := Option.some.inj hy
  have hmem := (h.mem_edges hx e).2 ⟨d, hd, rfl⟩
  have hmem' := (h.mem_edges hx e').2 ⟨d', hd', hfrom.symm⟩
  by_contra hne
  have hlt : d.toName < d'.toName ∨ d'.toName < d.toName := by
    have hsorted := h.sorted hx
    have hor := List.Pairwise.forall_of_forall_of_flip (R := fun a b => a ≠ b → ∀ da db, g.edges.get a = some da →
      g.edges.get b = some db → da.toName < db.toName ∨ db.toName < da.toName) (by simp)
      (hsorted.imp fun {a b} hab _ da db ha hb => .inl (hab da db ha hb))
      (hsorted.imp fun {a b} hab _ da db ha hb => .inr (hab db da hb ha))
    exact hor hmem hmem' hne d d' hd hd'
  rw [← hname, ← hname'] at hlt
  exact (or_self_iff.1 hlt).false

end Indexed

end Tincr.Graph
