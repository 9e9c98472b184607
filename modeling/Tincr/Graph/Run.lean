import Tincr.Graph.Ops

/-!
The operations of the mesh graph keep the representation invariant and do not panic, as long as names and
edges are not added twice, a node goes only after its incoming edges and the reachable bit is set on live
nodes; so the invariant holds after every sequence of such operations.
-/

namespace Tincr

def Node.label (x : Node) : String × Bool := (x.name, x.reachable)

namespace Graph

def SameNodes (g g' : Graph) : Prop := g'.nodes.cells.length = g.nodes.cells.length ∧
  ∀ n, (g'.nodes.get n).map Node.label = (g.nodes.get n).map Node.label

def HasSlot {α : Type} (s : Slab α) : Prop := ¬(s.free = [] ∧ 2 ^ 32 ≤ s.cells.length)

theorem allocSlot_eq {α : Type} {s : Slab α} (h : HasSlot s) : allocSlot s = .ok s.next := if_neg h

namespace Inv

variable {g : Graph} (h : g.Inv)
include h

theorem addNode {name : String} (hslot : HasSlot g.nodes) (hname : ∀ n x, g.nodes.get n = some x → x.name ≠ name) :
    ∃ g', g.addNode name = .ok (g.nodes.next, g') ∧ g'.Inv ∧ g'.edges = g.edges ∧
      g'.nodes = g.nodes.insert ⟨name, [], true⟩ := by
  refine ⟨{ g with nodes := g.nodes.insert ⟨name, [], true⟩ }, by rw [Graph.addNode, allocSlot_eq hslot]; rfl, ?_,
    rfl, rfl⟩
  have hnext := g.nodes.get_next
  refine { name_inj := ?_, mem_edges := ?_, sorted := ?_, ends := ?_, weight := ?_, reverse := h.reverse }
  · intro m n x y hx hy hxy
    rw [Slab.get_insert] at hx hy
    split_ifs at hx hy with hm hn hn
    · exact hm.symm.trans hn
    · obtain rfl := Option.some.inj hx
      exact (hname n y hy hxy.symm).elim
    · obtain rfl := Option.some.inj hy
      exact (hname m x hx hxy).elim
    · exact h.name_inj hx hy hxy
  · intro n x hx e
    rw [Slab.get_insert] at hx
    split_ifs at hx with hn
    · -- nothing leaves the new node, since an edge leaves a live one
      obtain rfl := Option.some.inj hx
      simp only [List.not_mem_nil, false_iff]
      rintro ⟨d, hd, hfrom⟩
      have hlive := (h.ends hd).1
      rw [hfrom, ← hn, hnext] at hlive
      cases hlive
    · exact h.mem_edges hx e
  · intro n x hx
    rw [Slab.get_insert] at hx
    split_ifs at hx with hn
    · obtain rfl := Option.some.inj hx
      exact List.Pairwise.nil
    · exact h.sorted hx
  · intro e d hd
    obtain ⟨hfrom, ⟨y, hy, hyname⟩, hne⟩ := h.ends hd
    obtain ⟨x, hx⟩ := Option.isSome_iff_exists.1 hfrom
    exact ⟨by rw [Slab.get_insert_of_ne hx]; rfl, ⟨y, Slab.get_insert_of_ne hy, hyname⟩, hne⟩
  · intro k e
    refine (h.weight k e).trans (exists_congr fun d => exists_congr fun x => and_congr_right fun hd => ?_)
    obtain ⟨x', hx'⟩ := Option.isSome_iff_exists.1 (h.ends hd).1
    rw [hx', Slab.get_insert_of_ne hx']

theorem setReachable {n : NodeId} {x : Node} (hx : g.nodes.get n = some x) (r : Bool) :
    ∃ g', g.setReachable n r = .ok g' ∧ g'.Inv ∧ g'.edges = g.edges ∧
      g'.nodes = g.nodes.modify n fun x => { x with reachable := r } := by
  refine ⟨{ g with nodes := g.nodes.modify n fun x => { x with reachable := r } },
    by rw [Graph.setReachable, slot_of_get hx]; rfl, ?_, rfl, rfl⟩
  -- the record of a node differs in the bit alone
  have hget : ∀ {m z}, (g.nodes.modify n fun x => { x with reachable := r }).get m = some z →
      ∃ x, g.nodes.get m = some x ∧ z.name = x.name ∧ z.edges = x.edges := by
    intro m z hz
    rw [Slab.get_modify] at hz
    split_ifs at hz
    · obtain ⟨x, hx, rfl⟩ := Option.map_eq_some_iff.1 hz
      exact ⟨x, hx, rfl, rfl⟩
    · exact ⟨z, hz, rfl, rfl⟩
  refine { name_inj := ?_, mem_edges := ?_, sorted := ?_, ends := ?_, weight := ?_, reverse := h.reverse }
  · intro m k y z hy hz hyz
    obtain ⟨y₀, hy₀, hname, -⟩ := hget hy
    obtain ⟨z₀, hz₀, hname', -⟩ := hget hz
    exact h.name_inj hy₀ hz₀ (by rw [← hname, hyz, hname'])
  · intro m z hz e
    obtain ⟨z₀, hz₀, -, hes⟩ := hget hz
    rw [hes]
    exact h.mem_edges hz₀ e
  · intro m z hz
    obtain ⟨z₀, hz₀, -, hes⟩ := hget hz
    rw [hes]
    exact h.sorted hz₀
  · intro e d hd
    obtain ⟨hfrom, ⟨y, hy, hyname⟩, hne⟩ := h.ends hd
    refine ⟨?_, ?_, hne⟩
    · rw [Slab.get_modify]
      split_ifs
      · simpa using hfrom
      · exact hfrom
    · rw [Slab.get_modify, hy]
      split_ifs
      · exact ⟨_, rfl, hyname⟩
      · exact ⟨y, rfl, hyname⟩
  · intro k e
    exact (h.weight k e).trans (@keyed_modify_name g.nodes n (fun x => { x with reachable := r }) (fun _ => rfl) _ _).symm

theorem find_twin {b : NodeId} {y : Node} (hy : g.nodes.get b = some y) (a : NodeId) (r : EdgeId) :
    ((pairs g.edges y.edges).find? fun p => p.2.toNode == a).map (·.1) = some r ↔
      ∃ c, g.edges.get r = some c ∧ c.fromNode = b ∧ c.toNode = a := by
  constructor
  · intro hfind
    obtain ⟨⟨r', c⟩, hp, rfl⟩ := Option.map_eq_some_iff.1 hfind
    obtain ⟨hmem, hc⟩ := mem_pairs.1 (List.mem_of_find?_eq_some hp)
    obtain ⟨c', hc', hfrom⟩ := (h.mem_edges hy r').1 hmem
    obtain rfl := Option.some.inj (hc.symm.trans hc')
    exact ⟨c, hc, hfrom, by simpa using List.find?_some hp⟩
  · rintro ⟨c, hc, hfrom, hto⟩
    have hmem : (r, c) ∈ pairs g.edges y.edges := mem_pairs.2 ⟨(h.mem_edges hy r).2 ⟨c, hc, hfrom⟩, hc⟩
    have hsome : ((pairs g.edges y.edges).find? fun p => p.2.toNode == a).isSome :=
      List.find?_isSome.2 ⟨_, hmem, by simpa using hto⟩
    obtain ⟨⟨r', c'⟩, hp⟩ := Option.isSome_iff_exists.1 hsome
    obtain ⟨hmem', hc'⟩ := mem_pairs.1 (List.mem_of_find?_eq_some hp)
    obtain ⟨c'', hc'', hfrom'⟩ := (h.mem_edges hy r').1 hmem'
    obtain rfl := Option.some.inj (hc'.symm.trans hc'')
    have hto' : c'.toNode = a := by simpa using List.find?_some hp
    rw [hp, h.edge_unique hc hc' (hfrom.trans hfrom'.symm) (hto.trans hto'.symm)]
    rfl

theorem addEdge {a b : NodeId} {x y : Node} (hslot : HasSlot g.edges) (hx : g.nodes.get a = some x)
    (hy : g.nodes.get b = some y) (hne : a ≠ b)
    (hnew : ∀ e d, g.edges.get e = some d → d.fromNode = a → d.toNode ≠ b) (weight : ℤ) (options : UInt32) :
    ∃ g' reverse, g.addEdge a b weight options = .ok (g.edges.next, g') ∧ g'.Inv ∧ SameNodes g g' ∧
      g'.edges = (relink g.edges reverse (some g.edges.next)).insert ⟨a, b, weight, options, reverse, y.name⟩ := by
  generalize hrev : ((pairs g.edges y.edges).find? fun p => p.2.toNode == a).map (·.1) = reverse
  have hfind := h.find_twin hy a
  rw [hrev] at hfind
  have hsame := sameCore_relink g.edges reverse (some g.edges.next)
  have hindexed : Indexed { g with edges := relink g.edges reverse (some g.edges.next) } := hsame.indexed h.toIndexed
  have hread := readEdges_eq (h.isSome_of_mem hy)
  have hread' := readEdges_eq (hindexed.isSome_of_mem hx)
  have hpos := (pairs_search (hindexed.isSome_of_mem hx) fun s => decide (s < y.name)).1
  have hrun : g.addEdge a b weight options = .ok (g.edges.next, {
      nodes := g.nodes.modify a fun n => { n with edges := n.edges.insertIdx (x.edges.takeWhile fun e =>
        decide (farName (relink g.edges reverse (some g.edges.next)) e < y.name)).length g.edges.next }
      edges := (relink g.edges reverse (some g.edges.next)).insert ⟨a, b, weight, options, reverse, y.name⟩
      weightOrder := g.weightOrder.insert (weightKey weight x.name y.name) g.edges.next }) := by
    simp only [Graph.addEdge, allocSlot_eq hslot, slot_of_get hy, slot_of_get hx, hread, bind, Except.bind, hrev]
    cases reverse <;>
    · simp only [relink] at hread' hpos ⊢
      rw [hread']
      simp only [hpos]
      rfl
  refine ⟨_, reverse, hrun, ?_, ?_, rfl⟩
  · have hnew' : ∀ e d, (relink g.edges reverse (some g.edges.next)).get e = some d → d.fromNode = a → d.toNode ≠ b := by
      intro e d hd
      obtain ⟨_, hd₀⟩ := hsame.symm.get hd
      have hnot := hnew e _ hd₀
      exact hnot
    have hins := hindexed.insert_place (d := ⟨a, b, weight, options, reverse, y.name⟩) hx hy rfl hne hnew'
    have htwin : Twinned ((relink g.edges reverse (some g.edges.next)).insert ⟨a, b, weight, options, reverse, y.name⟩) :=
      Twinned.insert (d := ⟨a, b, weight, options, reverse, y.name⟩) h.reverse hne hnew hfind
    simp only [next_relink] at hins
    exact { hins with reverse := htwin }
  · refine ⟨Slab.length_modify .., fun n => ?_⟩
    simp only [Slab.get_modify]
    split_ifs
    · rw [Option.map_map]
      rfl
    · rfl

theorem delEdge {e : EdgeId} {d : Edge} {x : Node} (hd : g.edges.get e = some d) (hx : g.nodes.get d.fromNode = some x) :
    ∃ g', g.delEdge e = .ok (some (), g') ∧ g'.Inv ∧ SameNodes g g' ∧
      g'.nodes.get d.fromNode = some { x with edges := x.edges.erase e } ∧
      g'.edges = (relink g.edges d.reverse none).erase e := by
  have hsame := sameCore_relink g.edges d.reverse none
  have hindexed : Indexed { g with edges := relink g.edges d.reverse none } := hsame.indexed h.toIndexed
  have hread := readEdges_eq (hindexed.isSome_of_mem hx)
  obtain ⟨r, hd'⟩ := hsame.get hd
  -- the binary search compares with the far name, which is the edge's own
  have hown : farName (relink g.edges d.reverse none) e = d.toName := by rw [farName_of_get hd']
  have hmem := (h.mem_edges hx e).2 ⟨d, hd, rfl⟩
  obtain ⟨pos, hfind, herase⟩ := List.findIdx?_key (hindexed.sorted_farName hx) hmem
  simp only [hown] at hfind
  have hpos := (pairs_search (hindexed.isSome_of_mem hx) fun s => s == d.toName).2
  have hrun : g.delEdge e = .ok (some (), {
      nodes := g.nodes.modify d.fromNode fun n => { n with edges := n.edges.eraseIdx pos }
      edges := (relink g.edges d.reverse none).erase e
      weightOrder := g.weightOrder.erase (weightKey d.weight x.name d.toName) }) := by
    rw [Graph.delEdge, Slab.get_eq_some.1 hd]
    cases hrev : d.reverse with
    | none =>
      simp only [hrev, relink] at hread hpos hfind ⊢
      simp only [slot_of_get hx, hread, bind, Except.bind, pure, Except.pure, hpos, hfind]
    | some r =>
      obtain ⟨b, hb, -⟩ := (h.reverse hd r).1 hrev
      simp only [hrev, relink] at hread hpos hfind ⊢
      simp only [slot_of_get hx, slot_of_get hb, hread, bind, Except.bind, pure, Except.pure, hpos, hfind]
  refine ⟨_, hrun, ?_, ?_, ?_, rfl⟩
  · have hrem := hindexed.remove (f := fun n => { n with edges := n.edges.eraseIdx pos }) hd' hx (fun _ => rfl) herase
    have huniq : ∀ a c, g.edges.get a = some c → c.fromNode = d.fromNode → c.toNode = d.toNode → a = e :=
      fun a c hc hfrom hto => h.edge_unique hc hd hfrom hto
    exact { hrem with reverse := Twinned.erase h.reverse hd huniq }
  · refine ⟨Slab.length_modify .., fun n => ?_⟩
    simp only [Slab.get_modify]
    split_ifs
    · rw [Option.map_map]
      rfl
    · rfl
  · rw [Slab.get_modify, if_pos rfl, hx, ← herase]
    rfl

theorem updateEdge {e : EdgeId} {d : Edge} (hd : g.edges.get e = some d) (weight : ℤ) (options : UInt32) :
    ∃ g', g.updateEdge e weight options = .ok (some (), g') ∧ g'.Inv ∧ g'.nodes = g.nodes ∧
      g'.edges = g.edges.modify e fun d => { d with options := options, weight := weight } := by
  obtain ⟨x, hx⟩ := Option.isSome_iff_exists.1 (h.ends hd).1
  have hown := (h.weight _ e).2 ⟨d, x, hd, hx, rfl⟩
  -- the other edges keep their keys, and the key that the edge gets is nobody else's
  have hother : ∀ a, e ≠ a → ∀ k, g.weightOrder[k]? = some a → k ≠ weightKey weight x.name d.toName := by
    rintro a hne k ha rfl
    obtain ⟨c, z, hc, hz, hkey⟩ := (h.weight _ a).1 ha
    obtain ⟨-, hfrom, hto⟩ := weightKey_inj hkey
    obtain ⟨y, hy, hyname⟩ := (h.ends hd).2.1
    obtain ⟨y', hy', hyname'⟩ := (h.ends hc).2.1
    exact hne (h.edge_unique hd hc (h.name_inj hz hx hfrom).symm
      (h.name_inj hy hy' (by rw [hyname, hyname', hto])))
  have hinv : ∀ w : Std.TreeMap WeightKey EdgeId,
      (∀ k a, w[k]? = some a ↔ if e = a then weightKey weight x.name d.toName = k else g.weightOrder[k]? = some a) →
      Inv ⟨g.nodes, g.edges.modify e fun d => { d with options := options, weight := weight }, w⟩ := by
    intro w hw
    refine { name_inj := h.name_inj, mem_edges := ?_, sorted := ?_, ends := ?_, weight := ?_, reverse := ?_ }
    · intro n z hz a
      refine (h.mem_edges hz a).trans (Iff.symm ?_)
      exact Slab.exists_get_modify fun _ => Iff.rfl
    · intro n z hz
      refine (h.sorted hz).imp fun hab da db ha hb => ?_
      obtain ⟨a₀, ha₀, ha⟩ := Slab.of_get_modify ha
      obtain ⟨b₀, hb₀, hb⟩ := Slab.of_get_modify hb
      have hlt := hab a₀ b₀ ha₀ hb₀
      rcases ha with ⟨-, rfl⟩ | ⟨-, rfl⟩ <;> rcases hb with ⟨-, rfl⟩ | ⟨-, rfl⟩ <;> exact hlt
    · intro a c hc
      obtain ⟨c₀, hc₀, hcc⟩ := Slab.of_get_modify hc
      have hends := h.ends hc₀
      rcases hcc with ⟨-, rfl⟩ | ⟨-, rfl⟩ <;> exact hends
    · intro k a
      rw [hw, Slab.get_modify]
      split_ifs with ha
      · subst ha
        simp [hd, hx]
      · exact h.weight k a
    · intro a c hc r
      have hrev : c.reverse = some r ↔ ∃ b, g.edges.get r = some b ∧ b.fromNode = c.toNode ∧ b.toNode = c.fromNode := by
        obtain ⟨c₀, hc₀, hcc⟩ := Slab.of_get_modify hc
        have hrev := h.reverse hc₀ r
        rcases hcc with ⟨-, rfl⟩ | ⟨-, rfl⟩ <;> exact hrev
      refine hrev.trans (Iff.symm ?_)
      exact Slab.exists_get_modify fun _ => Iff.rfl
  rw [Graph.updateEdge, Slab.get_eq_some.1 hd]
  by_cases hw : d.weight = weight
  · refine ⟨_, if_pos hw, hinv _ fun k a => ?_, rfl, rfl⟩
    split_ifs with ha
    · subst ha hw
      rw [h.weight]
      simp [hd, hx]
    · rfl
  · refine ⟨{ g with
        edges := g.edges.modify e fun d => { d with options := options, weight := weight }
        weightOrder := (g.weightOrder.erase (weightKey d.weight x.name d.toName)).insert
          (weightKey weight x.name d.toName) e }, ?_, hinv _ fun k a => ?_, rfl, rfl⟩
    · have hcontains : g.weightOrder.contains (weightKey d.weight x.name d.toName) := by
        rw [Std.TreeMap.contains_eq_isSome_getElem?, hown]
        rfl
      simp only [if_neg hw, slot_of_get hx, bind, Except.bind, hcontains, if_true]
      rfl
    · rw [Std.TreeMap.getElem?_insert, Std.TreeMap.getElem?_erase]
      simp only [compare_eq_iff_eq]
      have hkey : ∀ a, g.weightOrder[k]? = some a → weightKey d.weight x.name d.toName = k → e = a := by
        rintro a ha rfl
        exact Option.some.inj (hown.symm.trans ha)
      by_cases ha : e = a
      · subst ha
        rw [if_pos rfl]
        split_ifs with hnew hold
        · simp [hnew]
        · simp [hnew]
        · refine ⟨fun hk => (hold ?_).elim, fun hk => (hnew hk).elim⟩
          obtain ⟨c, z, hc, hz, hk⟩ := (h.weight k e).1 hk
          obtain rfl := Option.some.inj (hd.symm.trans hc)
          obtain rfl := Option.some.inj (hx.symm.trans hz)
          exact hk
      · rw [if_neg ha]
        split_ifs with hnew hold
        · refine ⟨fun hk => (ha (Option.some.inj hk)).elim, fun hk => (hother a ha k hk hnew.symm).elim⟩
        · refine ⟨fun hk => (by cases hk), fun hk => (ha (hkey a hk hold)).elim⟩
        · rfl

/-- The edges that leave a node go one by one; the head of the list is the next one. -/
theorem drain {n : NodeId} {x : Node} (es : List EdgeId) (hx : g.nodes.get n = some { x with edges := es }) :
    ∃ g', es.foldlM (fun g e => do pure (← g.delEdge e).2) g = .ok g' ∧ g'.Inv ∧ SameNodes g g' ∧
      g'.nodes.get n = some { x with edges := [] } ∧
      ∀ e d, g'.edges.get e = some d → ∃ r, g.edges.get e = some { d with reverse := r } := by
  induction es generalizing g with
  | nil => exact ⟨g, rfl, h, ⟨rfl, fun _ => rfl⟩, hx, fun e d hd => ⟨d.reverse, hd⟩⟩
  | cons e es ih =>
    obtain ⟨d, hd, rfl⟩ := (h.mem_edges hx e).1 List.mem_cons_self
    obtain ⟨g₁, hrun, hinv, hsame, hx₁, hedges⟩ := h.delEdge hd hx
    rw [List.erase_cons_head] at hx₁
    obtain ⟨g₂, hrun₂, hinv₂, hsame₂, hx₂, hedges₂⟩ := ih hinv hx₁
    refine ⟨g₂, ?_, hinv₂, ⟨hsame₂.1.trans hsame.1, fun n => (hsame₂.2 n).trans (hsame.2 n)⟩, hx₂, fun e' d' hd' => ?_⟩
    · rw [List.foldlM_cons, hrun]
      exact hrun₂
    · obtain ⟨r, hr⟩ := hedges₂ e' d' hd'
      rw [hedges, Slab.get_erase] at hr
      split_ifs at hr
      obtain ⟨r', hr'⟩ := (sameCore_relink g.edges d.reverse none).symm.get hr
      exact ⟨r', hr'⟩

theorem delNode {n : NodeId} {x : Node} (hx : g.nodes.get n = some x)
    (hin : ∀ e d, g.edges.get e = some d → d.toNode ≠ n) :
    ∃ g', g.delNode n = .ok (some (), g') ∧ g'.Inv ∧ g'.nodes.cells.length = g.nodes.cells.length ∧
      (∀ m, (g'.nodes.get m).map Node.label = if n = m then none else (g.nodes.get m).map Node.label) ∧
      ∀ e d, g'.edges.get e = some d → ∃ r, g.edges.get e = some { d with reverse := r } := by
  obtain ⟨g₁, hrun, hinv, hsame, hx₁, hedges⟩ := h.drain x.edges hx
  refine ⟨{ g₁ with nodes := g₁.nodes.erase n }, ?_, ?_, (Slab.length_erase ..).trans hsame.1, fun m => ?_, hedges⟩
  · rw [Graph.delNode, Slab.get_eq_some.1 hx]
    simp only [bind, Except.bind] at hrun ⊢
    rw [hrun]
    rfl
  rotate_left
  · rw [Slab.get_erase]
    split_ifs
    · rfl
    · exact hsame.2 m
  -- no edge touches the node any more
  have hfrom : ∀ {e d}, g₁.edges.get e = some d → d.fromNode ≠ n := by
    rintro e d hd rfl
    have := (hinv.mem_edges hx₁ e).2 ⟨d, hd, rfl⟩
    cases this
  have hto : ∀ {e d}, g₁.edges.get e = some d → d.toNode ≠ n := by
    intro e d hd
    obtain ⟨r, hr⟩ := hedges e d hd
    have hne := hin e _ hr
    exact hne
  have hget : ∀ {m z}, (g₁.nodes.erase n).get m = some z → g₁.nodes.get m = some z := by
    intro m z hz
    rw [Slab.get_erase] at hz
    split_ifs at hz
    exact hz
  refine { name_inj := ?_, mem_edges := ?_, sorted := ?_, ends := ?_, weight := ?_, reverse := hinv.reverse }
  · exact fun hy hz => hinv.name_inj (hget hy) (hget hz)
  · exact fun hz => hinv.mem_edges (hget hz)
  · exact fun hz => hinv.sorted (hget hz)
  · intro e d hd
    simp only [Slab.get_erase, if_neg (hfrom hd).symm, if_neg (hto hd).symm]
    exact hinv.ends hd
  · intro k e
    refine (hinv.weight k e).trans (exists_congr fun d => exists_congr fun z => and_congr_right fun hd => ?_)
    rw [Slab.get_erase, if_neg (hfrom hd).symm]

end Inv

theorem inv_new : new.Inv where
  name_inj hx := by cases hx
  mem_edges hx := by cases hx
  sorted hx := by cases hx
  ends hd := by cases hd
  weight k e := by
    constructor
    · intro hk
      cases hk
    · rintro ⟨d, x, hd, -⟩
      cases hd
  reverse hd := by cases hd

inductive Op
  | addNode (name : String)
  | addEdge (fromNode toNode : NodeId) (weight : ℤ) (options : UInt32)
  | updateEdge (e : EdgeId) (weight : ℤ) (options : UInt32)
  | delEdge (e : EdgeId)
  | setReachable (n : NodeId) (r : Bool)
  | delNode (n : NodeId)
deriving DecidableEq, Repr

def Op.apply (g : Graph) : Op → Except Panic Graph
  | addNode name => do pure (← g.addNode name).2
  | addEdge fromNode toNode weight options => do pure (← g.addEdge fromNode toNode weight options).2
  | updateEdge e weight options => do pure (← g.updateEdge e weight options).2
  | delEdge e => do pure (← g.delEdge e).2
  | setReachable n r => g.setReachable n r
  | delNode n => do pure (← g.delNode n).2

/-- An id that was handed out before, whether or not its slot is still filled. -/
def Issued {α : Type} (s : Slab α) (i : ℕ) : Prop := i < s.cells.length

def Op.Allowed (g : Graph) : Op → Prop
  | addNode name => HasSlot g.nodes ∧ ∀ c ∈ g.nodes.cells, ∀ x ∈ c, x.name ≠ name
  | addEdge fromNode toNode _ _ => HasSlot g.edges ∧ (g.nodes.get fromNode).isSome ∧ (g.nodes.get toNode).isSome ∧
      fromNode ≠ toNode ∧ ∀ c ∈ g.edges.cells, ∀ d ∈ c, d.fromNode = fromNode → d.toNode ≠ toNode
  | updateEdge e _ _ => Issued g.edges e
  | delEdge e => Issued g.edges e
  | setReachable n _ => (g.nodes.get n).isSome
  | delNode n => Issued g.nodes n ∧ ∀ c ∈ g.edges.cells, ∀ d ∈ c, d.toNode ≠ n

instance {α : Type} (s : Slab α) : Decidable (HasSlot s) :=
  inferInstanceAs (Decidable (¬(s.free = [] ∧ 2 ^ 32 ≤ s.cells.length)))

instance {α : Type} (s : Slab α) (i : ℕ) : Decidable (Issued s i) := inferInstanceAs (Decidable (i < s.cells.length))

instance (g : Graph) : (op : Op) → Decidable (op.Allowed g)
  | .addNode name => inferInstanceAs (Decidable (HasSlot g.nodes ∧ ∀ c ∈ g.nodes.cells, ∀ x ∈ c, x.name ≠ name))
  | .addEdge fromNode toNode _ _ => inferInstanceAs (Decidable (HasSlot g.edges ∧ (g.nodes.get fromNode).isSome ∧
      (g.nodes.get toNode).isSome ∧ fromNode ≠ toNode ∧
      ∀ c ∈ g.edges.cells, ∀ d ∈ c, d.fromNode = fromNode → d.toNode ≠ toNode))
  | .updateEdge e _ _ => inferInstanceAs (Decidable (Issued g.edges e))
  | .delEdge e => inferInstanceAs (Decidable (Issued g.edges e))
  | .setReachable n _ => inferInstanceAs (Decidable ((g.nodes.get n).isSome = true))
  | .delNode n => inferInstanceAs (Decidable (Issued g.nodes n ∧ ∀ c ∈ g.edges.cells, ∀ d ∈ c, d.toNode ≠ n))

theorem forall_cells {α : Type} {s : Slab α} {p : α → Prop} (h : ∀ c ∈ s.cells, ∀ a ∈ c, p a) {i : ℕ} {a : α}
    (ha : s.get i = some a) : p a :=
  h (some a) (List.mem_of_getElem? (Slab.get_eq_some.1 ha)) a rfl

/-- An id that was handed out is live or its cell is empty. -/
theorem Issued.cases {α : Type} {s : Slab α} {i : ℕ} (h : Issued s i) :
    (∃ a, s.get i = some a) ∨ s.cells[i]? = some none := by
  cases hc : s.cells[i]? with
  | none => exact (Nat.not_le_of_lt h (List.getElem?_eq_none_iff.1 hc)).elim
  | some c =>
    cases c with
    | none => exact .inr rfl
    | some a => exact .inl ⟨a, Slab.get_eq_some.2 hc⟩

theorem Op.Allowed.inv {g : Graph} (h : g.Inv) {op : Op} (ha : op.Allowed g) : ∃ g', op.apply g = .ok g' ∧ g'.Inv := by
  cases op with
  | addNode name =>
    obtain ⟨hslot, hname⟩ := ha
    obtain ⟨g', hrun, hinv, -⟩ := h.addNode hslot fun n x hx => forall_cells hname hx
    exact ⟨g', by rw [apply, hrun]; rfl, hinv⟩
  | addEdge a b weight options =>
    obtain ⟨hslot, hx, hy, hne, hnew⟩ := ha
    obtain ⟨x, hx⟩ := Option.isSome_iff_exists.1 hx
    obtain ⟨y, hy⟩ := Option.isSome_iff_exists.1 hy
    obtain ⟨g', _, hrun, hinv, -⟩ := h.addEdge hslot hx hy hne (fun e d hd => forall_cells hnew hd) weight options
    exact ⟨g', by rw [apply, hrun]; rfl, hinv⟩
  | updateEdge e weight options =>
    rcases Issued.cases ha with ⟨d, hd⟩ | hfree
    · obtain ⟨g', hrun, hinv, -⟩ := h.updateEdge hd weight options
      exact ⟨g', by rw [apply, hrun]; rfl, hinv⟩
    · exact ⟨g, by rw [apply, Graph.updateEdge, hfree]; rfl, h⟩
  | delEdge e =>
    rcases Issued.cases ha with ⟨d, hd⟩ | hfree
    · obtain ⟨x, hx⟩ := Option.isSome_iff_exists.1 (h.ends hd).1
      obtain ⟨g', hrun, hinv, -⟩ := h.delEdge hd hx
      exact ⟨g', by rw [apply, hrun]; rfl, hinv⟩
    · exact ⟨g, by rw [apply, Graph.delEdge, hfree]; rfl, h⟩
  | setReachable n r =>
    obtain ⟨x, hx⟩ := Option.isSome_iff_exists.1 ha
    obtain ⟨g', hrun, hinv, -⟩ := h.setReachable hx r
    exact ⟨g', hrun, hinv⟩
  | delNode n =>
    obtain ⟨hissued, hin⟩ := ha
    rcases Issued.cases hissued with ⟨x, hx⟩ | hfree
    · obtain ⟨g', hrun, hinv, -⟩ := h.delNode hx fun e d hd => forall_cells hin hd
      exact ⟨g', by rw [apply, hrun]; rfl, hinv⟩
    · exact ⟨g, by rw [apply, Graph.delNode, hfree]; rfl, h⟩

def applyAll (ops : List Op) (g : Graph) : Except Panic Graph := ops.foldlM Op.apply g

def Disciplined : List Op → Graph → Prop
  | [], _ => True
  | op :: ops, g => op.Allowed g ∧
      match op.apply g with
      | .ok g' => Disciplined ops g'
      | .error _ => True

instance decidableDisciplined : (ops : List Op) → (g : Graph) → Decidable (Disciplined ops g)
  | [], _ => .isTrue trivial
  | op :: ops, g =>
    have : Decidable (match op.apply g with | .ok g' => Disciplined ops g' | .error _ => True) :=
      match op.apply g with
      | .ok g' => decidableDisciplined ops g'
      | .error _ => .isTrue trivial
    inferInstanceAs (Decidable (op.Allowed g ∧ _))

theorem applyAll_inv {g : Graph} (h : g.Inv) {ops : List Op} (hops : Disciplined ops g) :
    ∃ g', applyAll ops g = .ok g' ∧ g'.Inv := by
  induction ops generalizing g with
  | nil => exact ⟨g, rfl, h⟩
  | cons op ops ih =>
    obtain ⟨ha, hrest⟩ := hops
    obtain ⟨g₁, hrun, hinv⟩ := ha.inv h
    rw [hrun] at hrest
    obtain ⟨g₂, hrun₂, hinv₂⟩ := ih hinv hrest
    refine ⟨g₂, ?_, hinv₂⟩
    rw [applyAll, List.foldlM_cons, hrun]
    exact hrun₂

/-- A graph that was built by operations can be looked at by evaluating them. -/
theorem applyAll_any {ops : List Op} (hops : Disciplined ops new) {p : Graph → Bool}
    (hp : (applyAll ops new).toOption.any p = true) : ∃ g, applyAll ops new = .ok g ∧ g.Inv ∧ p g = true := by
  obtain ⟨g, hrun, hinv⟩ := applyAll_inv inv_new hops
  rw [hrun] at hp
  exact ⟨g, hrun, hinv, hp⟩

/-- The free list holds the empty cells, each once. -/
def FreeExact {α : Type} (s : Slab α) : Prop := s.free.Nodup ∧ ∀ i, i ∈ s.free ↔ s.cells[i]? = some none

theorem disciplined_inv {ops : List Op} (hops : Disciplined ops new) :
    ∃ g, applyAll ops new = .ok g ∧ FreeExact g.nodes ∧ FreeExact g.edges ∧ g.Inv := by
  obtain ⟨g, hrun, hinv⟩ := applyAll_inv inv_new hops
  exact ⟨g, hrun, ⟨g.nodes.free_nodup, g.nodes.mem_free⟩, ⟨g.edges.free_nodup, g.edges.mem_free⟩, hinv⟩

/-- Both edges between two nodes, one of them reweighted, the other deleted twice, and the node it went to
deleted after it. -/
def linkAndUnlink : List Op :=
  [.addNode "a", .addNode "b", .addEdge 0 1 5 0, .addEdge 1 0 7 0, .updateEdge 0 9 1, .delEdge 1, .delEdge 1,
    .delNode 0, .setReachable 1 false, .addNode "c", .addEdge 1 0 3 0]

theorem disciplined_inv_linkAndUnlink : Disciplined linkAndUnlink new ∧
    ∃ g, applyAll linkAndUnlink new = .ok g ∧ FreeExact g.nodes ∧ FreeExact g.edges ∧ g.Inv :=
  have h : Disciplined linkAndUnlink new := by decide
  ⟨h, disciplined_inv h⟩

/-- The bit of a deleted node cannot be set, though its id was handed out. -/
theorem setReachable_stale : Disciplined [.addNode "a", .delNode 0] new ∧
    ∃ g, applyAll [.addNode "a", .delNode 0] new = .ok g ∧ Issued g.nodes 0 ∧
      (Op.setReachable 0 false).apply g = .error .liveSlot :=
  ⟨by decide, _, rfl, by decide, rfl⟩

end Graph

end Tincr
