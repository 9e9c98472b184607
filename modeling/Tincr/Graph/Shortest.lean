import Tincr.Graph.Search

/-!
Routes of a mesh without indirect edges. Nodes come off the queue in the order of their distance, so the
first route to a node has the fewest hops, and only a lighter one of as many hops replaces it. At the end no
edge offers fewer hops or, at as many, a smaller weight: by induction over a walk, no walk does either.
-/

namespace Tincr.Graph

open Function

variable {g : Graph} {myself : NodeId} {prevNh : NodeId → Option NodeId}

/-- A walk from the root over edges with a twin: where it ends, its edges and its saturating weight. -/
inductive Walk (g : Graph) (root : NodeId) : NodeId → List EdgeId → ℤ → Prop
  | nil : Walk g root root [] 0
  | snoc {a : NodeId} {es : List EdgeId} {w : ℤ} {e : EdgeId} {d : Edge} : Walk g root a es w →
      g.edges.get e = some d → d.fromNode = a → d.reverse ≠ none → Walk g root d.toNode (es ++ [e]) (satAdd w d.weight)

def firstHop (g : Graph) (root : NodeId) : List EdgeId → Option NodeId
  | [] => some root
  | e :: _ => (g.edges.get e).map (·.toNode)

def NoIndirect (g : Graph) : Prop := ∀ e d, g.edges.get e = some d → d.options &&& OPTION_INDIRECT = 0

theorem satAdd_mono {a b : ℤ} (h : a ≤ b) (w : ℤ) : satAdd a w ≤ satAdd b w := by
  unfold satAdd
  omega

structure Backed (g : Graph) (root n : NodeId) (r : Route) (es : List EdgeId) : Prop where
  walk : Walk g root n es r.weightedDistance
  distance : es.length = r.distance
  prevedge : es.getLast? = r.prevedge
  nexthop : firstHop g root es = some r.nexthop
  hop : r.nexthop = root → es = []
  direct : r.indirect = false
  via : r.via = n

theorem backed_start (g : Graph) (root : NodeId) : Backed g root root ⟨false, 0, 0, root, root, none, 0⟩ [] :=
  ⟨.nil, rfl, rfl, rfl, fun _ => rfl, rfl, rfl⟩

variable {r : Route} {st : Bfs} {n : NodeId} {p : EdgeId × Edge}

theorem Backed.candidate {es : List EdgeId} (hb : Backed g myself n r es) (h : g.Inv) (hno : g.NoIndirect)
    (hp : p ∈ g.arcs n) (husable : Usable myself p) :
    Backed g myself p.2.toNode (candidate myself r p.1 p.2) (es ++ [p.1]) := by
  obtain ⟨hget, hfrom⟩ := h.mem_arcs.1 hp
  have hdirect : (r.indirect || p.2.options &&& OPTION_INDIRECT != 0) = false := by
    simp [hb.direct, hno _ _ hget]
  refine ⟨.snoc hb.walk hget hfrom husable.1, by simp [Graph.candidate, hb.distance], by simp [Graph.candidate], ?_,
    fun hroot => ?_, hdirect, by simp [Graph.candidate, hdirect]⟩
  · cases es with
    | nil =>
      have hroot : r.nexthop = myself := (Option.some.inj hb.nexthop).symm
      simp [firstHop, hget, Graph.candidate, hroot]
    | cons e es =>
      have hroot : r.nexthop ≠ myself := fun hr => by simpa using hb.hop hr
      rw [List.cons_append, firstHop, Graph.candidate, if_neg hroot]
      exact hb.nexthop
  · simp only [Graph.candidate] at hroot
    split_ifs at hroot with hr
    · exact absurd hroot husable.2
    · exact absurd hroot hr

def dist (route : NodeId → Option Route) (n : NodeId) : ℕ := ((route n).map (·.distance)).getD 0

theorem dist_of_some {route : NodeId → Option Route} (h : route n = some r) : dist route n = r.distance := by
  simp [dist, h]

structure Level (g : Graph) (root : NodeId) (st : Bfs) : Prop where
  base : Base g root st
  backed : ∀ n r, st.route n = some r → ∃ es, Backed g root n r es
  sorted : st.todo.Pairwise fun a b => dist st.route a ≤ dist st.route b
  span : ∀ m ∈ st.todo, ∀ y r, st.route y = some r → r.distance ≤ dist st.route m + 1

structure Visiting (g : Graph) (root : NodeId) (r : Route) (st : Bfs) : Prop where
  base : Base g root st
  backed : ∀ n r, st.route n = some r → ∃ es, Backed g root n r es
  sorted : st.todo.Pairwise fun a b => dist st.route a ≤ dist st.route b
  above : ∀ m ∈ st.todo, r.distance ≤ dist st.route m
  span : ∀ y o, st.route y = some o → o.distance ≤ r.distance + 1

theorem Visiting.revisit {new : Route} (hv : Visiting g myself r st)
    (hrev : Route.revisit (st.route p.2.toNode) (candidate myself r p.1 p.2) = some new) :
    new = candidate myself r p.1 p.2 ∧ ∀ o, st.route p.2.toNode = some o →
      o.distance = r.distance + 1 ∧ new.weightedDistance < o.weightedDistance := by
  rcases revisit_some hrev with ⟨hnone, rfl⟩ | ⟨o, ho, hlight, rfl⟩ | ⟨o, ho, -, hind, -⟩
  · exact ⟨rfl, fun o ho => by rw [hnone] at ho; cases ho⟩
  · refine ⟨rfl, fun o' ho' => ?_⟩
    obtain rfl := Option.some.inj (ho.symm.trans ho')
    exact lighter_iff.1 hlight
  · obtain ⟨es, hes⟩ := hv.backed _ o ho
    rw [hes.direct] at hind
    cases hind

/-- A relaxation does not move a node that has a route to another level. -/
theorem Visiting.dist_eq {new : Route} (hv : Visiting g myself r st)
    (hrev : Route.revisit (st.route p.2.toNode) (candidate myself r p.1 p.2) = some new) {m : NodeId}
    (hm : (st.route m).isSome) : dist (update st.route p.2.toNode (some new)) m = dist st.route m := by
  by_cases hto : m = p.2.toNode
  · subst hto
    obtain ⟨o, ho⟩ := Option.isSome_iff_exists.1 hm
    obtain ⟨rfl, hold⟩ := hv.revisit hrev
    rw [dist_of_some (update_self ..), dist_of_some ho, (hold o ho).1]
    rfl
  · rw [dist, dist, update_of_ne hto]

theorem Visiting.relax {st : Bfs} {n : NodeId} {r : Route} {p : EdgeId × Edge} (hv : Visiting g myself r st)
    (h : g.Inv) (hno : g.NoIndirect) (hr : st.route n = some r) (hp : p ∈ g.arcs n) :
    Visiting g myself r (st.relax myself prevNh r p) := by
  have hbase := @Base.relax g myself prevNh _ _ _ _ hv.base h hr hp
  rcases relax_cases myself prevNh r st p with ⟨-, hst⟩ | ⟨-, -, hroute, htodo⟩ | ⟨husable, new, hrev, hroute, htodo⟩
  · rwa [hst]
  · refine ⟨hbase, ?_, ?_, ?_, ?_⟩ <;> rw [hroute]
    · exact hv.backed
    · rw [htodo]
      exact hv.sorted
    · rw [htodo]
      exact hv.above
    · exact hv.span
  · obtain ⟨hnew, -⟩ := hv.revisit hrev
    have hdist : new.distance = r.distance + 1 := by rw [hnew]; rfl
    have hlast : dist (update st.route p.2.toNode (some new)) p.2.toNode = r.distance + 1 := by
      rw [dist_of_some (update_self ..), hdist]
    have hsame : ∀ m ∈ st.todo, dist (update st.route p.2.toNode (some new)) m = dist st.route m :=
      fun m hm => hv.dist_eq hrev (hv.base.queued m hm)
    refine ⟨hbase, fun m o ho => ?_, ?_, fun m hm => ?_, fun y o ho => ?_⟩
    · rw [hroute] at ho
      by_cases hto : m = p.2.toNode
      · subst hto
        rw [update_self] at ho
        obtain rfl := Option.some.inj ho
        obtain ⟨es, hes⟩ := hv.backed n r hr
        exact ⟨_, hnew ▸ hes.candidate h hno hp husable⟩
      · rw [update_of_ne hto] at ho
        exact hv.backed m o ho
    · rw [htodo, hroute, List.pairwise_append]
      refine ⟨?_, by simp, fun a ha b hb => ?_⟩
      · exact hv.sorted.imp_of_mem fun ha hb hle => by rwa [hsame _ ha, hsame _ hb]
      · obtain ⟨o, ho⟩ := Option.isSome_iff_exists.1 (hv.base.queued a ha)
        rw [List.mem_singleton.1 hb, hlast, hsame a ha, dist_of_some ho]
        exact hv.span a o ho
    · rw [htodo] at hm
      rw [hroute]
      rcases List.mem_append.1 hm with hm | hm
      · rw [hsame m hm]
        exact hv.above m hm
      · rw [List.mem_singleton.1 hm, hlast]
        omega
    · rw [hroute] at ho
      by_cases hto : y = p.2.toNode
      · subst hto
        rw [update_self] at ho
        obtain rfl := Option.some.inj ho
        exact hdist.le
      · rw [update_of_ne hto] at ho
        exact hv.span y o ho

/-- No fewer hops along the edge, and at as many no smaller weight. -/
def Tight (route : NodeId → Option Route) (n : NodeId) (q : EdgeId × Edge) : Prop :=
  ∀ r, route n = some r → ∃ o, route q.2.toNode = some o ∧ o.distance ≤ r.distance + 1 ∧
    (o.distance = r.distance + 1 → o.weightedDistance ≤ satAdd r.weightedDistance q.2.weight)

theorem Visiting.tight (hv : Visiting g myself r st) (h : g.Inv) (hr : st.route n = some r) (hp : p ∈ g.arcs n)
    (husable : Usable myself p) : Tight (st.relax myself prevNh r p).route n p := by
  have hne : n ≠ p.2.toNode := by
    obtain ⟨hget, hfrom⟩ := h.mem_arcs.1 hp
    exact hfrom ▸ (h.ends hget).2.2
  intro r' hr'
  obtain rfl := Option.some.inj (hr.symm.trans ((relax_route_ne hne).symm.trans hr'))
  rcases relax_cases myself prevNh r st p with ⟨hskip, -⟩ | ⟨-, hrev, hroute, -⟩ | ⟨-, new, hrev, hroute, -⟩
  · exact absurd husable hskip
  · obtain ⟨o, ho, -, hlight⟩ := revisit_none hrev
    refine ⟨o, by rw [hroute, ho], hv.span _ o ho, fun hdist => ?_⟩
    by_contra hlt
    have : o.lighter (candidate myself r p.1 p.2) = true := lighter_iff.2 ⟨hdist, not_le.1 hlt⟩
    rw [hlight] at this
    cases this
  · obtain ⟨rfl, -⟩ := hv.revisit hrev
    exact ⟨_, by rw [hroute, update_self], le_rfl, fun _ => le_rfl⟩

theorem Visiting.keep_tight (hv : Visiting g myself r st) {m : NodeId} {q : EdgeId × Edge}
    (hm : (st.relax myself prevNh r p).route m = st.route m) (ht : Tight st.route m q) :
    Tight (st.relax myself prevNh r p).route m q := by
  intro rm hrm
  obtain ⟨o, ho, hle, hweight⟩ := ht rm (hm ▸ hrm)
  by_cases hto : q.2.toNode = p.2.toNode
  · rcases relax_cases myself prevNh r st p with ⟨-, hst⟩ | ⟨-, -, hroute, -⟩ | ⟨-, new, hrev, hroute, -⟩
    · exact ⟨o, by rw [hst, ho], hle, hweight⟩
    · exact ⟨o, by rw [hroute, ho], hle, hweight⟩
    · rw [hto] at ho
      obtain ⟨hnew, hold⟩ := hv.revisit hrev
      have hdist : new.distance = o.distance := by
        rw [(hold o ho).1, hnew]
        rfl
      refine ⟨new, by rw [hroute, hto, update_self], by omega, fun heq => ?_⟩
      exact (hold o ho).2.le.trans (hweight (hdist ▸ heq))
  · exact ⟨o, by rw [relax_route_ne hto, ho], hle, hweight⟩

theorem Level.pop {rest : List NodeId} (hlevel : Level g myself st) (htodo : st.todo = n :: rest)
    (hr : st.route n = some r) : Visiting g myself r { st with todo := rest } := by
  have hsorted := hlevel.sorted
  rw [htodo, List.pairwise_cons] at hsorted
  refine ⟨⟨hlevel.base.root, hlevel.base.reach, hlevel.base.range, fun m hm =>
    hlevel.base.queued m (htodo ▸ List.mem_cons_of_mem _ hm)⟩, hlevel.backed, hsorted.2, fun m hm => ?_,
    fun y o ho => ?_⟩
  · rw [← dist_of_some hr]
    exact hsorted.1 m hm
  · rw [← dist_of_some hr]
    exact hlevel.span n (htodo ▸ List.mem_cons_self) y o ho

theorem Visiting.push (hv : Visiting g myself r st) : Level g myself st :=
  ⟨hv.base, hv.backed, hv.sorted, fun m hm y o ho => (hv.span y o ho).trans (by have := hv.above m hm; omega)⟩

theorem level_rounds (h : g.Inv) (hlive : (g.nodes.get myself).isSome) (hno : g.NoIndirect) :
    Rounds g myself prevNh (Level g myself) (fun _ r => Visiting g myself r) Tight fun _ => True where
  queued hlevel := hlevel.base.queued_live h hlive
  pop htodo hr hlevel := hlevel.pop htodo hr
  relax hv hr hp _ := hv.relax h hno hr hp
  settle hv hr hp husable _ := hv.tight h hr hp husable
  keep hv _ _ _ _ _ hm ht := hv.keep_tight hm ht
  push hv := hv.push

theorem level_start (g : Graph) (myself : NodeId) : Level g myself (.start myself) := by
  refine ⟨base_start g myself, fun n r hr => ?_, List.pairwise_singleton _ _, fun m _ y o ho => ?_⟩
  · obtain ⟨rfl, rfl⟩ := start_some hr
    exact ⟨[], backed_start g n⟩
  · obtain ⟨-, rfl⟩ := start_some ho
    exact Nat.zero_le _

/-- No walk has fewer hops than the route, or at as many a smaller weight. -/
theorem route_of_walk {route : NodeId → Option Route} (h : g.Inv)
    (hroot : route myself = some ⟨false, 0, 0, myself, myself, none, 0⟩)
    (htight : ∀ m, (route m).isSome → ∀ q ∈ g.arcs m, Usable myself q → Tight route m q) {es : List EdgeId} {w : ℤ}
    (hwalk : Walk g myself n es w) :
    ∃ o, route n = some o ∧ o.distance ≤ es.length ∧ (o.distance = es.length → o.weightedDistance ≤ w) := by
  induction hwalk with
  | nil => exact ⟨_, hroot, le_rfl, fun _ => le_rfl⟩
  | @snoc a es w e d _ hget hfrom hrev ih =>
    rw [List.length_append, List.length_singleton]
    by_cases hback : d.toNode = myself
    · refine ⟨_, hback ▸ hroot, Nat.zero_le _, fun hzero => ?_⟩
      dsimp only at hzero
      omega
    · obtain ⟨r, hr, hle, hweight⟩ := ih
      obtain ⟨o, ho, hdist, hlight⟩ := htight a (by rw [hr]; rfl) (e, d) (h.mem_arcs.2 ⟨hget, hfrom⟩) ⟨hrev, hback⟩ r hr
      refine ⟨o, ho, by omega, fun heq => ?_⟩
      exact (hlight (by omega)).trans (satAdd_mono (hweight (by omega)) _)

/-- A walk that no other beats: fewest hops first, then the weight. -/
def Shortest (g : Graph) (root n : NodeId) (es : List EdgeId) (w : ℤ) : Prop :=
  Walk g root n es w ∧ ∀ es' w', Walk g root n es' w' → es.length ≤ es'.length ∧ (es'.length = es.length → w ≤ w')

theorem search_shortest (h : g.Inv) (hlive : (g.nodes.get myself).isSome) (hno : g.NoIndirect)
    (hsearch : search g myself prevNh g.rounds (.start myself) = some (.ok st)) (hr : st.route n = some r) :
    ∃ es, Backed g myself n r es ∧ Shortest g myself n es r.weightedDistance := by
  obtain ⟨hlevel, htight⟩ := (level_rounds h hlive hno).search_settled h hsearch (by simp) (level_start g myself)
    (allSettled_start _)
  obtain ⟨es, hes⟩ := hlevel.backed n r hr
  refine ⟨es, hes, hes.walk, fun es' w' hwalk => ?_⟩
  obtain ⟨o, ho, hle, hweight⟩ := route_of_walk h hlevel.base.root htight hwalk
  obtain rfl := Option.some.inj (hr.symm.trans ho)
  rw [hes.distance]
  exact ⟨hle, fun heq => hweight heq.symm⟩

/-- `sssp` returns; it reaches what links reach, and without indirect edges along shortest walks. -/
theorem sssp_shortest {root : NodeId} (h : g.Inv) (hlive : (g.nodes.get root).isSome) :
    ∃ routes, g.sssp root = some (.ok routes) ∧ (∀ n, (routes n).isSome ↔ g.Reach root n) ∧
      (g.NoIndirect → ∀ n r, routes n = some r → ∃ es, Shortest g root n es r.weightedDistance ∧
        r.distance = es.length ∧ r.prevedge = es.getLast? ∧ firstHop g root es = some r.nexthop ∧
        r.via = n ∧ r.indirect = false) := by
  obtain ⟨st, hsearch⟩ := search_returns h hlive fun n => (([] : List (Option Route))[n]?.join).map (·.nexthop)
  refine ⟨st.route, ssspSticky_eq hlive hsearch, search_reach h hlive hsearch, fun hno n r hr => ?_⟩
  · obtain ⟨es, hes, hshort⟩ := search_shortest h hlive hno hsearch hr
    exact ⟨es, hshort, hes.distance.symm, hes.prevedge.symm, hes.nexthop, hes.via, hes.direct⟩

/-- Three nodes in a ring; the two hops over `b` are as light as the one to `c`. -/
def ring : List Op :=
  [.addNode "a", .addNode "b", .addNode "c", .addEdge 0 1 5 0, .addEdge 1 0 5 0, .addEdge 1 2 5 0, .addEdge 2 1 5 0,
    .addEdge 0 2 10 0, .addEdge 2 0 10 0]

theorem sssp_shortest_ring : ∃ g, applyAll ring new = .ok g ∧
    ∃ routes, g.sssp 0 = some (.ok routes) ∧ (∀ n, (routes n).isSome ↔ g.Reach 0 n) ∧
      ∀ n r, routes n = some r → ∃ es, Shortest g 0 n es r.weightedDistance ∧
        r.distance = es.length ∧ r.prevedge = es.getLast? ∧ firstHop g 0 es = some r.nexthop ∧
        r.via = n ∧ r.indirect = false := by
  obtain ⟨g, hrun, hinv, hp⟩ := applyAll_any (show Disciplined ring new by decide +kernel)
    (p := fun g => (g.nodes.get 0).isSome && decide (∀ c ∈ g.edges.cells, ∀ d ∈ c, d.options &&& OPTION_INDIRECT = 0))
    (by decide +kernel)
  rw [Bool.and_eq_true, decide_eq_true_eq] at hp
  obtain ⟨routes, hroutes, hreach, hshort⟩ := sssp_shortest hinv hp.1
  exact ⟨g, hrun, routes, hroutes, hreach, hshort fun e d hd => forall_cells hp.2 hd⟩

end Tincr.Graph
