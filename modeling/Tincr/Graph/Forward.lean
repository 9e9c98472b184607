import Tincr.Graph.Shortest

/-!
Forwarding without indirect edges, when every node has its own table and its own history. What stickiness
notes for a node is the weight of a walk over the previous next hop that has as many hops as the route; so
whichever next hop a node settles for, the target is one hop closer from there, and following the tables
reaches it in as few hops as there can be.
-/

namespace Tincr.Graph

variable {g : Graph} {myself : NodeId} {prevNh : NodeId → Option NodeId}

/-- Every note of stickiness has a walk over the previous next hop behind it, as long as the route. -/
def StickyBacked (g : Graph) (root : NodeId) (prevNh : NodeId → Option NodeId) (st : Bfs) : Prop :=
  ∀ y w, st.stickyWdist y = some w → ∃ es w' r, Walk g root y es w' ∧ firstHop g root es = prevNh y ∧
    st.route y = some r ∧ es.length = r.distance

/-- A note was there before or is made for the far end of the edge. -/
theorem relax_sticky {st : Bfs} {r : Route} {p : EdgeId × Edge} {y : NodeId} {w : ℤ}
    (h : (st.relax myself prevNh r p).stickyWdist y = some w) :
    (∃ w, st.stickyWdist y = some w) ∨ y = p.2.toNode ∧ Usable myself p ∧
      some (candidate myself r p.1 p.2).nexthop = prevNh y ∧
      ∀ o, st.route y = some o → o.distance = (candidate myself r p.1 p.2).distance := by
  have hstick : ∀ {cand}, (st.stick (prevNh p.2.toNode) p.2.toNode cand).stickyWdist y = some w →
      (∃ w, st.stickyWdist y = some w) ∨ y = p.2.toNode ∧ some cand.nexthop = prevNh y ∧
        ∀ o, st.route y = some o → o.distance = cand.distance := by
    intro cand h
    unfold Bfs.stick at h
    split_ifs at h with hnote
    · by_cases hy : y = p.2.toNode
      · subst hy
        refine .inr ⟨rfl, hnote.1, fun o ho => ?_⟩
        simpa [ho] using hnote.2
      · dsimp only at h
        rw [Function.update_of_ne hy] at h
        exact .inl ⟨w, h⟩
    · exact .inl ⟨w, h⟩
  unfold Bfs.relax at h
  split_ifs at h with hskip
  · exact .inl ⟨w, h⟩
  · have husable : Usable myself p := not_or.1 hskip
    dsimp only at h
    split at h
    · exact (hstick h).imp_right fun ⟨hy, hrest⟩ => ⟨hy, husable, hrest⟩
    · exact (hstick h).imp_right fun ⟨hy, hrest⟩ => ⟨hy, husable, hrest⟩

theorem StickyBacked.relax {st : Bfs} {n : NodeId} {r : Route} {p : EdgeId × Edge}
    (hs : StickyBacked g myself prevNh st) (hv : Visiting g myself r st) (h : g.Inv) (hno : g.NoIndirect)
    (hr : st.route n = some r) (hp : p ∈ g.arcs n) : StickyBacked g myself prevNh (st.relax myself prevNh r p) := by
  -- a node with a route stays on its level
  have hlevel : ∀ y o, st.route y = some o →
      ∃ o', (st.relax myself prevNh r p).route y = some o' ∧ o'.distance = o.distance := by
    intro y o ho
    rcases relax_cases myself prevNh r st p with ⟨-, hst⟩ | ⟨-, -, hroute, -⟩ | ⟨-, new, hrev, hroute, -⟩
    · exact ⟨o, by rw [hst, ho], rfl⟩
    · exact ⟨o, by rw [hroute, ho], rfl⟩
    · have hdist := hv.dist_eq hrev (by rw [ho]; rfl)
      obtain ⟨o', ho'⟩ := Option.isSome_iff_exists.1 (@relax_isSome myself prevNh r st p y (by rw [ho]; rfl))
      refine ⟨o', ho', ?_⟩
      rw [← hroute, dist_of_some ho', dist_of_some ho] at hdist
      exact hdist
  intro y w hy
  rcases relax_sticky hy with ⟨w, hw⟩ | ⟨rfl, husable, hnh, hdist⟩
  · obtain ⟨es, w', o, hwalk, hfirst, ho, hlen⟩ := hs y w hw
    obtain ⟨o', ho', hsame⟩ := hlevel y o ho
    exact ⟨es, w', o', hwalk, hfirst, ho', by rw [hlen, hsame]⟩
  · obtain ⟨es, hes⟩ := hv.backed n r hr
    have hcand := hes.candidate h hno hp husable
    have hroute : ∃ o, (st.relax myself prevNh r p).route p.2.toNode = some o ∧
        o.distance = (candidate myself r p.1 p.2).distance := by
      rcases relax_cases myself prevNh r st p with ⟨hskip, -⟩ | ⟨-, hrev, hroute, -⟩ | ⟨-, new, hrev, hroute, -⟩
      · exact absurd husable hskip
      · obtain ⟨o, ho, -⟩ := revisit_none hrev
        exact ⟨o, by rw [hroute, ho], hdist o ho⟩
      · obtain ⟨rfl, -⟩ := hv.revisit hrev
        exact ⟨_, by rw [hroute, Function.update_self], rfl⟩
    obtain ⟨o, ho, hod⟩ := hroute
    exact ⟨_, _, o, hcand.walk, hcand.nexthop.trans hnh, ho, hcand.distance.trans hod.symm⟩

theorem sticky_rounds (h : g.Inv) (hlive : (g.nodes.get myself).isSome) (hno : g.NoIndirect) :
    Rounds g myself prevNh (fun st => Level g myself st ∧ StickyBacked g myself prevNh st)
      (fun _ r st => Visiting g myself r st ∧ StickyBacked g myself prevNh st) (fun _ _ _ => True) fun _ => True where
  queued hs := hs.1.base.queued_live h hlive
  pop htodo hr hs := ⟨hs.1.pop htodo hr, hs.2⟩
  relax hs hr hp _ := ⟨hs.1.relax h hno hr hp, hs.2.relax hs.1 h hno hr hp⟩
  settle _ _ _ _ _ := trivial
  keep _ _ _ _ _ _ _ _ := trivial
  push hs := ⟨hs.1.push, hs.2⟩

def MinHops (g : Graph) (a b : NodeId) (es : List EdgeId) : Prop :=
  (∃ w, Walk g a b es w) ∧ ∀ es' w', Walk g a b es' w' → es.length ≤ es'.length

/-- The next hop of a sticky route is the first hop of a walk with as few hops as any. -/
theorem sticky_firstHop (h : g.Inv) (hlive : (g.nodes.get myself).isSome) (hno : g.NoIndirect)
    {prev : List (Option Route)} {routes : NodeId → Option Route}
    (hrun : g.ssspSticky myself prev = some (.ok routes)) {n : NodeId} {r : Route} (hr : routes n = some r) :
    ∃ es, MinHops g myself n es ∧ firstHop g myself es = some r.nexthop := by
  obtain ⟨st, hsearch⟩ := search_returns h hlive fun n => (prev[n]?.join).map (·.nexthop)
  rw [ssspSticky_eq hlive hsearch] at hrun
  obtain rfl := Except.ok.inj (Option.some.inj hrun)
  have hplain : ∀ o, st.route n = some o → ∃ es, MinHops g myself n es ∧ firstHop g myself es = some o.nexthop ∧
      es.length = o.distance := by
    intro o ho
    obtain ⟨es, hes, hshort⟩ := search_shortest h hlive hno hsearch ho
    exact ⟨es, ⟨⟨_, hshort.1⟩, fun es' w' hwalk => (hshort.2 es' w' hwalk).1⟩, hes.nexthop, hes.distance⟩
  split_ifs at hr with hprev
  · obtain ⟨es, hmin, hfirst, -⟩ := hplain r hr
    exact ⟨es, hmin, hfirst⟩
  · rcases stickyPostPass_cases st.route prev st.stickyWdist n with hsame | ⟨new, old, w, hnew, hold, hw, hpin⟩
    · obtain ⟨es, hmin, hfirst, -⟩ := hplain r (hsame ▸ hr)
      exact ⟨es, hmin, hfirst⟩
    · -- the pinned next hop has a walk of its own, as long as the shortest
      obtain rfl := Option.some.inj (hpin.symm.trans hr)
      obtain ⟨es, hmin, -, hlen⟩ := hplain new hnew
      obtain ⟨⟨-, hsticky⟩, -⟩ := (sticky_rounds h hlive hno).search_settled h hsearch (by simp)
        ⟨level_start g myself, fun y w hy => by cases hy⟩ (allSettled_start _)
      obtain ⟨es', w', o, hwalk, hfirst, ho, hlen'⟩ := hsticky n w hw
      obtain rfl := Option.some.inj (hnew.symm.trans ho)
      refine ⟨es', ⟨⟨w', hwalk⟩, fun es'' w'' hwalk'' => ?_⟩, ?_⟩
      · have := hmin.2 es'' w'' hwalk''
        omega
      · simp [hfirst, hold]

theorem Walk.eq_of_nil {a b : NodeId} {w : ℤ} (h : Walk g a b [] w) : b = a := by
  generalize hl : ([] : List EdgeId) = l at h
  cases h with
  | nil => rfl
  | snoc => simp at hl

theorem Walk.uncons {a b : NodeId} {e : EdgeId} {es : List EdgeId} {w : ℤ} (h : Walk g a b (e :: es) w) :
    ∃ d w', g.edges.get e = some d ∧ d.fromNode = a ∧ d.reverse ≠ none ∧ Walk g d.toNode b es w' := by
  generalize hl : e :: es = l at h
  induction h generalizing es with
  | nil => cases hl
  | @snoc c es₀ w₀ e₀ d₀ hpre hget hfrom hrev ih =>
    cases es₀ with
    | nil =>
      obtain ⟨rfl, rfl⟩ := List.cons.inj hl
      exact ⟨d₀, 0, hget, hfrom.trans hpre.eq_of_nil, hrev, .nil⟩
    | cons e₁ es₁ =>
      obtain ⟨rfl, rfl⟩ := List.cons.inj hl
      obtain ⟨d, w', hd, hdfrom, hdrev, hwalk⟩ := ih rfl
      exact ⟨d, _, hd, hdfrom, hdrev, .snoc hwalk hget hfrom hrev⟩

theorem Walk.cons {b : NodeId} {e : EdgeId} {d : Edge} {es : List EdgeId} {w : ℤ} (hget : g.edges.get e = some d)
    (hrev : d.reverse ≠ none) (h : Walk g d.toNode b es w) : ∃ w', Walk g d.fromNode b (e :: es) w' := by
  induction h with
  | nil => exact ⟨_, Walk.snoc .nil hget rfl hrev⟩
  | snoc _ hget' hfrom' hrev' ih =>
    obtain ⟨w', hw'⟩ := ih
    exact ⟨_, hw'.snoc hget' hfrom' hrev'⟩

theorem MinHops.tail {a b nh : NodeId} {e : EdgeId} {es : List EdgeId} (h : MinHops g a b (e :: es))
    (hfirst : firstHop g a (e :: es) = some nh) : MinHops g nh b es := by
  obtain ⟨⟨w, hwalk⟩, hmin⟩ := h
  obtain ⟨d, w', hd, rfl, hrev, htail⟩ := hwalk.uncons
  have hnh : d.toNode = nh := by simpa [firstHop, hd] using hfirst
  subst hnh
  refine ⟨⟨w', htail⟩, fun es' w' hwalk' => ?_⟩
  obtain ⟨w'', hwalk''⟩ := Walk.cons hd hrev hwalk'
  have := hmin _ _ hwalk''
  simp only [List.length_cons] at this
  omega

/-- `i` hops towards a target, each node forwarding by its own table. -/
def forward (tables : NodeId → NodeId → Option Route) (target : NodeId) : ℕ → NodeId → Option NodeId
  | 0, n => some n
  | i + 1, n => (tables n target).bind fun r => forward tables target i r.nexthop

/-- Each hop is one of a shortest walk, and the target comes at its end only. -/
theorem forward_of_minHops {tables : NodeId → NodeId → Option Route} {target : NodeId}
    (htables : ∀ n es, MinHops g n target es → n ≠ target →
      ∃ r es', tables n target = some r ∧ MinHops g n target es' ∧ firstHop g n es' = some r.nexthop)
    {n : NodeId} {es : List EdgeId} (h : MinHops g n target es) :
    forward tables target es.length n = some target ∧
      ∀ i < es.length, ∃ m, forward tables target i n = some m ∧ m ≠ target := by
  generalize hk : es.length = k
  induction k generalizing n es with
  | zero =>
    obtain ⟨w, hwalk⟩ := h.1
    rw [List.length_eq_zero_iff.1 hk] at hwalk
    exact ⟨congrArg some hwalk.eq_of_nil.symm, fun i hi => (Nat.not_lt_zero i hi).elim⟩
  | succ k ih =>
    have hne : n ≠ target := by
      rintro rfl
      have := h.2 [] 0 .nil
      simp [hk] at this
    obtain ⟨r, es', hr, hmin, hfirst⟩ := htables n es h hne
    obtain ⟨w, hwalk⟩ := h.1
    obtain ⟨w', hwalk'⟩ := hmin.1
    have hlen : es'.length = k + 1 := by
      have hle := h.2 es' w' hwalk'
      have hge := hmin.2 es w hwalk
      omega
    cases es' with
    | nil => simp at hlen
    | cons e es' =>
      obtain ⟨hlast, hbefore⟩ := ih (hmin.tail hfirst) (by simpa using hlen)
      refine ⟨by simpa [forward, hr] using hlast, fun i hi => ?_⟩
      cases i with
      | zero => exact ⟨n, rfl, hne⟩
      | succ i =>
        obtain ⟨m, hm, hmne⟩ := hbefore i (by omega)
        exact ⟨m, by simpa [forward, hr] using hm, hmne⟩

theorem exists_minHops {a b : NodeId} (h : g.Reach a b) : ∃ es, MinHops g a b es := by
  have hsome : ∃ k es w, Walk g a b es w ∧ es.length = k := by
    induction h with
    | refl => exact ⟨0, [], 0, .nil, rfl⟩
    | tail _ hlink ih =>
      obtain ⟨_, es, w, hwalk, -⟩ := ih
      obtain ⟨e, d, hget, hfrom, rfl, hrev⟩ := hlink
      exact ⟨_, _, _, hwalk.snoc hget hfrom hrev, rfl⟩
  classical
  obtain ⟨es, w, hwalk, hlen⟩ := Nat.find_spec hsome
  exact ⟨es, ⟨w, hwalk⟩, fun es' w' hwalk' => hlen ▸ Nat.find_min' hsome ⟨es', w', hwalk', rfl⟩⟩

theorem MinHops.reach {a b : NodeId} {es : List EdgeId} (h : MinHops g a b es) : g.Reach a b := by
  obtain ⟨⟨w, hwalk⟩, -⟩ := h
  induction hwalk with
  | nil => exact .refl
  | snoc _ hget hfrom hrev ih => exact ih.tail ⟨_, _, hget, hfrom, rfl, hrev⟩

/-- Whatever the tables were before, forwarding reaches its target in as few hops as any walk. -/
theorem forward_sticky (h : g.Inv) (hno : g.NoIndirect) (prev : NodeId → List (Option Route)) :
    ∃ tables : NodeId → NodeId → Option Route,
      (∀ n, (g.nodes.get n).isSome → g.ssspSticky n (prev n) = some (.ok (tables n))) ∧
      ∀ s d, s ≠ d → g.Reach s d → ∃ es, MinHops g s d es ∧ forward tables d es.length s = some d ∧
        ∀ i < es.length, ∃ m, forward tables d i s = some m ∧ m ≠ d := by
  have hrun : ∀ n, ∃ routes, (g.nodes.get n).isSome → g.ssspSticky n (prev n) = some (.ok routes) := by
    intro n
    by_cases hlive : (g.nodes.get n).isSome
    · obtain ⟨st, hsearch⟩ := search_returns h hlive fun m => ((prev n)[m]?.join).map (·.nexthop)
      exact ⟨_, fun _ => ssspSticky_eq hlive hsearch⟩
    · exact ⟨fun _ => none, fun h => absurd h hlive⟩
  choose tables htables using hrun
  refine ⟨tables, htables, fun s d _ hreach => ?_⟩
  obtain ⟨es, hmin⟩ := exists_minHops hreach
  refine ⟨es, hmin, forward_of_minHops (fun n es hmin hne => ?_) hmin⟩
  have hlive : (g.nodes.get n).isSome := by
    obtain ⟨m, ⟨e, c, hc, rfl, -⟩, -⟩ := (Relation.ReflTransGen.cases_head hmin.reach).resolve_left hne
    exact (h.ends hc).1
  obtain ⟨r, hr⟩ := Option.isSome_iff_exists.1 ((ssspSticky_reach h hlive (htables n hlive) d).2 hmin.reach)
  obtain ⟨es', hmin', hfirst⟩ := sticky_firstHop h hlive hno (htables n hlive) hr
  exact ⟨r, es', hr, hmin', hfirst⟩

/-- The ring, with a node that would rather go the long way round and one that was nowhere before. -/
theorem forward_sticky_ring : ∃ g, applyAll ring new = .ok g ∧ g.NoIndirect ∧
    ∃ tables : NodeId → NodeId → Option Route,
      (∀ n, (g.nodes.get n).isSome →
        g.ssspSticky n [none, none, some ⟨false, 2, 9, 1, 2, none, 0⟩] = some (.ok (tables n))) ∧
      ∀ s d, s ≠ d → g.Reach s d → ∃ es, MinHops g s d es ∧ forward tables d es.length s = some d ∧
        ∀ i < es.length, ∃ m, forward tables d i s = some m ∧ m ≠ d := by
  obtain ⟨g, hrun, hinv, hp⟩ := applyAll_any (show Disciplined ring new by decide)
    (p := fun g => decide (∀ c ∈ g.edges.cells, ∀ d ∈ c, d.options &&& OPTION_INDIRECT = 0)) (by decide)
  have hno : g.NoIndirect := fun e d hd => forall_cells (of_decide_eq_true hp) hd
  exact ⟨g, hrun, hno, forward_sticky hinv hno fun _ => [none, none, some ⟨false, 2, 9, 1, 2, none, 0⟩]⟩

end Tincr.Graph
