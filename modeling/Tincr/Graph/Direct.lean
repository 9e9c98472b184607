import Tincr.Graph.Search

/-!
Which nodes end up with a direct route. A direct route always has a path of direct hops behind it, and a
visit of a node with one makes the far ends of its direct edges direct. But a lighter candidate of as many
hops takes the place of a direct route even if it is indirect, and nothing visits the node before it again:
so the routes are direct where they can be exactly if every such loss is made up for later.
-/

namespace Tincr.Graph

variable {g : Graph} {myself : NodeId} {prevNh : NodeId → Option NodeId}

/-- A hop over an edge whose twin is there and that is not marked as indirect. -/
def DirectLink (g : Graph) (a b : NodeId) : Prop :=
  ∃ e d, g.edges.get e = some d ∧ d.fromNode = a ∧ d.toNode = b ∧ d.reverse ≠ none ∧ d.options &&& OPTION_INDIRECT = 0

def DirectPath (g : Graph) : NodeId → NodeId → Prop := Relation.ReflTransGen g.DirectLink

theorem DirectPath.reach {a b : NodeId} (h : g.DirectPath a b) : g.Reach a b :=
  Relation.ReflTransGen.mono (fun _ _ ⟨e, d, hget, hfrom, hto, hrev, _⟩ => ⟨e, d, hget, hfrom, hto, hrev⟩) _ _ h

def IsDirect (route : NodeId → Option Route) (n : NodeId) : Prop := ∃ r, route n = some r ∧ r.indirect = false

/-- A direct route is lost to a lighter candidate of as many hops. -/
def Relaxation.Downgrades (myself : NodeId) (t : Relaxation) : Prop :=
  Usable myself t.arc ∧ ∃ old, t.before.route t.arc.2.toNode = some old ∧ old.indirect = false ∧
    (candidate myself t.route t.arc.1 t.arc.2).indirect = true ∧
    old.lighter (candidate myself t.route t.arc.1 t.arc.2) = true

def ssspTrace (g : Graph) (myself : NodeId) : List Relaxation :=
  searchTrace g myself (fun n => (([] : List (Option Route))[n]?.join).map (·.nexthop)) g.rounds (.start myself)

/-- A direct route comes from a path of direct hops, and its relay is the node itself. -/
structure DirectSound (g : Graph) (myself : NodeId) (st : Bfs) : Prop extends Base g myself st where
  direct : ∀ n r, st.route n = some r → r.indirect = false → g.DirectPath myself n ∧ r.via = n

theorem candidate_direct {r : Route} {p : EdgeId × Edge} : (candidate myself r p.1 p.2).indirect = false ↔
    r.indirect = false ∧ p.2.options &&& OPTION_INDIRECT = 0 := by
  simp [candidate]

theorem revisit_indirect {old : Option Route} {cand new : Route} (h : Route.revisit old cand = some new) :
    new.indirect = cand.indirect ∧ new.via = cand.via := by
  rcases revisit_some h with ⟨-, rfl⟩ | ⟨o, -, -, rfl⟩ | ⟨o, -, -, -, -, rfl⟩ <;> exact ⟨rfl, rfl⟩

theorem DirectSound.start (g : Graph) (myself : NodeId) : DirectSound g myself (.start myself) where
  toBase := base_start g myself
  direct n r hr _ := by
    obtain ⟨rfl, rfl⟩ := start_some hr
    exact ⟨.refl, rfl⟩

theorem DirectSound.relax {st : Bfs} {n : NodeId} {r : Route} {p : EdgeId × Edge} (hs : DirectSound g myself st)
    (h : g.Inv) (hr : st.route n = some r) (hp : p ∈ g.arcs n) : DirectSound g myself (st.relax myself prevNh r p) where
  toBase := hs.toBase.relax h hr hp
  direct m o ho hdirect := by
    obtain ⟨hget, hfrom⟩ := h.mem_arcs.1 hp
    rcases relax_cases myself prevNh r st p with ⟨-, hst⟩ | ⟨-, -, hroute, -⟩ | ⟨husable, new, hrev, hroute, -⟩
    · rw [hst] at ho
      exact hs.direct m o ho hdirect
    · rw [hroute] at ho
      exact hs.direct m o ho hdirect
    · rw [hroute] at ho
      by_cases hm : m = p.2.toNode
      · subst hm
        rw [Function.update_self] at ho
        obtain rfl := Option.some.inj ho
        obtain ⟨hind, hvia⟩ := revisit_indirect hrev
        have hcand := hind.symm.trans hdirect
        obtain ⟨hrdirect, hopt⟩ := candidate_direct.1 hcand
        refine ⟨(hs.direct n r hr hrdirect).1.tail ⟨p.1, p.2, hget, hfrom, rfl, husable.1, hopt⟩, ?_⟩
        rw [hvia]
        simp only [candidate] at hcand ⊢
        rw [if_neg (by simp [hcand])]
      · rw [Function.update_of_ne hm] at ho
        exact hs.direct m o ho hdirect

/-- A direct route stays unless the relaxation is a downgrade. -/
theorem IsDirect.relax {st : Bfs} {r : Route} {p : EdgeId × Edge} {n : NodeId} (hd : IsDirect st.route n)
    (hdown : ¬ (n = p.2.toNode ∧ Relaxation.Downgrades myself ⟨st, r, p⟩)) :
    IsDirect (st.relax myself prevNh r p).route n := by
  obtain ⟨o, ho, hodirect⟩ := hd
  by_cases hn : n = p.2.toNode
  · subst hn
    rcases relax_cases myself prevNh r st p with ⟨-, hst⟩ | ⟨-, -, hroute, -⟩ | ⟨husable, new, hrev, hroute, -⟩
    · exact ⟨o, by rw [hst, ho], hodirect⟩
    · exact ⟨o, by rw [hroute, ho], hodirect⟩
    · refine ⟨new, by rw [hroute, Function.update_self], ?_⟩
      rw [(revisit_indirect hrev).1]
      by_contra hind
      refine hdown ⟨rfl, husable, o, ho, hodirect, by simpa using hind, ?_⟩
      rw [ho] at hrev
      rcases revisit_some hrev with ⟨hnone, -⟩ | ⟨o', ho', hlight, -⟩ | ⟨o', ho', -, hoind, -⟩
      · cases hnone
      · obtain rfl := Option.some.inj ho'
        exact hlight
      · obtain rfl := Option.some.inj ho'
        rw [hodirect] at hoind
        cases hoind
  · exact ⟨o, by rw [relax_route_ne hn, ho], hodirect⟩

theorem sound_rounds (h : g.Inv) (hlive : (g.nodes.get myself).isSome) :
    Rounds g myself prevNh (DirectSound g myself) (fun _ _ => DirectSound g myself) (fun _ _ _ => True)
      fun _ => True where
  queued hs := hs.queued_live h hlive
  pop htodo _ hs := { toBase := hs.toBase.pop htodo, direct := hs.direct }
  relax hs hr hp _ := hs.relax h hr hp
  settle _ _ _ _ _ := trivial
  keep _ _ _ _ _ _ _ _ := trivial
  push hs := hs

/-- An edge settled for directness: the far end of a direct edge of a direct node is direct, now or at the end. -/
def DirectSettled (last : NodeId → Option Route) (route : NodeId → Option Route) (n : NodeId) (q : EdgeId × Edge) : Prop :=
  IsDirect route n → q.2.options &&& OPTION_INDIRECT = 0 → IsDirect route q.2.toNode ∨ IsDirect last q.2.toNode

theorem direct_rounds (h : g.Inv) (hlive : (g.nodes.get myself).isSome) (last : NodeId → Option Route) :
    Rounds g myself prevNh (DirectSound g myself) (fun _ _ => DirectSound g myself) (DirectSettled last)
      fun t => t.Downgrades myself → IsDirect last t.arc.2.toNode where
  queued hs := hs.queued_live h hlive
  pop htodo _ hs := { toBase := hs.toBase.pop htodo, direct := hs.direct }
  relax hs hr hp _ := hs.relax h hr hp
  settle {st n r p} hs hr hp husable _ hn hopt := by
    obtain ⟨hget, hfrom⟩ := h.mem_arcs.1 hp
    have hne : n ≠ p.2.toNode := hfrom ▸ (h.ends hget).2.2
    obtain ⟨o, ho, hodirect⟩ := hn
    rw [relax_route_ne hne, hr] at ho
    obtain rfl := Option.some.inj ho
    have hcand := (@candidate_direct myself r p).2 ⟨hodirect, hopt⟩
    left
    rcases relax_cases myself prevNh r st p with ⟨hno, -⟩ | ⟨-, hrev, hroute, -⟩ | ⟨-, new, hrev, hroute, -⟩
    · exact absurd husable hno
    · obtain ⟨o, ho, hkeep, -⟩ := revisit_none hrev
      refine ⟨o, by rw [hroute, ho], ?_⟩
      by_contra hind
      rw [hkeep (by simpa using hind)] at hcand
      cases hcand
    · exact ⟨new, by rw [hroute, Function.update_self], (revisit_indirect hrev).1.trans hcand⟩
  keep {st n r p} hs hr hp hallowed m q hsame hset hm hopt := by
    have hm' : IsDirect st.route m := by rwa [IsDirect, hsame] at hm
    rcases hset hm' hopt with hq | hq
    · by_cases hdown : q.2.toNode = p.2.toNode ∧ Relaxation.Downgrades myself ⟨st, r, p⟩
      · exact .inr (hdown.1 ▸ hallowed hdown.2)
      · exact .inl (hq.relax hdown)
    · exact .inr hq
  push hs := hs

/-- Two ways from `r` to `x`, of two hops each: over `p`, and over `q`, which is lighter and starts with an
indirect edge. -/
def detour : List Op :=
  [.addNode "p", .addNode "q", .addNode "r", .addNode "x", .addEdge 2 0 5 0, .addEdge 0 2 5 0, .addEdge 0 3 5 0,
    .addEdge 3 0 5 0, .addEdge 2 1 1 1, .addEdge 1 2 1 1, .addEdge 1 3 1 0, .addEdge 3 1 1 0]

end Tincr.Graph
