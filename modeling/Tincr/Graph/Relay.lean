import Tincr.Graph.Search
import Tincr.Lib.Orbit

/-!
The recursion of `try_tx` follows relays and next hops through the route table. In the table of the search
neither pointer leads to a larger weight, and a node whose pointers are replaced gets a smaller weight than
everything that points to it: so there is no cycle. A next hop that stickiness brings back from the previous
table is not part of that order, and two of them can point at each other.
-/

namespace Tincr.Graph

open Orbit

variable {g : Graph} {myself : NodeId} {prevNh : NodeId → Option NodeId}

/-- The node that packets for a target go to: its relay, or the next hop if the relay would be this node. -/
def relay (myself : NodeId) (routes : NodeId → Option Route) (target : NodeId) : NodeId :=
  match routes target with
  | none => target
  | some r => if r.via = myself then r.nexthop else r.via

/-- Where the recursion goes from a target: to the relay, else to the next hop. -/
def tryTxStep (myself : NodeId) (routes : NodeId → Option Route) (target : NodeId) : Option NodeId :=
  if relay myself routes target ≠ target then some (relay myself routes target)
  else
    match routes target with
    | none => none
    | some r => if r.nexthop ≠ target then some r.nexthop else none

/-- The protocol minor of a node, from its options. -/
def minor (routes : NodeId → Option Route) (n : NodeId) : UInt32 := ((routes n).map (·.options)).getD 0 >>> 24

/-- The call that `try_tx` makes to itself: none if the target is served over a meta connection, has no key,
or has UDP confirmed, nor to a node that is too old to relay. -/
def tryTxCall (tcpConn validkey udpConfirmed : NodeId → Bool) (myself : NodeId) (routes : NodeId → Option Route)
    (target : NodeId) : Option NodeId :=
  if tcpConn target then none
  else if !validkey target then none
  else if relay myself routes target ≠ target then
    if minor routes (relay myself routes target) < 4 then none else some (relay myself routes target)
  else if udpConfirmed target then none
  else
    match routes target with
    | none => none
    | some r => if r.nexthop ≠ target ∧ 4 ≤ minor routes r.nexthop then some r.nexthop else none

/-- Whatever keys are valid and paths confirmed, a call goes where the recursion goes. -/
theorem tryTxCall_some {tcpConn validkey udpConfirmed : NodeId → Bool} {routes : NodeId → Option Route} {a b : NodeId}
    (h : tryTxCall tcpConn validkey udpConfirmed myself routes a = some b) : tryTxStep myself routes a = some b := by
  unfold tryTxCall at h
  unfold tryTxStep
  split_ifs at h with h1 h2 h3 h4 h5
  · rw [if_pos h3]
    exact h
  · rw [if_neg h3]
    cases hr : routes a with
    | none => simp [hr] at h
    | some r =>
      simp only [hr] at h ⊢
      split_ifs at h with hnh
      rw [if_pos hnh.1]
      exact h

theorem ends_tryTxCall {routes : NodeId → Option Route} {a : NodeId} (h : Ends (tryTxStep myself routes) a)
    (tcpConn validkey udpConfirmed : NodeId → Bool) :
    Ends (tryTxCall tcpConn validkey udpConfirmed myself routes) a := by
  induction h with
  | @stop a hnone =>
    refine .stop ?_
    cases hcall : tryTxCall tcpConn validkey udpConfirmed myself routes a with
    | none => rfl
    | some b =>
      rw [tryTxCall_some hcall] at hnone
      cases hnone
  | @step a b hsome _ ih =>
    cases hcall : tryTxCall tcpConn validkey udpConfirmed myself routes a with
    | none => exact .stop hcall
    | some c =>
      have hc := tryTxCall_some hcall
      rw [hsome] at hc
      obtain rfl := Option.some.inj hc
      exact .step hcall ih

def Points (route : NodeId → Option Route) (a b : NodeId) : Prop :=
  b ≠ a ∧ ∃ r, route a = some r ∧ (b = r.nexthop ∨ b = r.via)

def NonNeg (g : Graph) : Prop := ∀ e d, g.edges.get e = some d → 0 ≤ d.weight

def Within (route : NodeId → Option Route) (w : ℤ) (n : NodeId) : Prop := ∃ r, route n = some r ∧ r.weightedDistance ≤ w

/-- Pointers do not lead to a larger weight, nor back. -/
structure Ordered (g : Graph) (myself : NodeId) (st : Bfs) : Prop extends Base g myself st where
  down : ∀ n r, st.route n = some r → Within st.route r.weightedDistance r.nexthop ∧ Within st.route r.weightedDistance r.via
  acyclic : Acyclic (Points st.route)
  unstuck : st.stickyWdist myself = none

section Update

variable {route : NodeId → Option Route} {x : NodeId} {new : Route}

theorem Within.mono {w w' : ℤ} {n : NodeId} (h : Within route w n) (hw : w ≤ w') : Within route w' n := by
  obtain ⟨r, hr, hle⟩ := h
  exact ⟨r, hr, hle.trans hw⟩

theorem Within.update {w : ℤ} {n : NodeId} (h : Within route w n)
    (hdrop : ∀ o, route x = some o → new.weightedDistance ≤ o.weightedDistance) :
    Within (Function.update route x (some new)) w n := by
  obtain ⟨r, hr, hle⟩ := h
  by_cases hn : n = x
  · subst hn
    exact ⟨new, Function.update_self .., (hdrop r hr).trans hle⟩
  · exact ⟨r, by rwa [Function.update_of_ne hn], hle⟩

theorem within_of_points {w : ℤ} {a b : NodeId}
    (hdown : ∀ n r, route n = some r → Within route r.weightedDistance r.nexthop ∧ Within route r.weightedDistance r.via)
    (ha : Within route w a) (hab : Relation.ReflTransGen (Points route) a b) : Within route w b := by
  induction hab with
  | refl => exact ha
  | tail _ hpoint ih =>
    obtain ⟨r, hr, hle⟩ := ih
    obtain ⟨-, r', hr', hto⟩ := hpoint
    obtain rfl := Option.some.inj (hr.symm.trans hr')
    rcases hto with rfl | rfl
    · exact (hdown _ r hr).1.mono hle
    · exact (hdown _ r hr).2.mono hle

theorem points_update_of_ne {a b : NodeId} (ha : a ≠ x) (h : Points (Function.update route x (some new)) a b) :
    Points route a b := by
  rwa [Points, Function.update_of_ne ha] at h

/-- A new route below everything that points to its node closes no cycle. -/
theorem acyclic_update_below (hacyclic : Acyclic (Points route))
    (hdown : ∀ n r, Function.update route x (some new) n = some r →
      Within (Function.update route x (some new)) r.weightedDistance r.nexthop ∧
        Within (Function.update route x (some new)) r.weightedDistance r.via)
    (hbelow : ∀ c r, Points route c x → route c = some r → new.weightedDistance < r.weightedDistance) :
    Acyclic (Points (Function.update route x (some new))) := by
  refine acyclic_update hacyclic (fun a b ha hab => points_update_of_ne ha hab) fun hcycle => ?_
  obtain ⟨c, hreach, hlast⟩ := Relation.TransGen.tail'_iff.1 hcycle
  have hc : c ≠ x := hlast.1.symm
  obtain ⟨r, hr, hle⟩ := within_of_points hdown ⟨new, Function.update_self .., le_rfl⟩ hreach
  rw [Function.update_of_ne hc] at hr
  have hlt := hbelow c r (points_update_of_ne hc hlast) hr
  omega

end Update

theorem candidate_within {st : Bfs} {n : NodeId} {r : Route} {p : EdgeId × Edge} (hs : Ordered g myself st)
    (hr : st.route n = some r) (hw : 0 ≤ p.2.weight)
    (hdrop : ∀ o, st.route p.2.toNode = some o →
      (candidate myself r p.1 p.2).weightedDistance ≤ o.weightedDistance) :
    Within (Function.update st.route p.2.toNode (some (candidate myself r p.1 p.2)))
        (candidate myself r p.1 p.2).weightedDistance (candidate myself r p.1 p.2).nexthop ∧
      Within (Function.update st.route p.2.toNode (some (candidate myself r p.1 p.2)))
        (candidate myself r p.1 p.2).weightedDistance (candidate myself r p.1 p.2).via := by
  have hle : r.weightedDistance ≤ (candidate myself r p.1 p.2).weightedDistance := by
    have hrange := (hs.range n r hr).2
    simp only [candidate, satAdd]
    omega
  have hself : Within (Function.update st.route p.2.toNode (some (candidate myself r p.1 p.2)))
      (candidate myself r p.1 p.2).weightedDistance p.2.toNode := ⟨_, Function.update_self .., le_rfl⟩
  obtain ⟨hnexthop, hvia⟩ := hs.down n r hr
  constructor
  · by_cases hroot : r.nexthop = myself
    · rwa [show (candidate myself r p.1 p.2).nexthop = p.2.toNode from if_pos hroot]
    · rw [show (candidate myself r p.1 p.2).nexthop = r.nexthop from if_neg hroot]
      exact (hnexthop.mono hle).update hdrop
  · by_cases hind : (r.indirect || p.2.options &&& OPTION_INDIRECT != 0) = true
    · rw [show (candidate myself r p.1 p.2).via = r.via from if_pos hind]
      exact (hvia.mono hle).update hdrop
    · rwa [show (candidate myself r p.1 p.2).via = p.2.toNode from if_neg hind]

theorem relax_unstuck {st : Bfs} {r : Route} {p : EdgeId × Edge} (h : st.stickyWdist myself = none) :
    (st.relax myself prevNh r p).stickyWdist myself = none := by
  unfold Bfs.relax
  split_ifs with hskip
  · exact h
  · have hne : myself ≠ p.2.toNode := fun heq => hskip (.inr heq.symm)
    have hstick : ∀ cand, (st.stick (prevNh p.2.toNode) p.2.toNode cand).stickyWdist myself = none := by
      intro cand
      unfold Bfs.stick
      split_ifs
      · simpa [Function.update_of_ne hne] using h
      · exact h
    dsimp only
    split
    · exact hstick _
    · exact hstick _

theorem Ordered.start (g : Graph) (myself : NodeId) : Ordered g myself (.start myself) where
  toBase := base_start g myself
  down n r hr := by
    obtain ⟨rfl, rfl⟩ := start_some hr
    exact ⟨⟨_, start_root _, le_rfl⟩, ⟨_, start_root _, le_rfl⟩⟩
  acyclic a hcycle := by
    obtain ⟨b, ⟨hne, r, hr, hto⟩, -⟩ := Relation.TransGen.head'_iff.1 hcycle
    obtain ⟨rfl, rfl⟩ := start_some hr
    exact hne (or_self_iff.1 hto)
  unstuck := rfl

/-- The table with a new route: the weight of its node has not grown, and it is below what points there
unless the pointers are the old ones. -/
theorem Ordered.update {st st' : Bfs} {x : NodeId} {new : Route} (hs : Ordered g myself st) (hbase : Base g myself st')
    (hroute : st'.route = Function.update st.route x (some new)) (hunstuck : st'.stickyWdist myself = none)
    (hdrop : ∀ o, st.route x = some o → new.weightedDistance ≤ o.weightedDistance)
    (hnew : Within (Function.update st.route x (some new)) new.weightedDistance new.nexthop ∧
      Within (Function.update st.route x (some new)) new.weightedDistance new.via)
    (hpoints : (∀ b, Points (Function.update st.route x (some new)) x b → Points st.route x b) ∨
      ∀ o, st.route x = some o → new.weightedDistance < o.weightedDistance) : Ordered g myself st' := by
  have hdown : ∀ n r, Function.update st.route x (some new) n = some r →
      Within (Function.update st.route x (some new)) r.weightedDistance r.nexthop ∧
        Within (Function.update st.route x (some new)) r.weightedDistance r.via := by
    intro n r hr
    by_cases hn : n = x
    · subst hn
      rw [Function.update_self] at hr
      obtain rfl := Option.some.inj hr
      exact hnew
    · rw [Function.update_of_ne hn] at hr
      obtain ⟨hnexthop, hvia⟩ := hs.down n r hr
      exact ⟨hnexthop.update hdrop, hvia.update hdrop⟩
  refine { toBase := hbase, down := hroute ▸ hdown, acyclic := ?_, unstuck := hunstuck }
  rw [hroute]
  rcases hpoints with hsub | hless
  · intro a hcycle
    refine hs.acyclic a (Relation.TransGen.mono (fun b c hbc => ?_) _ _ hcycle)
    by_cases hb : b = x
    · subst hb
      exact hsub c hbc
    · exact points_update_of_ne hb hbc
  · refine acyclic_update_below hs.acyclic hdown fun c r hc hr => ?_
    obtain ⟨-, r', hr', hto⟩ := hc
    obtain rfl := Option.some.inj (hr.symm.trans hr')
    have hwithin : Within st.route r.weightedDistance x := by
      obtain ⟨hnexthop, hvia⟩ := hs.down c r hr
      rcases hto with rfl | rfl
      · exact hnexthop
      · exact hvia
    obtain ⟨o, ho, hle⟩ := hwithin
    exact (hless o ho).trans_le hle

theorem Ordered.relax {st : Bfs} {n : NodeId} {r : Route} {p : EdgeId × Edge} (hs : Ordered g myself st) (h : g.Inv)
    (hnonneg : g.NonNeg) (hr : st.route n = some r) (hp : p ∈ g.arcs n) :
    Ordered g myself (st.relax myself prevNh r p) := by
  have hbase := @Base.relax g myself prevNh _ _ _ _ hs.toBase h hr hp
  have hunstuck := @relax_unstuck myself prevNh _ r p hs.unstuck
  have hw : 0 ≤ p.2.weight := hnonneg _ _ (h.mem_arcs.1 hp).1
  rcases relax_cases myself prevNh r st p with ⟨-, hst⟩ | ⟨-, -, hroute, -⟩ | ⟨-, new, hrev, hroute, -⟩
  · rwa [hst]
  · exact { toBase := hbase, down := hroute ▸ hs.down, acyclic := hroute ▸ hs.acyclic, unstuck := hunstuck }
  · rcases revisit_some hrev with ⟨hnone, rfl⟩ | ⟨o, ho, hlight, rfl⟩ | ⟨o, ho, -, -, hdirect, rfl⟩
    · -- the first route
      have hno : ∀ o, st.route p.2.toNode = some o → False := fun o ho => by simp [hnone] at ho
      exact hs.update hbase hroute hunstuck (fun o ho => (hno o ho).elim)
        (candidate_within hs hr hw fun o ho => (hno o ho).elim) (.inr fun o ho => (hno o ho).elim)
    · -- a lighter one
      have hless : ∀ o', st.route p.2.toNode = some o' →
          (candidate myself r p.1 p.2).weightedDistance < o'.weightedDistance := by
        intro o' ho'
        obtain rfl := Option.some.inj (ho.symm.trans ho')
        exact (lighter_iff.1 hlight).2
      exact hs.update hbase hroute hunstuck (fun o' ho' => (hless o' ho').le)
        (candidate_within hs hr hw fun o' ho' => (hless o' ho').le) (.inr hless)
    · -- an upgrade keeps the next hop, and the relay becomes the node itself
      have hvia : (candidate myself r p.1 p.2).via = p.2.toNode := by
        simp only [candidate] at hdirect ⊢
        rw [if_neg (by simp [hdirect])]
      have hdrop : ∀ o', st.route p.2.toNode = some o' → o.weightedDistance ≤ o'.weightedDistance := by
        intro o' ho'
        obtain rfl := Option.some.inj (ho.symm.trans ho')
        exact le_rfl
      refine hs.update hbase hroute hunstuck hdrop ⟨(hs.down _ o ho).1.update hdrop, ?_⟩ (.inl fun b hb => ?_)
      · exact hvia ▸ ⟨_, Function.update_self .., le_rfl⟩
      · obtain ⟨hne, o', ho', hto⟩ := hb
        rw [Function.update_self] at ho'
        obtain rfl := Option.some.inj ho'
        exact ⟨hne, o, ho, .inl (hto.resolve_right fun hb => hne (hb.trans hvia))⟩

theorem ordered_rounds (h : g.Inv) (hlive : (g.nodes.get myself).isSome) (hnonneg : g.NonNeg) :
    Rounds g myself prevNh (Ordered g myself) (fun _ _ => Ordered g myself) (fun _ _ _ => True) fun _ => True where
  queued hs := hs.queued_live h hlive
  pop htodo _ hs := { hs with toBase := hs.toBase.pop htodo }
  relax hs hr hp _ := hs.relax h hnonneg hr hp
  settle _ _ _ _ _ := trivial
  keep _ _ _ _ _ _ _ _ := trivial
  push hs := hs

section Sticky

variable {route routes plain : NodeId → Option Route} {prev : List (Option Route)} {stickyWdist : NodeId → Option ℤ}

theorem stickyPostPass_some {n : NodeId} {r : Route} (h : stickyPostPass route prev stickyWdist n = some r) :
    ∃ p, route n = some p ∧ r.via = p.via := by
  rcases stickyPostPass_cases route prev stickyWdist n with hsame | ⟨new, old, w, hnew, -, -, hpin⟩
  · exact ⟨r, hsame ▸ h, rfl⟩
  · obtain rfl := Option.some.inj (hpin.symm.trans h)
    exact ⟨new, hnew, rfl⟩

theorem stickyPostPass_unstuck {n : NodeId} (h : stickyWdist n = none) :
    stickyPostPass route prev stickyWdist n = route n := by
  rcases stickyPostPass_cases route prev stickyWdist n with hsame | ⟨new, old, w, -, -, hw, -⟩
  · exact hsame
  · rw [h] at hw
    cases hw

/-- The recursion goes over a next hop that is not the one the search found. -/
def Pinned (myself : NodeId) (plain routes : NodeId → Option Route) (t nh : NodeId) : Prop :=
  tryTxStep myself routes t = some nh ∧
    ∃ p r, plain t = some p ∧ routes t = some r ∧ nh = r.nexthop ∧ r.nexthop ≠ p.nexthop

/-- Every other step goes over a pointer of the search. -/
theorem points_or_pinned (hsome : ∀ n r, routes n = some r → ∃ p, plain n = some p ∧ r.via = p.via) {a b : NodeId}
    (hstep : Arrow (tryTxStep myself routes) a b) : Points plain a b ∨ Pinned myself plain routes a b := by
  have hcases : b ≠ a ∧ ∃ r, routes a = some r ∧ (b = r.nexthop ∨ b = r.via) := by
    unfold Arrow tryTxStep relay at hstep
    cases hr : routes a with
    | none => simp [hr] at hstep
    | some r =>
      simp only [hr] at hstep
      split_ifs at hstep
      all_goals
        obtain rfl := Option.some.inj hstep
        refine ⟨by assumption, r, rfl, ?_⟩
        simp
  obtain ⟨hne, r, hr, hto⟩ := hcases
  obtain ⟨p, hp, hvia⟩ := hsome a r hr
  rcases hto with rfl | rfl
  · by_cases hnh : r.nexthop = p.nexthop
    · exact .inl ⟨hne, p, hp, .inl hnh⟩
    · exact .inr ⟨hstep, p, r, hp, hr, rfl, hnh⟩
  · exact .inl ⟨hne, p, hp, .inr hvia⟩

end Sticky

/-- `h` and `k` are reached over indirect edges of weight ten and, three hops away, over direct ones. Their
neighbours `p` and `q` reach each of them over the other for twelve. All speak protocol minor 7. -/
def crossed : List Op :=
  [.addNode "m", .addNode "a", .addNode "b", .addNode "h", .addNode "k", .addNode "p", .addNode "q",
    .addEdge 0 1 1 0x7000000, .addEdge 1 0 1 0x7000000, .addEdge 1 2 1 0x7000000, .addEdge 2 1 1 0x7000000,
    .addEdge 2 3 1 0x7000000, .addEdge 3 2 1 0x7000000, .addEdge 2 4 1 0x7000000, .addEdge 4 2 1 0x7000000,
    .addEdge 0 3 10 0x7000001, .addEdge 3 0 10 0x7000001, .addEdge 0 4 10 0x7000001, .addEdge 4 0 10 0x7000001,
    .addEdge 4 5 1 0x7000000, .addEdge 5 4 1 0x7000000, .addEdge 3 5 5 0x7000000, .addEdge 5 3 1 0x7000000,
    .addEdge 3 6 1 0x7000000, .addEdge 6 3 1 0x7000000, .addEdge 4 6 5 0x7000000, .addEdge 6 4 1 0x7000000]

/-- Each of the two was reached over the other before. -/
def crossedBefore : List (Option Route) :=
  [none, none, none, some ⟨false, 3, 12, 4, 3, none, 0⟩, some ⟨false, 3, 12, 3, 4, none, 0⟩]

end Tincr.Graph
