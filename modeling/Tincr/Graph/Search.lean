import Tincr.Graph.Run

/-!
The search of `sssp` as a worklist. A round takes a node off the queue and relaxes its edges one by one;
relaxing an edge leaves the route to its far end alone or enters a new one and queues the node again. Every
entry lowers the rank of a node, so the search ends; and what is settled along an edge when it is relaxed,
and stays so while its two ends keep their routes, holds of every edge at the end.
-/

namespace Tincr.Graph

open Function

/-- The edges of the search: their twin is there and they do not lead back to the root. -/
def Usable (myself : NodeId) (p : EdgeId × Edge) : Prop := p.2.reverse ≠ none ∧ p.2.toNode ≠ myself

section Relax

variable {myself : NodeId} {prevNh : NodeId → Option NodeId} {r : Route} {st : Bfs} {p : EdgeId × Edge}

@[simp] theorem stick_route (st : Bfs) (nh : Option NodeId) (n : NodeId) (cand : Route) :
    (st.stick nh n cand).route = st.route := by
  unfold Bfs.stick
  split_ifs <;> rfl

@[simp] theorem stick_todo (st : Bfs) (nh : Option NodeId) (n : NodeId) (cand : Route) :
    (st.stick nh n cand).todo = st.todo := by
  unfold Bfs.stick
  split_ifs <;> rfl

theorem relax_cases (myself : NodeId) (prevNh : NodeId → Option NodeId) (r : Route) (st : Bfs) (p : EdgeId × Edge) :
    (¬ Usable myself p ∧ st.relax myself prevNh r p = st) ∨
    (Usable myself p ∧ Route.revisit (st.route p.2.toNode) (candidate myself r p.1 p.2) = none ∧
      (st.relax myself prevNh r p).route = st.route ∧ (st.relax myself prevNh r p).todo = st.todo) ∨
    Usable myself p ∧ ∃ new, Route.revisit (st.route p.2.toNode) (candidate myself r p.1 p.2) = some new ∧
      (st.relax myself prevNh r p).route = update st.route p.2.toNode (some new) ∧
      (st.relax myself prevNh r p).todo = st.todo ++ [p.2.toNode] := by
  by_cases hskip : p.2.reverse = none ∨ p.2.toNode = myself
  · exact .inl ⟨fun h => hskip.elim h.1 h.2, by rw [Bfs.relax, if_pos hskip]⟩
  · refine .inr ?_
    have husable : Usable myself p := not_or.1 hskip
    rw [Bfs.relax, if_neg hskip]
    dsimp only
    rw [stick_route]
    cases hrev : Route.revisit (st.route p.2.toNode) (candidate myself r p.1 p.2) with
    | none => exact .inl ⟨husable, rfl, stick_route .., stick_todo ..⟩
    | some new => exact .inr ⟨husable, new, rfl, rfl, by rw [stick_todo]⟩

variable {cand : Route}

/-- A route that stays: nothing new is direct, and nothing is lighter. -/
theorem revisit_none {old : Option Route} (h : Route.revisit old cand = none) :
    ∃ o, old = some o ∧ (o.indirect = true → cand.indirect = true) ∧ o.lighter cand = false := by
  cases old with
  | none => cases h
  | some o =>
    refine ⟨o, rfl, ?_⟩
    simp only [Route.revisit] at h
    split_ifs at h with hkeep
    simp only [Bool.and_eq_true, Bool.or_eq_true, Bool.not_eq_true'] at hkeep
    refine ⟨fun ho => ?_, hkeep.2⟩
    rcases hkeep.1 with hd | hd
    · rw [hd] at ho
      cases ho
    · exact hd

/-- A new route: the first, a lighter one, or an upgrade to a direct one. -/
theorem revisit_some {old : Option Route} {new : Route} (h : Route.revisit old cand = some new) :
    (old = none ∧ new = cand) ∨ (∃ o, old = some o ∧ o.lighter cand = true ∧ new = cand) ∨
      ∃ o, old = some o ∧ o.lighter cand = false ∧ o.indirect = true ∧ cand.indirect = false ∧
        new = { cand with nexthop := o.nexthop, weightedDistance := o.weightedDistance } := by
  cases old with
  | none => exact .inl ⟨rfl, (Option.some.inj h).symm⟩
  | some o =>
    refine .inr ?_
    simp only [Route.revisit] at h
    split_ifs at h with hkeep hlight
    · exact .inl ⟨o, rfl, hlight, (Option.some.inj h).symm⟩
    · refine .inr ⟨o, rfl, by simpa using hlight, ?_, ?_, (Option.some.inj h).symm⟩ <;>
        simp_all

theorem lighter_iff {o : Route} : o.lighter cand = true ↔
    o.distance = cand.distance ∧ cand.weightedDistance < o.weightedDistance := by
  simp [Route.lighter]

/-- What a relaxation leaves is the route that was there, or one that was just entered. -/
theorem relax_route_ne {n : NodeId} (h : n ≠ p.2.toNode) : (st.relax myself prevNh r p).route n = st.route n := by
  rcases relax_cases myself prevNh r st p with ⟨-, hst⟩ | ⟨-, -, hroute, -⟩ | ⟨-, new, -, hroute, -⟩
  · rw [hst]
  · rw [hroute]
  · rw [hroute, update_of_ne h]

theorem relax_isSome {n : NodeId} (h : (st.route n).isSome) : ((st.relax myself prevNh r p).route n).isSome := by
  rcases relax_cases myself prevNh r st p with ⟨-, hst⟩ | ⟨-, -, hroute, -⟩ | ⟨-, new, -, hroute, -⟩
  · rwa [hst]
  · rwa [hroute]
  · rw [hroute]
    by_cases hn : n = p.2.toNode
    · simp [hn]
    · rwa [update_of_ne hn]

theorem relax_root : (st.relax myself prevNh r p).route myself = st.route myself := by
  rcases relax_cases myself prevNh r st p with ⟨-, hst⟩ | ⟨-, -, hroute, -⟩ | ⟨husable, -⟩
  · rw [hst]
  · rw [hroute]
  · exact relax_route_ne husable.2.symm

theorem relax_mem_todo {n : NodeId} (h : n ∈ st.todo ∨ (st.relax myself prevNh r p).route n ≠ st.route n) :
    n ∈ (st.relax myself prevNh r p).todo := by
  rcases relax_cases myself prevNh r st p with ⟨-, hst⟩ | ⟨-, -, hroute, htodo⟩ | ⟨-, new, -, hroute, htodo⟩
  · rw [hst] at h ⊢
    simpa using h
  · rw [hroute] at h
    rw [htodo]
    simpa using h
  · rw [htodo]
    by_cases hn : n = p.2.toNode
    · simp [hn]
    · rw [hroute, update_of_ne hn] at h
      exact List.mem_append_left _ (by simpa using h)

end Relax

/-- A relaxation of the run: the state it starts from, the route of the node visited, and the edge. -/
structure Relaxation where
  before : Bfs
  route : Route
  arc : EdgeId × Edge

def relaxations (myself : NodeId) (prevNh : NodeId → Option NodeId) (r : Route) (st : Bfs) :
    List (EdgeId × Edge) → List Relaxation
  | [] => []
  | p :: rest => ⟨st, r, p⟩ :: relaxations myself prevNh r (st.relax myself prevNh r p) rest

/-- The relaxations of the loop, for at most `fuel` rounds. -/
def searchTrace (g : Graph) (myself : NodeId) (prevNh : NodeId → Option NodeId) : ℕ → Bfs → List Relaxation
  | fuel, st =>
    match st.todo, fuel with
    | [], _ => []
    | _ :: _, 0 => []
    | n :: rest, fuel + 1 =>
      match st.route n with
      | none => []
      | some r =>
        relaxations myself prevNh r { st with todo := rest } (g.arcs n) ++
          searchTrace g myself prevNh fuel
            ((g.arcs n).foldl (Bfs.relax myself prevNh r) { st with todo := rest })

/-- The nodes that come off the queue, each with the state it comes from, for at most `fuel` rounds. -/
def dequeued (g : Graph) (myself : NodeId) (prevNh : NodeId → Option NodeId) : ℕ → Bfs → List (NodeId × Bfs)
  | fuel, st =>
    match st.todo, fuel with
    | [], _ => []
    | _ :: _, 0 => []
    | n :: rest, fuel + 1 => (n, st) ::
      match visit g myself prevNh { st with todo := rest } n with
      | .error _ => []
      | .ok st => dequeued g myself prevNh fuel st

section Search

variable {g : Graph} {myself : NodeId} {prevNh : NodeId → Option NodeId}

theorem visit_eq (h : g.Inv) {st : Bfs} {n : NodeId} {r : Route} (hr : st.route n = some r)
    (hlive : (g.nodes.get n).isSome) :
    visit g myself prevNh st n = .ok ((g.arcs n).foldl (Bfs.relax myself prevNh r) st) := by
  obtain ⟨x, hx⟩ := Option.isSome_iff_exists.1 hlive
  rw [visit, hr]
  dsimp only
  rw [slot_of_get hx]
  change (readEdges g.edges x.edges >>= fun out => pure (out.foldl (Bfs.relax myself prevNh r) st)) = _
  rw [readEdges_eq (h.isSome_of_mem hx), arcs, hx]
  rfl

variable {fuel : ℕ} {n : NodeId} {rest : List NodeId}

theorem search_nil {st : Bfs} (h : st.todo = []) : search g myself prevNh fuel st = some (.ok st) := by
  unfold search
  cases fuel <;> rw [h]

theorem search_zero {st : Bfs} (h : st.todo = n :: rest) : search g myself prevNh 0 st = none := by
  unfold search
  rw [h]

theorem search_succ {st : Bfs} (h : st.todo = n :: rest) :
    search g myself prevNh (fuel + 1) st =
      match visit g myself prevNh { st with todo := rest } n with
      | .error p => some (.error p)
      | .ok st => search g myself prevNh fuel st := by
  obtain ⟨route, sticky, todo⟩ := st
  obtain rfl : todo = n :: rest := h
  rfl

theorem dequeued_stop {st : Bfs} (h : st.todo = [] ∨ fuel = 0) : dequeued g myself prevNh fuel st = [] := by
  unfold dequeued
  rcases h with h | rfl
  · cases fuel <;> rw [h]
  · cases st.todo <;> rfl

theorem dequeued_succ {st : Bfs} (h : st.todo = n :: rest) :
    dequeued g myself prevNh (fuel + 1) st = (n, st) ::
      match visit g myself prevNh { st with todo := rest } n with
      | .error _ => []
      | .ok st => dequeued g myself prevNh fuel st := by
  conv_lhs => unfold dequeued
  rw [h]

theorem searchTrace_stop {st : Bfs} (h : st.todo = [] ∨ fuel = 0) : searchTrace g myself prevNh fuel st = [] := by
  unfold searchTrace
  rcases h with h | rfl
  · cases fuel <;> rw [h]
  · cases st.todo <;> rfl

theorem searchTrace_succ {st : Bfs} {r : Route} (h : st.todo = n :: rest) (hr : st.route n = some r) :
    searchTrace g myself prevNh (fuel + 1) st =
      relaxations myself prevNh r { st with todo := rest } (g.arcs n) ++
        searchTrace g myself prevNh fuel ((g.arcs n).foldl (Bfs.relax myself prevNh r) { st with todo := rest }) := by
  conv_lhs => unfold searchTrace
  rw [h]
  dsimp only
  rw [hr]

def SameRoutes (st st' : Bfs) : Prop := st.route = st'.route ∧ st.todo = st'.todo

theorem SameRoutes.relax {prevNh' : NodeId → Option NodeId} {st st' : Bfs} (hsame : SameRoutes st st') (r : Route)
    (p : EdgeId × Edge) : SameRoutes (st.relax myself prevNh r p) (st'.relax myself prevNh' r p) := by
  obtain ⟨hroute, htodo⟩ := hsame
  unfold Bfs.relax
  split_ifs
  · exact ⟨hroute, htodo⟩
  · dsimp only
    rw [stick_route, stick_route, hroute]
    cases Route.revisit (st'.route p.2.toNode) (candidate myself r p.1 p.2) with
    | none => exact ⟨by simp [hroute], by simp [htodo]⟩
    | some new => exact ⟨rfl, by simp [htodo]⟩

theorem SameRoutes.foldl {prevNh' : NodeId → Option NodeId} {st st' : Bfs} (hsame : SameRoutes st st') (r : Route)
    (l : List (EdgeId × Edge)) :
    SameRoutes (l.foldl (Bfs.relax myself prevNh r) st) (l.foldl (Bfs.relax myself prevNh' r) st') := by
  induction l generalizing st st' with
  | nil => exact hsame
  | cons p l ih => exact ih (hsame.relax r p)

theorem SameRoutes.visit {prevNh' : NodeId → Option NodeId} {st st' a : Bfs} {n : NodeId} (hsame : SameRoutes st st')
    (hvisit : visit g myself prevNh st n = .ok a) :
    ∃ b, visit g myself prevNh' st' n = .ok b ∧ SameRoutes a b := by
  unfold Graph.visit at hvisit ⊢
  rw [← hsame.1]
  cases hr : st.route n with
  | none => simp [hr] at hvisit
  | some r =>
    simp only [hr, bind, Except.bind] at hvisit ⊢
    cases hx : slot g.nodes n with
    | error p => simp [hx] at hvisit
    | ok x =>
      simp only [hx] at hvisit ⊢
      cases hout : readEdges g.edges x.edges with
      | error p => simp [hout] at hvisit
      | ok out =>
        simp only [hout, pure, Except.pure, Except.ok.injEq] at hvisit ⊢
        subst hvisit
        exact ⟨_, rfl, hsame.foldl r out⟩

/-- Stickiness is noted beside the search and does not change its routes. -/
theorem SameRoutes.search {prevNh' : NodeId → Option NodeId} {fuel : ℕ} {st st' a : Bfs} (hsame : SameRoutes st st')
    (hsearch : search g myself prevNh fuel st = some (.ok a)) :
    ∃ b, Graph.search g myself prevNh' fuel st' = some (.ok b) ∧ a.route = b.route := by
  induction fuel generalizing st st' with
  | zero =>
    cases htodo : st.todo with
    | nil =>
      rw [search_nil htodo] at hsearch
      obtain rfl := Except.ok.inj (Option.some.inj hsearch)
      exact ⟨st', search_nil (hsame.2 ▸ htodo), hsame.1⟩
    | cons n rest =>
      rw [search_zero htodo] at hsearch
      cases hsearch
  | succ fuel ih =>
    cases htodo : st.todo with
    | nil =>
      rw [search_nil htodo] at hsearch
      obtain rfl := Except.ok.inj (Option.some.inj hsearch)
      exact ⟨st', search_nil (hsame.2 ▸ htodo), hsame.1⟩
    | cons n rest =>
      rw [search_succ htodo] at hsearch
      rw [search_succ (hsame.2 ▸ htodo)]
      have hpopped : SameRoutes { st with todo := rest } { st' with todo := rest } := ⟨hsame.1, rfl⟩
      cases hvisit : Graph.visit g myself prevNh { st with todo := rest } n with
      | error p => simp [hvisit] at hsearch
      | ok a' =>
        rw [hvisit] at hsearch
        obtain ⟨b', hb', hsame'⟩ := @SameRoutes.visit _ _ _ prevNh' _ _ _ _ hpopped hvisit
        rw [hb']
        exact ih hsame' hsearch

/-- What holds between the rounds, what holds during the visit of a node with a route, what is settled along
an edge once it is relaxed, and which relaxations are counted on. -/
structure Rounds (g : Graph) (myself : NodeId) (prevNh : NodeId → Option NodeId) (Between : Bfs → Prop)
    (During : NodeId → Route → Bfs → Prop) (Settled : (NodeId → Option Route) → NodeId → EdgeId × Edge → Prop)
    (Allowed : Relaxation → Prop) : Prop where
  queued : ∀ {st}, Between st → ∀ n ∈ st.todo, (st.route n).isSome ∧ (g.nodes.get n).isSome
  pop : ∀ {st n rest r}, st.todo = n :: rest → st.route n = some r → Between st → During n r { st with todo := rest }
  relax : ∀ {st n r p}, During n r st → st.route n = some r → p ∈ g.arcs n → Allowed ⟨st, r, p⟩ →
    During n r (st.relax myself prevNh r p)
  settle : ∀ {st n r p}, During n r st → st.route n = some r → p ∈ g.arcs n → Usable myself p → Allowed ⟨st, r, p⟩ →
    Settled (st.relax myself prevNh r p).route n p
  keep : ∀ {st n r p}, During n r st → st.route n = some r → p ∈ g.arcs n → Allowed ⟨st, r, p⟩ → ∀ m q,
    (st.relax myself prevNh r p).route m = st.route m → Settled st.route m q →
      Settled (st.relax myself prevNh r p).route m q
  push : ∀ {st n r}, During n r st → Between st

def AllSettled (g : Graph) (myself : NodeId) (Settled : (NodeId → Option Route) → NodeId → EdgeId × Edge → Prop)
    (st : Bfs) (n : NodeId) : Prop :=
  (st.route n).isSome → n ∈ st.todo ∨ ∀ q ∈ g.arcs n, Usable myself q → Settled st.route n q

namespace Rounds

variable {Between : Bfs → Prop} {During : NodeId → Route → Bfs → Prop}
  {Settled : (NodeId → Option Route) → NodeId → EdgeId × Edge → Prop} {Allowed : Relaxation → Prop}
  (R : Rounds g myself prevNh Between During Settled Allowed) (h : g.Inv)
include R h

/-- The edges of a visit: those behind are settled, and so are those of the other nodes that are not queued. -/
theorem fold {n : NodeId} {r : Route} {pre l : List (EdgeId × Edge)} {st : Bfs} (harcs : pre ++ l = g.arcs n)
    (hduring : During n r st) (hr : st.route n = some r)
    (hallowed : ∀ t ∈ relaxations myself prevNh r st l, Allowed t)
    (hothers : ∀ m ≠ n, AllSettled g myself Settled st m)
    (hown : ∀ q ∈ pre, Usable myself q → Settled st.route n q) :
    During n r (l.foldl (Bfs.relax myself prevNh r) st) ∧
      ∀ m, AllSettled g myself Settled (l.foldl (Bfs.relax myself prevNh r) st) m := by
  induction l generalizing st pre with
  | nil =>
    refine ⟨hduring, fun m => ?_⟩
    by_cases hm : m = n
    · subst hm
      rw [List.append_nil] at harcs
      exact fun _ => .inr (harcs ▸ hown)
    · exact hothers m hm
  | cons p l ih =>
    have hp : p ∈ g.arcs n := harcs ▸ List.mem_append_right _ List.mem_cons_self
    have hok : Allowed ⟨st, r, p⟩ := hallowed _ List.mem_cons_self
    have hne : n ≠ p.2.toNode := by
      obtain ⟨hget, hfrom⟩ := h.mem_arcs.1 hp
      exact hfrom ▸ (h.ends hget).2.2
    have hsame : (st.relax myself prevNh r p).route n = st.route n := relax_route_ne hne
    refine @ih (pre ++ [p]) _ (by rw [← harcs, List.append_assoc]; rfl) (R.relax hduring hr hp hok) (hsame.trans hr)
      (fun t ht => hallowed t (List.mem_cons_of_mem _ ht)) ?_ ?_
    · intro m hm hvisited
      by_cases hroute : (st.relax myself prevNh r p).route m = st.route m
      · rw [hroute] at hvisited
        rcases hothers m hm hvisited with hmem | hset
        · exact .inl (relax_mem_todo (.inl hmem))
        · exact .inr fun q hq husable => R.keep hduring hr hp hok m q hroute (hset q hq husable)
      · exact .inl (relax_mem_todo (.inr hroute))
    · intro q hq husable
      rcases List.mem_append.1 hq with hq | hq
      · exact R.keep hduring hr hp hok n q hsame (hown q hq husable)
      · obtain rfl := List.mem_singleton.1 hq
        exact R.settle hduring hr hp husable hok

/-- At the end of the search every edge of a node it reached is settled. -/
theorem search_settled {fuel : ℕ} {st st' : Bfs} (hsearch : search g myself prevNh fuel st = some (.ok st'))
    (hallowed : ∀ t ∈ searchTrace g myself prevNh fuel st, Allowed t) (hbetween : Between st)
    (hsettled : ∀ m, AllSettled g myself Settled st m) :
    Between st' ∧ ∀ m, (st'.route m).isSome → ∀ q ∈ g.arcs m, Usable myself q → Settled st'.route m q := by
  induction fuel generalizing st with
  | zero =>
    cases htodo : st.todo with
    | nil =>
      rw [search_nil htodo] at hsearch
      obtain rfl := Except.ok.inj (Option.some.inj hsearch)
      exact ⟨hbetween, fun m hm => (hsettled m hm).resolve_left (by simp [htodo])⟩
    | cons n rest =>
      rw [search_zero htodo] at hsearch
      cases hsearch
  | succ fuel ih =>
    cases htodo : st.todo with
    | nil =>
      rw [search_nil htodo] at hsearch
      obtain rfl := Except.ok.inj (Option.some.inj hsearch)
      exact ⟨hbetween, fun m hm => (hsettled m hm).resolve_left (by simp [htodo])⟩
    | cons n rest =>
      obtain ⟨hvisited, hlive⟩ := R.queued hbetween n (by simp [htodo])
      obtain ⟨r, hr⟩ := Option.isSome_iff_exists.1 hvisited
      rw [searchTrace_succ htodo hr] at hallowed
      rw [search_succ htodo, @visit_eq g myself prevNh h { st with todo := rest } n r hr hlive] at hsearch
      obtain ⟨hduring, hall⟩ := @fold _ _ _ _ _ _ _ R h n r [] (g.arcs n) { st with todo := rest } rfl
        (R.pop htodo hr hbetween) hr (fun t ht => hallowed t (List.mem_append_left _ ht))
        (fun m hm hv => (hsettled m hv).imp_left fun hmem => by
          rw [htodo] at hmem
          exact (List.mem_cons.1 hmem).resolve_left hm) (by simp)
      exact ih hsearch (fun t ht => hallowed t (List.mem_append_right _ ht)) (R.push hduring) hall

/-- What holds during a visit holds before each of its relaxations. -/
theorem fold_trace {n : NodeId} {r : Route} {l : List (EdgeId × Edge)} {st : Bfs} (hl : ∀ p ∈ l, p ∈ g.arcs n)
    (hduring : During n r st) (hr : st.route n = some r)
    (hallowed : ∀ t ∈ relaxations myself prevNh r st l, Allowed t) :
    (∀ t ∈ relaxations myself prevNh r st l, During n t.route t.before ∧ t.before.route n = some t.route ∧ t.arc ∈ g.arcs n) ∧
      During n r (l.foldl (Bfs.relax myself prevNh r) st) := by
  induction l generalizing st with
  | nil => exact ⟨by simp [relaxations], hduring⟩
  | cons p l ih =>
    have hp := hl p List.mem_cons_self
    obtain ⟨hget, hfrom⟩ := h.mem_arcs.1 hp
    have hne : n ≠ p.2.toNode := hfrom ▸ (h.ends hget).2.2
    obtain ⟨hrest, hlast⟩ := ih (fun q hq => hl q (List.mem_cons_of_mem _ hq))
      (R.relax hduring hr hp (hallowed _ List.mem_cons_self)) ((relax_route_ne hne).trans hr)
      fun t ht => hallowed t (List.mem_cons_of_mem _ ht)
    refine ⟨fun t ht => ?_, hlast⟩
    rcases List.mem_cons.1 ht with rfl | ht
    · exact ⟨hduring, hr, hp⟩
    · exact hrest t ht

theorem search_trace {fuel : ℕ} {st : Bfs} (hallowed : ∀ t ∈ searchTrace g myself prevNh fuel st, Allowed t)
    (hbetween : Between st) : ∀ t ∈ searchTrace g myself prevNh fuel st,
      ∃ n, During n t.route t.before ∧ t.before.route n = some t.route ∧ t.arc ∈ g.arcs n := by
  induction fuel generalizing st with
  | zero => simp [searchTrace_stop]
  | succ fuel ih =>
    cases htodo : st.todo with
    | nil => simp [searchTrace_stop (.inl htodo)]
    | cons n rest =>
      obtain ⟨hvisited, -⟩ := R.queued hbetween n (by simp [htodo])
      obtain ⟨r, hr⟩ := Option.isSome_iff_exists.1 hvisited
      rw [searchTrace_succ htodo hr] at hallowed ⊢
      obtain ⟨hvisit, hduring⟩ := R.fold_trace h (fun p hp => hp) (R.pop htodo hr hbetween) hr
        fun t ht => hallowed t (List.mem_append_left _ ht)
      intro t ht
      rcases List.mem_append.1 ht with ht | ht
      · exact ⟨n, hvisit t ht⟩
      · exact ih (fun t ht => hallowed t (List.mem_append_right _ ht)) (R.push hduring) t ht

end Rounds

/-- Twice the weight, above that of the smallest number, and one more for an indirect route. -/
def rank : Option Route → ℕ
  | none => 2 ^ 33
  | some r => 2 * (r.weightedDistance + 2 ^ 31).toNat + if r.indirect then 1 else 0

def InRange (r : Route) : Prop := -2 ^ 31 ≤ r.weightedDistance ∧ r.weightedDistance ≤ 2 ^ 31 - 1

theorem candidate_inRange (myself : NodeId) (r : Route) (eid : EdgeId) (e : Edge) : InRange (candidate myself r eid e) := by
  simp only [InRange, candidate, satAdd]
  omega

/-- Every new route to a node ranks below the one before. -/
theorem rank_lt {old : Option Route} {cand new : Route} (hcand : InRange cand) (hold : ∀ o, old = some o → InRange o)
    (h : Route.revisit old cand = some new) : InRange new ∧ rank (some new) < rank old := by
  unfold InRange at hcand
  rcases revisit_some h with ⟨rfl, rfl⟩ | ⟨o, rfl, hlight, rfl⟩ | ⟨o, rfl, -, ho, hc, rfl⟩
  · refine ⟨hcand, ?_⟩
    simp only [rank]
    split_ifs <;> omega
  · obtain ⟨-, hlt⟩ := lighter_iff.1 hlight
    refine ⟨hcand, ?_⟩
    simp only [rank]
    split_ifs <;> omega
  · refine ⟨hold o rfl, ?_⟩
    simp [rank, ho, hc]

/-- The queue and the ranks of the nodes: no relaxation adds to it, and every round takes one away. -/
def potential (size : ℕ) (st : Bfs) : ℕ := st.todo.length + ∑ n ∈ Finset.range size, rank (st.route n)

theorem sum_rank_update {size i : ℕ} (hi : i < size) (f : ℕ → Option Route) (v : Option Route) :
    ∑ n ∈ Finset.range size, rank (update f i v n) + rank (f i) =
      ∑ n ∈ Finset.range size, rank (f n) + rank v := by
  have hmem := Finset.mem_range.2 hi
  have hnew := Finset.add_sum_erase _ (fun n => rank (update f i v n)) hmem
  have hold := Finset.add_sum_erase _ (fun n => rank (f n)) hmem
  have hrest : ∑ n ∈ (Finset.range size).erase i, rank (update f i v n) =
      ∑ n ∈ (Finset.range size).erase i, rank (f n) :=
    Finset.sum_congr rfl fun n hn => by rw [update_of_ne (Finset.ne_of_mem_erase hn)]
  simp only [update_self] at hnew
  omega

theorem potential_relax {size : ℕ} {r : Route} {st : Bfs} {p : EdgeId × Edge} (hsize : p.2.toNode < size)
    (hrange : ∀ n o, st.route n = some o → InRange o) :
    potential size (st.relax myself prevNh r p) ≤ potential size st := by
  rcases relax_cases myself prevNh r st p with ⟨-, hst⟩ | ⟨-, -, hroute, htodo⟩ | ⟨-, new, hrev, hroute, htodo⟩
  · rw [hst]
  · rw [potential, potential, hroute, htodo]
  · obtain ⟨-, hlt⟩ := rank_lt (candidate_inRange ..) (hrange _) hrev
    have hsum := sum_rank_update hsize st.route (some new)
    rw [potential, potential, htodo, hroute, List.length_append, List.length_singleton]
    omega

def Link (g : Graph) (a b : NodeId) : Prop :=
  ∃ e d, g.edges.get e = some d ∧ d.fromNode = a ∧ d.toNode = b ∧ d.reverse ≠ none

def Reach (g : Graph) : NodeId → NodeId → Prop := Relation.ReflTransGen g.Link

structure Base (g : Graph) (myself : NodeId) (st : Bfs) : Prop where
  root : st.route myself = some ⟨false, 0, 0, myself, myself, none, 0⟩
  reach : ∀ n, (st.route n).isSome → g.Reach myself n
  range : ∀ n r, st.route n = some r → InRange r
  queued : ∀ n ∈ st.todo, (st.route n).isSome

@[simp] theorem start_root (myself : NodeId) :
    (Bfs.start myself).route myself = some ⟨false, 0, 0, myself, myself, none, 0⟩ := by
  simp [Bfs.start]

theorem start_some {r : Route} (h : (Bfs.start myself).route n = some r) :
    n = myself ∧ r = ⟨false, 0, 0, myself, myself, none, 0⟩ := by
  by_cases hn : n = myself
  · subst hn
    rw [start_root] at h
    exact ⟨rfl, (Option.some.inj h).symm⟩
  · simp [Bfs.start, update_of_ne hn] at h

theorem base_start (g : Graph) (myself : NodeId) : Base g myself (.start myself) := by
  refine ⟨by simp, fun n hn => ?_, fun n r hr => ?_, by simp [Bfs.start]⟩
  · obtain ⟨r, hr⟩ := Option.isSome_iff_exists.1 hn
    exact (start_some hr).1 ▸ .refl
  · obtain ⟨-, rfl⟩ := start_some hr
    exact ⟨by norm_num, by norm_num⟩

theorem Base.relax {st : Bfs} {n : NodeId} {r : Route} {p : EdgeId × Edge} (hbase : Base g myself st) (h : g.Inv)
    (hr : st.route n = some r) (hp : p ∈ g.arcs n) : Base g myself (st.relax myself prevNh r p) := by
  obtain ⟨hget, hfrom⟩ := h.mem_arcs.1 hp
  rcases relax_cases myself prevNh r st p with ⟨-, hst⟩ | ⟨-, -, hroute, htodo⟩ | ⟨husable, new, hrev, hroute, htodo⟩
  · rwa [hst]
  · exact ⟨hroute ▸ hbase.root, hroute ▸ hbase.reach, hroute ▸ hbase.range, by
      rw [hroute, htodo]
      exact hbase.queued⟩
  · refine ⟨relax_root.trans hbase.root, fun m hm => ?_, fun m o ho => ?_, fun m hm => ?_⟩
    · by_cases hto : m = p.2.toNode
      · subst hto
        exact (hbase.reach n (by rw [hr]; rfl)).tail ⟨p.1, p.2, hget, hfrom, rfl, husable.1⟩
      · rw [hroute, update_of_ne hto] at hm
        exact hbase.reach m hm
    · by_cases hto : m = p.2.toNode
      · subst hto
        rw [hroute, update_self] at ho
        obtain rfl := Option.some.inj ho
        exact (rank_lt (candidate_inRange ..) (hbase.range _) hrev).1
      · rw [hroute, update_of_ne hto] at ho
        exact hbase.range m o ho
    · rw [htodo] at hm
      rcases List.mem_append.1 hm with hm | hm
      · exact relax_isSome (hbase.queued m hm)
      · rw [hroute, List.mem_singleton.1 hm, update_self]
        rfl

theorem live_of_reach (h : g.Inv) (hlive : (g.nodes.get myself).isSome) (hn : g.Reach myself n) :
    (g.nodes.get n).isSome := by
  cases hn with
  | refl => exact hlive
  | tail _ hlink =>
    obtain ⟨e, d, hget, -, rfl, -⟩ := hlink
    obtain ⟨y, hy, -⟩ := (h.ends hget).2.1
    rw [hy]
    rfl

theorem Base.queued_live {st : Bfs} (hbase : Base g myself st) (h : g.Inv) (hlive : (g.nodes.get myself).isSome)
    (n : NodeId) (hn : n ∈ st.todo) : (st.route n).isSome ∧ (g.nodes.get n).isSome :=
  ⟨hbase.queued n hn, live_of_reach h hlive (hbase.reach n (hbase.queued n hn))⟩

theorem Base.fold {st : Bfs} {n : NodeId} {r : Route} {l : List (EdgeId × Edge)} (hbase : Base g myself st) (h : g.Inv)
    (hr : st.route n = some r) (hl : ∀ p ∈ l, p ∈ g.arcs n) :
    Base g myself (l.foldl (Bfs.relax myself prevNh r) st) ∧
      potential g.nodes.cells.length (l.foldl (Bfs.relax myself prevNh r) st) ≤
        potential g.nodes.cells.length st := by
  induction l generalizing st with
  | nil => exact ⟨hbase, le_rfl⟩
  | cons p l ih =>
    have hp := hl p List.mem_cons_self
    obtain ⟨hget, hfrom⟩ := h.mem_arcs.1 hp
    obtain ⟨y, hy, -⟩ := (h.ends hget).2.1
    have hne : n ≠ p.2.toNode := hfrom ▸ (h.ends hget).2.2
    obtain ⟨hlast, hle⟩ := ih (hbase.relax h hr hp) ((relax_route_ne hne).trans hr)
      fun q hq => hl q (List.mem_cons_of_mem _ hq)
    exact ⟨hlast, hle.trans (potential_relax (Slab.lt_length_of_get hy) hbase.range)⟩

theorem Base.pop {st : Bfs} (hbase : Base g myself st) (htodo : st.todo = n :: rest) :
    Base g myself { st with todo := rest } :=
  ⟨hbase.root, hbase.reach, hbase.range, fun m hm => hbase.queued m (htodo ▸ List.mem_cons_of_mem _ hm)⟩

/-- A round does not panic and takes one off the potential. -/
theorem Base.round {st : Bfs} {n : NodeId} {rest : List NodeId} (hbase : Base g myself st) (h : g.Inv)
    (hlive : (g.nodes.get myself).isSome) (htodo : st.todo = n :: rest) :
    ∃ st', visit g myself prevNh { st with todo := rest } n = .ok st' ∧ Base g myself st' ∧
      potential g.nodes.cells.length st' + 1 ≤ potential g.nodes.cells.length st := by
  have hqueued : n ∈ st.todo := by simp [htodo]
  obtain ⟨hvisited, hn⟩ := hbase.queued_live h hlive n hqueued
  obtain ⟨r, hr⟩ := Option.isSome_iff_exists.1 hvisited
  obtain ⟨hlast, hle⟩ := @Base.fold g myself prevNh _ _ r _ (hbase.pop htodo) h hr fun p hp => hp
  refine ⟨_, @visit_eq g myself prevNh h { st with todo := rest } n r hr hn, hlast, ?_⟩
  have hless : potential g.nodes.cells.length { st with todo := rest } + 1 = potential g.nodes.cells.length st := by
    simp only [potential, htodo, List.length_cons]
    omega
  omega

theorem search_ends (h : g.Inv) (hlive : (g.nodes.get myself).isSome) {st : Bfs} (hbase : Base g myself st)
    (hfuel : potential g.nodes.cells.length st ≤ fuel) :
    ∃ st', search g myself prevNh fuel st = some (.ok st') := by
  induction fuel generalizing st with
  | zero =>
    cases htodo : st.todo with
    | nil => exact ⟨st, search_nil htodo⟩
    | cons n rest =>
      rw [potential, htodo, List.length_cons] at hfuel
      omega
  | succ fuel ih =>
    cases htodo : st.todo with
    | nil => exact ⟨st, search_nil htodo⟩
    | cons n rest =>
      obtain ⟨st', hvisit, hbase', hless⟩ := @Base.round g myself prevNh _ _ _ hbase h hlive htodo
      rw [search_succ htodo, hvisit]
      exact ih hbase' (by omega)

/-- Whatever comes off the queue is live and has a route. -/
theorem dequeued_live (h : g.Inv) (hlive : (g.nodes.get myself).isSome) {st : Bfs} (hbase : Base g myself st) :
    ∀ p ∈ dequeued g myself prevNh fuel st, (p.2.route p.1).isSome ∧ (g.nodes.get p.1).isSome := by
  induction fuel generalizing st with
  | zero => simp [dequeued_stop]
  | succ fuel ih =>
    cases htodo : st.todo with
    | nil => simp [dequeued_stop (.inl htodo)]
    | cons n rest =>
      obtain ⟨st', hvisit, hbase', -⟩ := @Base.round g myself prevNh _ _ _ hbase h hlive htodo
      rw [dequeued_succ htodo, hvisit]
      intro p hp
      rcases List.mem_cons.1 hp with rfl | hp
      · exact hbase.queued_live h hlive n (by simp [htodo])
      · exact ih hbase' p hp

theorem potential_start (size : ℕ) : potential size (.start myself) ≤ size * 2 ^ 33 + 1 := by
  have hle : ∀ n ∈ Finset.range size, rank ((Bfs.start myself).route n) ≤ 2 ^ 33 := by
    intro n _
    by_cases hn : n = myself
    · simp [Bfs.start, hn, rank]
    · simp [Bfs.start, update_of_ne hn, rank]
  have hsum := Finset.sum_le_card_nsmul _ _ _ hle
  rw [Finset.card_range, smul_eq_mul] at hsum
  rw [potential, show (Bfs.start myself).todo.length = 1 from rfl]
  omega

theorem search_returns (h : g.Inv) (hlive : (g.nodes.get myself).isSome) (prevNh : NodeId → Option NodeId) :
    ∃ st, search g myself prevNh g.rounds (.start myself) = some (.ok st) :=
  search_ends h hlive (base_start g myself) (potential_start _)

theorem allSettled_start (Settled : (NodeId → Option Route) → NodeId → EdgeId × Edge → Prop) (n : NodeId) :
    AllSettled g myself Settled (.start myself) n := by
  intro hn
  obtain ⟨r, hr⟩ := Option.isSome_iff_exists.1 hn
  exact .inl (by rw [(start_some hr).1]; exact List.mem_cons_self)

/-- An edge settled for reachability: its far end has a route. -/
theorem base_rounds (h : g.Inv) (hlive : (g.nodes.get myself).isSome) :
    Rounds g myself prevNh (Base g myself) (fun _ _ => Base g myself)
      (fun route _ q => (route q.2.toNode).isSome) fun _ => True where
  queued hbase := hbase.queued_live h hlive
  pop htodo _ hbase := hbase.pop htodo
  relax hbase hr hp _ := hbase.relax h hr hp
  settle {st n r p} hbase hr hp husable _ := by
    rcases relax_cases myself prevNh r st p with ⟨hno, -⟩ | ⟨-, hrev, hroute, -⟩ | ⟨-, new, -, hroute, -⟩
    · exact absurd husable hno
    · obtain ⟨o, ho, -⟩ := revisit_none hrev
      rw [hroute, ho]
      rfl
    · rw [hroute, update_self]
      rfl
  keep _ _ _ _ m q _ hset := relax_isSome hset
  push hbase := hbase

theorem search_reach (h : g.Inv) (hlive : (g.nodes.get myself).isSome) {st : Bfs}
    (hsearch : search g myself prevNh g.rounds (.start myself) = some (.ok st)) (n : NodeId) :
    (st.route n).isSome ↔ g.Reach myself n := by
  obtain ⟨hbase, hset⟩ := (base_rounds h hlive).search_settled h hsearch (by simp) (base_start g myself)
    (allSettled_start _)
  refine ⟨hbase.reach n, fun hreach => ?_⟩
  induction hreach with
  | refl => simp [hbase.root]
  | tail _ hlink ih =>
    obtain ⟨e, d, hget, hfrom, rfl, hrev⟩ := hlink
    by_cases hroot : d.toNode = myself
    · simp [hroot, hbase.root]
    · exact hset _ ih (e, d) (h.mem_arcs.2 ⟨hget, hfrom⟩) ⟨hrev, hroot⟩

theorem stickyPostPass_cases (route : NodeId → Option Route) (prev : List (Option Route)) (stickyWdist : NodeId → Option ℤ)
    (n : NodeId) : stickyPostPass route prev stickyWdist n = route n ∨
      ∃ new old w, route n = some new ∧ prev[n]?.join = some old ∧ stickyWdist n = some w ∧
        stickyPostPass route prev stickyWdist n = some { new with nexthop := old.nexthop, weightedDistance := w } := by
  unfold stickyPostPass
  split
  · next new old w hnew hold hw =>
    split_ifs
    · exact .inr ⟨new, old, w, hnew, hold, hw, rfl⟩
    · exact .inl hnew.symm
  · exact .inl rfl

theorem ssspSticky_eq {prev : List (Option Route)} {st : Bfs} (hlive : (g.nodes.get myself).isSome)
    (hsearch : search g myself (fun n => (prev[n]?.join).map (·.nexthop)) g.rounds (.start myself) = some (.ok st)) :
    g.ssspSticky myself prev =
      some (.ok (if prev = [] then st.route else stickyPostPass st.route prev st.stickyWdist)) := by
  obtain ⟨x, hx⟩ := Option.isSome_iff_exists.1 hlive
  have hlt := Slab.lt_length_of_get hx
  rw [ssspSticky, if_neg (by omega), hsearch]
  rfl

/-- The table has a route to exactly the nodes that can be reached. -/
theorem ssspSticky_reach (h : g.Inv) (hlive : (g.nodes.get myself).isSome) {prev : List (Option Route)}
    {routes : NodeId → Option Route} (hrun : g.ssspSticky myself prev = some (.ok routes)) (n : NodeId) :
    (routes n).isSome ↔ g.Reach myself n := by
  obtain ⟨st, hsearch⟩ := search_returns h hlive fun n => (prev[n]?.join).map (·.nexthop)
  rw [ssspSticky_eq hlive hsearch] at hrun
  obtain rfl := Except.ok.inj (Option.some.inj hrun)
  rw [← search_reach h hlive hsearch n]
  split_ifs
  · rfl
  · rcases stickyPostPass_cases st.route prev st.stickyWdist n with hsame | ⟨new, old, w, hnew, -, -, hpin⟩
    · rw [hsame]
    · rw [hpin, hnew]
      simp

theorem ssspSticky_ends (h : g.Inv) (hlive : (g.nodes.get myself).isSome) (prev : List (Option Route)) :
    (∃ routes, g.ssspSticky myself prev = some (.ok routes)) ∧
      ∀ fuel, ∀ p ∈ dequeued g myself (fun n => (prev[n]?.join).map (·.nexthop)) fuel (.start myself),
        (p.2.route p.1).isSome ∧ (g.nodes.get p.1).isSome := by
  obtain ⟨st, hsearch⟩ := search_returns h hlive fun n => (prev[n]?.join).map (·.nexthop)
  exact ⟨⟨_, ssspSticky_eq hlive hsearch⟩, fun fuel => dequeued_live h hlive (base_start g myself)⟩

/-- An indirect edge, a negative one and the heaviest there is. -/
def oddWeights : List Op :=
  [.addNode "a", .addNode "b", .addNode "c", .addEdge 0 1 5 1, .addEdge 1 0 5 1, .addEdge 1 2 (-7) 0, .addEdge 2 1 (-7) 0,
    .addEdge 0 2 (2 ^ 31 - 1) 0, .addEdge 2 0 (2 ^ 31 - 1) 0]

theorem ssspSticky_ends_oddWeights : ∃ g, applyAll oddWeights new = .ok g ∧
    (∃ routes, g.ssspSticky 0 [none, some ⟨false, 1, 0, 2, 1, none, 0⟩] = some (.ok routes)) ∧
      ∀ fuel, ∀ p ∈ dequeued g 0 (fun n =>
          ([none, some (⟨false, 1, 0, 2, 1, none, 0⟩ : Route)][n]?.join).map (·.nexthop)) fuel (.start 0),
        (p.2.route p.1).isSome ∧ (g.nodes.get p.1).isSome := by
  obtain ⟨g, hrun, hinv, hlive⟩ := applyAll_any (show Disciplined oddWeights new by decide +kernel)
    (p := fun g => (g.nodes.get 0).isSome) (by decide +kernel)
  exact ⟨g, hrun, ssspSticky_ends hinv hlive _⟩

/-- A route of the one table that is not that of the other keeps the previous next hop, within the threshold. -/
def Near (prev : List (Option Route)) (plain routes : NodeId → Option Route) : Prop :=
  ∀ n, routes n = plain n ∨ ∃ best old w, plain n = some best ∧ prev[n]?.join = some old ∧
    w * 100 ≤ best.weightedDistance * STICKY_THRESHOLD_PCT ∧
    routes n = some { best with nexthop := old.nexthop, weightedDistance := w }

end Search

end Tincr.Graph
