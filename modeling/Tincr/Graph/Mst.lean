import Tincr.Graph.Search
import Tincr.Lib.SpanningTree

/-!
`mst` walks the edges by weight and takes each one with a twin that has exactly one visited end; after a
take that follows a skip it starts again from the head. So the edges behind the walk never cross the
visited set, the edge it takes is the smallest that does, and its tree is the minimum spanning tree of what
the start is joined to.
-/

namespace Tincr.Graph

def order (g : Graph) : List EdgeId := g.weightOrder.toList.map (·.2)

def mstStart (g : Graph) : List EdgeId → Except Panic (Option NodeId)
  | [] => .ok none
  | eid :: rest => do
    let e ← slot g.edges eid
    let x ← slot g.nodes e.fromNode
    if x.reachable then pure (some e.fromNode) else mstStart g rest

/-- The state of the walk: its place, whether something was skipped since the head, what is visited and what
was taken. -/
structure Kruskal where
  i : ℕ
  skipped : Bool
  visited : NodeId → Bool
  mstEdges : List EdgeId

def Kruskal.look (g : Graph) (st : Kruskal) (eid : EdgeId) : Except Panic Kruskal := do
  let e ← slot g.edges eid
  -- the indexing of `visited`
  if g.nodes.cells.length ≤ e.fromNode ∨ g.nodes.cells.length ≤ e.toNode then .error .outOfRange
  else
    match e.reverse with
    | none => pure { st with skipped := true, i := st.i + 1 }
    | some r =>
      if st.visited e.fromNode = st.visited e.toNode then pure { st with skipped := true, i := st.i + 1 }
      else pure {
        i := if st.skipped then 0 else st.i + 1
        skipped := false
        visited := Function.update (Function.update st.visited e.fromNode true) e.toNode true
        mstEdges := st.mstEdges ++ [eid, r] }

def kruskal (g : Graph) (order : List EdgeId) : ℕ → Kruskal → Option (Except Panic Kruskal)
  | fuel, st =>
    match order[st.i]?, fuel with
    | none, _ => some (.ok st)
    | some _, 0 => none
    | some eid, fuel + 1 =>
      match st.look g eid with
      | .error p => some (.error p)
      | .ok st => kruskal g order fuel st

/-- A bound for the rounds: after a take one node fewer is left to visit, and between two takes the walk goes
over the edges once. -/
def mstRounds (g : Graph) : ℕ := (g.nodes.cells.length + 1) * (g.order.length + 1)

/-- `mst`; `none` if the bound on the rounds is too small, which it never is. -/
def mst (g : Graph) : Option (Except Panic (List EdgeId)) :=
  match mstStart g g.order with
  | .error p => some (.error p)
  | .ok start =>
    (kruskal g g.order g.mstRounds ⟨0, false, fun n => some n == start, []⟩).map fun res => res.map (·.mstEdges)

def key (g : Graph) (e : EdgeId) : WeightKey :=
  match g.edges.get e with
  | none => weightKey 0 "" ""
  | some d => weightKey d.weight (((g.nodes.get d.fromNode).map (·.name)).getD "") d.toName

def ends (g : Graph) (e : EdgeId) : NodeId × NodeId := ((g.edges.get e).map fun d => (d.fromNode, d.toNode)).getD (0, 0)

theorem ends_of_get {g : Graph} {e : EdgeId} {d : Edge} (h : g.edges.get e = some d) : g.ends e = (d.fromNode, d.toNode) := by
  simp [ends, h]

section Order

variable {g : Graph} (h : g.Inv)
include h

variable {e : EdgeId}

theorem weightOrder_key {k : WeightKey} (hk : g.weightOrder[k]? = some e) :
    (g.edges.get e).isSome ∧ g.key e = k := by
  obtain ⟨d, x, hd, hx, rfl⟩ := (h.weight k e).1 hk
  exact ⟨by rw [hd]; rfl, by simp [key, hd, hx]⟩

theorem mem_order : e ∈ g.order ↔ (g.edges.get e).isSome := by
  constructor
  · intro he
    obtain ⟨⟨k, e'⟩, hmem, rfl⟩ := List.mem_map.1 he
    exact (weightOrder_key h (Std.TreeMap.mem_toList_iff_getElem?_eq_some.1 hmem)).1
  · intro he
    obtain ⟨d, hd⟩ := Option.isSome_iff_exists.1 he
    obtain ⟨x, hx⟩ := Option.isSome_iff_exists.1 (h.ends hd).1
    have hk := (h.weight _ e).2 ⟨d, x, hd, hx, rfl⟩
    exact List.mem_map.2 ⟨_, Std.TreeMap.mem_toList_iff_getElem?_eq_some.2 hk, rfl⟩

theorem order_sorted : g.order.Pairwise fun a b => g.key a < g.key b := by
  refine List.pairwise_map.2 (Std.TreeMap.ordered_keys_toList.imp_of_mem fun {a b} ha hb hab => ?_)
  have hka := (weightOrder_key h (Std.TreeMap.mem_toList_iff_getElem?_eq_some.1 ha)).2
  have hkb := (weightOrder_key h (Std.TreeMap.mem_toList_iff_getElem?_eq_some.1 hb)).2
  rw [hka, hkb]
  exact compare_lt_iff_lt.1 hab

theorem key_inj {a b : EdgeId} (ha : (g.edges.get a).isSome) (hb : (g.edges.get b).isSome) (hab : g.key a = g.key b) :
    a = b := by
  obtain ⟨d, hd⟩ := Option.isSome_iff_exists.1 ha
  obtain ⟨c, hc⟩ := Option.isSome_iff_exists.1 hb
  obtain ⟨x, hx⟩ := Option.isSome_iff_exists.1 (h.ends hd).1
  obtain ⟨y, hy⟩ := Option.isSome_iff_exists.1 (h.ends hc).1
  have hka := (h.weight _ a).2 ⟨d, x, hd, hx, rfl⟩
  have hkb := (h.weight _ b).2 ⟨c, y, hc, hy, rfl⟩
  simp only [key, hd, hc, hx, hy, Option.map_some, Option.getD_some] at hab
  rw [hab, hkb] at hka
  exact (Option.some.inj hka).symm

theorem lt_of_key_lt {i : ℕ} {a b : EdgeId} (ha : g.order[i]? = some a) (hb : (g.edges.get b).isSome)
    (hlt : g.key b < g.key a) : ∃ j < i, g.order[j]? = some b := by
  obtain ⟨j, hj⟩ := List.getElem?_of_mem ((mem_order h).2 hb)
  refine ⟨j, ?_, hj⟩
  by_contra hle
  obtain ⟨hi', rfl⟩ := List.getElem?_eq_some_iff.1 ha
  obtain ⟨hj', rfl⟩ := List.getElem?_eq_some_iff.1 hj
  rcases Nat.lt_or_eq_of_le (not_lt.1 hle) with hij | rfl
  · exact lt_asymm hlt (List.pairwise_iff_getElem.1 (order_sorted h) i j hi' hj' hij)
  · exact lt_irrefl _ hlt

theorem order_get {i : ℕ} (he : g.order[i]? = some e) : ∃ d, g.edges.get e = some d :=
  Option.isSome_iff_exists.1 ((mem_order h).1 (List.mem_of_getElem? he))

end Order

/-- The origin of the first edge in the weight order whose origin is reachable. -/
def IsStart (g : Graph) (n : NodeId) : Prop :=
  ∃ e d x, g.edges.get e = some d ∧ d.fromNode = n ∧ g.nodes.get n = some x ∧ x.reachable = true ∧
    ∀ e' d' x', g.edges.get e' = some d' → g.nodes.get d'.fromNode = some x' → x'.reachable = true → g.key e ≤ g.key e'

/-- The walk to the start, over a rest of the order: it finds the first edge with a reachable origin. -/
theorem mstStart_eq {g : Graph} (h : g.Inv) {l : List EdgeId} (hl : ∀ e ∈ l, (g.edges.get e).isSome) :
    ∃ start, mstStart g l = .ok start ∧
      match start with
      | none => ∀ e ∈ l, ∀ d x, g.edges.get e = some d → g.nodes.get d.fromNode = some x → x.reachable = false
      | some n => ∃ pre e d x post, l = pre ++ e :: post ∧ g.edges.get e = some d ∧ d.fromNode = n ∧
          g.nodes.get n = some x ∧ x.reachable = true ∧
          ∀ e' ∈ pre, ∀ d' x', g.edges.get e' = some d' → g.nodes.get d'.fromNode = some x' → x'.reachable = false := by
  induction l with
  | nil => exact ⟨none, rfl, by simp⟩
  | cons e l ih =>
    obtain ⟨d, hd⟩ := Option.isSome_iff_exists.1 (hl e List.mem_cons_self)
    obtain ⟨x, hx⟩ := Option.isSome_iff_exists.1 (h.ends hd).1
    have hrun : mstStart g (e :: l) = if x.reachable then pure (some d.fromNode) else mstStart g l := by
      rw [mstStart, slot_of_get hd]
      simp only [bind, Except.bind, slot_of_get hx]
    by_cases hreach : x.reachable
    · exact ⟨some d.fromNode, by rw [hrun, if_pos hreach]; rfl, [], e, d, x, l, rfl, hd, rfl, hx, hreach, by simp⟩
    · have hskip : ∀ d' x', g.edges.get e = some d' → g.nodes.get d'.fromNode = some x' → x'.reachable = false := by
        intro d' x' hd' hx'
        obtain rfl := Option.some.inj (hd.symm.trans hd')
        obtain rfl := Option.some.inj (hx.symm.trans hx')
        simpa using hreach
      obtain ⟨start, hstart, hspec⟩ := ih fun e he => hl e (List.mem_cons_of_mem _ he)
      refine ⟨start, by rw [hrun, if_neg hreach, hstart], ?_⟩
      cases start with
      | none =>
        intro e' he'
        rcases List.mem_cons.1 he' with rfl | he'
        · exact hskip
        · exact hspec e' he'
      | some n =>
        obtain ⟨pre, e₁, d₁, x₁, post, rfl, hd₁, hn, hx₁, hr₁, hpre⟩ := hspec
        refine ⟨e :: pre, e₁, d₁, x₁, post, rfl, hd₁, hn, hx₁, hr₁, fun e' he' => ?_⟩
        rcases List.mem_cons.1 he' with rfl | he'
        · exact hskip
        · exact hpre e' he'

theorem mstStart_order {g : Graph} (h : g.Inv) :
    ∃ start, mstStart g g.order = .ok start ∧ ∀ n, start = some n ↔ g.IsStart n := by
  obtain ⟨start, hrun, hspec⟩ := mstStart_eq h fun e he => (mem_order h).1 he
  refine ⟨start, hrun, fun n => ?_⟩
  cases start with
  | none =>
    refine ⟨fun hn => (by cases hn), ?_⟩
    rintro ⟨e, d, x, hd, rfl, hx, hreach, -⟩
    rw [hspec e ((mem_order h).2 (by rw [hd]; rfl)) d x hd hx] at hreach
    cases hreach
  | some m =>
    obtain ⟨pre, e, d, x, post, hsplit, hd, rfl, hx, hreach, hpre⟩ := hspec
    have hsorted := order_sorted h
    rw [hsplit, List.pairwise_append, List.pairwise_cons] at hsorted
    have hfirst : ∀ e' d' x', g.edges.get e' = some d' → g.nodes.get d'.fromNode = some x' → x'.reachable = true →
        g.key e ≤ g.key e' := by
      intro e' d' x' hd' hx' hreach'
      have hmem := (mem_order h).2 (show (g.edges.get e').isSome by rw [hd']; rfl)
      rw [hsplit] at hmem
      rcases List.mem_append.1 hmem with hmem | hmem
      · rw [hpre e' hmem d' x' hd' hx'] at hreach'
        cases hreach'
      · rcases List.mem_cons.1 hmem with rfl | hmem
        · exact le_rfl
        · exact (hsorted.2.1.1 e' hmem).le
    constructor
    · rintro hn
      obtain rfl := Option.some.inj hn
      exact ⟨e, d, x, hd, rfl, hx, hreach, hfirst⟩
    · rintro ⟨e', d', x', hd', rfl, hx', hreach', hfirst'⟩
      have heq := key_inj h (by rw [hd]; rfl) (by rw [hd']; rfl)
        (le_antisymm (hfirst e' d' x' hd' hx' hreach') (hfirst' e d x hd hx hreach))
      subst heq
      rw [Option.some.inj (hd.symm.trans hd')]

section Walk

variable {g : Graph} {st : Kruskal}

def Kruskal.Crossing (st : Kruskal) (d : Edge) : Prop := d.reverse ≠ none ∧ st.visited d.fromNode ≠ st.visited d.toNode

def Kruskal.skip (st : Kruskal) : Kruskal := { st with skipped := true, i := st.i + 1 }

def Kruskal.take (st : Kruskal) (eid r : EdgeId) (d : Edge) : Kruskal where
  i := if st.skipped then 0 else st.i + 1
  skipped := false
  visited := Function.update (Function.update st.visited d.fromNode true) d.toNode true
  mstEdges := st.mstEdges ++ [eid, r]

theorem look_cases (h : g.Inv) {e : EdgeId} {d : Edge} (hd : g.edges.get e = some d) :
    (¬ st.Crossing d ∧ st.look g e = .ok st.skip) ∨
      ∃ r, st.Crossing d ∧ d.reverse = some r ∧ st.look g e = .ok (st.take e r d) := by
  obtain ⟨x, hx⟩ := Option.isSome_iff_exists.1 (h.ends hd).1
  obtain ⟨y, hy, -⟩ := (h.ends hd).2.1
  have hx' := Slab.lt_length_of_get hx
  have hy' := Slab.lt_length_of_get hy
  have hrun : st.look g e = match d.reverse with
      | none => .ok st.skip
      | some r => if st.visited d.fromNode = st.visited d.toNode then .ok st.skip else .ok (st.take e r d) := by
    rw [Kruskal.look, slot_of_get hd]
    simp only [bind, Except.bind, if_neg (show ¬(g.nodes.cells.length ≤ d.fromNode ∨ g.nodes.cells.length ≤ d.toNode) by omega)]
    rfl
  cases hrev : d.reverse with
  | none => exact .inl ⟨fun hc => hc.1 hrev, by rw [hrun, hrev]⟩
  | some r =>
    rw [hrev] at hrun
    by_cases hsame : st.visited d.fromNode = st.visited d.toNode
    · exact .inl ⟨fun hc => hc.2 hsame, hrun.trans (if_pos hsame)⟩
    · exact .inr ⟨r, ⟨by simp [hrev], hsame⟩, rfl, hrun.trans (if_neg hsame)⟩

theorem take_visited {e r : EdgeId} {d : Edge} (n : NodeId) :
    (st.take e r d).visited n = true ↔ st.visited n = true ∨ n = d.fromNode ∨ n = d.toNode := by
  simp only [Kruskal.take, Function.update_apply]
  split_ifs with hto hfrom <;> simp [*]

theorem kruskal_none {l : List EdgeId} {fuel : ℕ} (hi : l[st.i]? = none) : kruskal g l fuel st = some (.ok st) := by
  unfold kruskal
  cases fuel <;> rw [hi]

theorem kruskal_succ {l : List EdgeId} {fuel : ℕ} {e : EdgeId} (hi : l[st.i]? = some e) :
    kruskal g l (fuel + 1) st =
      match st.look g e with
      | .error p => some (.error p)
      | .ok st => kruskal g l fuel st := by
  conv_lhs => unfold kruskal
  rw [hi]

/-- The nodes left to visit times the walk over the edges, and what is left of this walk. -/
def Kruskal.left (g : Graph) (st : Kruskal) : ℕ :=
  ((Finset.range g.nodes.cells.length).filter fun n => st.visited n = false).card * (g.order.length + 1) +
    (g.order.length - st.i)

theorem left_skip (hi : st.i < g.order.length) : st.skip.left g < st.left g := by
  refine Nat.add_lt_add_left ?_ _
  change g.order.length - (st.i + 1) < g.order.length - st.i
  omega

theorem left_take (h : g.Inv) {e r : EdgeId} {d : Edge} (hd : g.edges.get e = some d) (hcross : st.Crossing d) :
    (st.take e r d).left g < st.left g := by
  obtain ⟨x, hx⟩ := Option.isSome_iff_exists.1 (h.ends hd).1
  obtain ⟨y, hy, -⟩ := (h.ends hd).2.1
  -- one of the two ends was not visited before
  have hnew : ∃ n < g.nodes.cells.length, st.visited n = false ∧ (st.take e r d).visited n = true := by
    by_cases hfrom : st.visited d.fromNode = true
    · refine ⟨d.toNode, Slab.lt_length_of_get hy, ?_, (take_visited _).2 (.inr (.inr rfl))⟩
      have hne := hcross.2
      rw [hfrom] at hne
      simpa using hne.symm
    · exact ⟨d.fromNode, Slab.lt_length_of_get hx, by simpa using hfrom, (take_visited _).2 (.inr (.inl rfl))⟩
  obtain ⟨n, hn, hbefore, hafter⟩ := hnew
  have hcard : ((Finset.range g.nodes.cells.length).filter fun n => (st.take e r d).visited n = false).card <
      ((Finset.range g.nodes.cells.length).filter fun n => st.visited n = false).card := by
    refine Finset.card_lt_card ((Finset.ssubset_iff_of_subset fun m hm => ?_).2 ⟨n, ?_, ?_⟩)
    · obtain ⟨hrange, hm⟩ := Finset.mem_filter.1 hm
      refine Finset.mem_filter.2 ⟨hrange, ?_⟩
      by_contra hvisited
      rw [(take_visited m).2 (.inl (by simpa using hvisited))] at hm
      cases hm
    · exact Finset.mem_filter.2 ⟨Finset.mem_range.2 hn, hbefore⟩
    · simp [hafter]
  have hmul := Nat.mul_le_mul_right (g.order.length + 1) (Nat.succ_le_of_lt hcard)
  rw [Nat.succ_mul] at hmul
  simp only [Kruskal.left]
  omega

/-- A property that looking at an edge keeps holds where the walk ends, and it does end. -/
theorem kruskal_induct (h : g.Inv) {P : Kruskal → Prop}
    (hskip : ∀ st e d, g.order[st.i]? = some e → g.edges.get e = some d → ¬ st.Crossing d → P st → P st.skip)
    (htake : ∀ st e r d, g.order[st.i]? = some e → g.edges.get e = some d → st.Crossing d → d.reverse = some r →
      P st → P (st.take e r d))
    {fuel : ℕ} {st : Kruskal} (hst : P st) (hfuel : st.left g ≤ fuel) :
    ∃ st', kruskal g g.order fuel st = some (.ok st') ∧ P st' ∧ g.order[st'.i]? = none := by
  induction fuel generalizing st with
  | zero =>
    cases hi : g.order[st.i]? with
    | none => exact ⟨st, kruskal_none hi, hst, hi⟩
    | some e =>
      have hlt := (List.getElem?_eq_some_iff.1 hi).1
      have := left_skip hlt
      omega
  | succ fuel ih =>
    cases hi : g.order[st.i]? with
    | none => exact ⟨st, kruskal_none hi, hst, hi⟩
    | some e =>
      have hlt := (List.getElem?_eq_some_iff.1 hi).1
      obtain ⟨d, hd⟩ := order_get h hi
      rw [kruskal_succ hi]
      rcases @look_cases g st h e d hd with ⟨hcross, hlook⟩ | ⟨r, hcross, hrev, hlook⟩ <;> rw [hlook]
      · have hless := left_skip hlt
        exact ih (hskip st e d hi hd hcross hst) (by omega)
      · have hless := @left_take g st h e r d hd hcross
        exact ih (htake st e r d hi hd hcross hrev hst) (by omega)

end Walk

/-- Of an edge and its twin the one with the smaller key: it stands for the link. -/
def Leads (g : Graph) (e : EdgeId) : Prop := ∃ d r, g.edges.get e = some d ∧ d.reverse = some r ∧ g.key e < g.key r

open Classical in
noncomputable def links (g : Graph) (start : NodeId) : Finset EdgeId :=
  (Finset.range g.edges.cells.length).filter fun e => g.Leads e ∧ g.Reach start (g.ends e).1

def halves (g : Graph) (taken : List EdgeId) : List EdgeId :=
  taken.flatMap fun e => e :: ((g.edges.get e).bind (·.reverse)).toList

open SpanningTree

section Minimum

variable {g : Graph} {start : NodeId}

variable {e r : EdgeId} {d : Edge} {taken : List EdgeId}

theorem mem_links : e ∈ g.links start ↔ g.Leads e ∧ g.Reach start (g.ends e).1 := by
  classical
  rw [links, Finset.mem_filter, Finset.mem_range]
  refine and_iff_right_of_imp fun h => ?_
  obtain ⟨d, -, hd, -⟩ := h.1
  exact Slab.lt_length_of_get hd

/-- The twin goes the other way and leads back. -/
theorem twin_of_reverse (h : g.Inv) (hd : g.edges.get e = some d) (hrev : d.reverse = some r) :
    ∃ b, g.edges.get r = some b ∧ b.fromNode = d.toNode ∧ b.toNode = d.fromNode ∧ b.reverse = some e := by
  obtain ⟨b, hb, hfrom, hto⟩ := (h.reverse hd r).1 hrev
  exact ⟨b, hb, hfrom, hto, (h.reverse hb e).2 ⟨d, hd, hto.symm, hfrom.symm⟩⟩

theorem link_symm (h : g.Inv) {a b : NodeId} (hab : g.Link a b) : g.Link b a := by
  obtain ⟨e, d, hd, rfl, rfl, hrev⟩ := hab
  obtain ⟨r, hr⟩ := Option.ne_none_iff_exists'.1 hrev
  obtain ⟨c, hc, hfrom, hto, hback⟩ := twin_of_reverse h hd hr
  exact ⟨r, c, hc, hfrom, hto, by simp [hback]⟩

theorem reach_of_conn (h : g.Inv) {T : Finset EdgeId} (hT : T ⊆ g.links start) {a b : NodeId}
    (hab : Conn g.ends T a b) : g.Reach a b := by
  induction hab with
  | refl => exact .refl
  | tail _ hjoin ih =>
    obtain ⟨e, he, hends⟩ := hjoin
    obtain ⟨⟨d, r, hd, hrev, -⟩, -⟩ := mem_links.1 (hT he)
    have hlink : g.Link d.fromNode d.toNode := ⟨e, d, hd, rfl, rfl, by simp [hrev]⟩
    rw [ends_of_get hd] at hends
    rcases hends with hends | hends <;> obtain ⟨rfl, rfl⟩ := Prod.mk.inj hends
    · exact ih.tail hlink
    · exact ih.tail (link_symm h hlink)

/-- The walk so far: what was taken is the tree grown along the visited nodes, and no edge behind crosses. -/
structure Walked (g : Graph) (start : NodeId) (st : Kruskal) (taken : List EdgeId) : Prop where
  edges : st.mstEdges = g.halves taken
  nodup : taken.Nodup
  grown : Grown g.ends g.key (g.links start) start (fun n => st.visited n = true) taken.toFinset
  behind : ∀ k < st.i, ∀ e d, g.order[k]? = some e → g.edges.get e = some d → ¬ st.Crossing d
  fresh : st.skipped = false → ∀ k < st.i, ∀ e d, g.order[k]? = some e → g.edges.get e = some d →
    st.visited d.fromNode = true ∧ st.visited d.toNode = true

theorem crosses_iff {st : Kruskal} (hd : g.edges.get e = some d) :
    Crosses g.ends (fun n => st.visited n = true) e ↔ st.visited d.fromNode ≠ st.visited d.toNode := by
  rw [Crosses, ends_of_get hd]
  dsimp only
  cases st.visited d.fromNode <;> cases st.visited d.toNode <;> decide

theorem Walked.skip {st : Kruskal} (hw : Walked g start st taken) (hi : g.order[st.i]? = some e)
    (hd : g.edges.get e = some d) (hcross : ¬ st.Crossing d) :
    Walked g start st.skip taken where
  edges := hw.edges
  nodup := hw.nodup
  grown := hw.grown
  behind k hk e' d' he' hd' := by
    rcases Nat.lt_succ_iff_lt_or_eq.1 hk with hk | rfl
    · exact hw.behind k hk e' d' he' hd'
    · obtain rfl := Option.some.inj (hi.symm.trans he')
      obtain rfl := Option.some.inj (hd.symm.trans hd')
      exact hcross
  fresh hskip := by cases hskip

/-- The walk takes the smallest link that crosses, by its leading half. -/
theorem Walked.smallest (h : g.Inv) {st : Kruskal} (hw : Walked g start st taken) (hi : g.order[st.i]? = some e)
    (hd : g.edges.get e = some d) (hcross : st.Crossing d) (hrev : d.reverse = some r) : e ∈ g.links start ∧
      ∀ f ∈ g.links start, Crosses g.ends (fun n => st.visited n = true) f → f ≠ e → g.key e < g.key f := by
  obtain ⟨b, hb, hbfrom, hbto, hbrev⟩ := twin_of_reverse h hd hrev
  -- nothing that crosses has a smaller key: it would be behind
  have hsmall : ∀ f c, g.edges.get f = some c → st.Crossing c → f ≠ e → g.key e < g.key f := by
    intro f c hc hfcross hne
    by_contra hle
    have hflive : (g.edges.get f).isSome := by rw [hc]; rfl
    have hlt : g.key f < g.key e := lt_of_le_of_ne (not_lt.1 hle) fun heq =>
      hne (key_inj h hflive (by rw [hd]; rfl) heq)
    obtain ⟨k, hk, hf⟩ := lt_of_key_lt h hi hflive hlt
    exact hw.behind k hk f c hf hc hfcross
  have hrne : r ≠ e := by
    rintro rfl
    obtain rfl := Option.some.inj (hb.symm.trans hd)
    exact (h.ends hd).2.2 hbfrom
  have hreach : g.Reach start d.fromNode := by
    have hvisited : ∀ n, st.visited n = true → g.Reach start n := fun n hn =>
      reach_of_conn h hw.grown.subset (hw.grown.conn n hn)
    by_cases hfrom : st.visited d.fromNode = true
    · exact hvisited _ hfrom
    · have hto : st.visited d.toNode = true := by
        have hne := hcross.2
        simp only [hfrom] at hne
        simpa using hne.symm
      exact (hvisited _ hto).tail (link_symm h ⟨e, d, hd, rfl, rfl, by simp [hrev]⟩)
  refine ⟨mem_links.2 ⟨⟨d, r, hd, hrev, hsmall r b hb ⟨by simp [hbrev], ?_⟩ hrne⟩, by rwa [ends_of_get hd]⟩, ?_⟩
  · rw [hbfrom, hbto]
    exact hcross.2.symm
  · intro f hf hfcross hne
    obtain ⟨⟨c, rc, hc, hcrev, -⟩, -⟩ := mem_links.1 hf
    exact hsmall f c hc ⟨by simp [hcrev], (crosses_iff hc).1 hfcross⟩ hne

theorem Walked.take (h : g.Inv) {st : Kruskal} (hw : Walked g start st taken) (hi : g.order[st.i]? = some e)
    (hd : g.edges.get e = some d) (hcross : st.Crossing d) (hrev : d.reverse = some r) :
    Walked g start (st.take e r d) (taken ++ [e]) := by
  obtain ⟨hlink, hmin⟩ := hw.smallest h hi hd hcross hrev
  have hcrosses := (crosses_iff hd).2 hcross.2
  have hgrown := hw.grown.grow hlink hcrosses hmin
  have hnot : e ∉ taken := by
    intro he
    obtain ⟨h1, h2⟩ := hw.grown.inside e (List.mem_toFinset.2 he)
    exact hcrosses.elim (fun hc => hc.2 h2) fun hc => hc.2 h1
  -- before the first skip everything behind was taken, so it lies inside for good
  have hinside : (st.take e r d).skipped = false → ∀ k < (st.take e r d).i, ∀ e' d', g.order[k]? = some e' →
      g.edges.get e' = some d' → (st.take e r d).visited d'.fromNode = true ∧ (st.take e r d).visited d'.toNode = true := by
    intro _ k hk e' d' he' hd'
    simp only [take_visited]
    simp only [Kruskal.take] at hk
    split_ifs at hk with hskip
    · omega
    · rcases Nat.lt_succ_iff_lt_or_eq.1 hk with hk | rfl
      · obtain ⟨hfrom, hto⟩ := hw.fresh (by simpa using hskip) k hk e' d' he' hd'
        exact ⟨.inl hfrom, .inl hto⟩
      · obtain rfl := Option.some.inj (hi.symm.trans he')
        obtain rfl := Option.some.inj (hd.symm.trans hd')
        exact ⟨.inr (.inl rfl), .inr (.inr rfl)⟩
  refine ⟨?_, ?_, ?_, fun k hk e' d' he' hd' hc => ?_, hinside⟩
  · simp [Kruskal.take, hw.edges, halves, hd, hrev]
  · exact List.nodup_append.2 ⟨hw.nodup, List.nodup_singleton e, by
      rintro a ha b hb rfl
      exact hnot (List.mem_singleton.1 hb ▸ ha)⟩
  · rw [ends_of_get hd] at hgrown
    have hset : (fun n => (st.take e r d).visited n = true) =
        fun n => st.visited n = true ∨ n = d.fromNode ∨ n = d.toNode := funext fun n => propext (take_visited n)
    rw [hset, List.toFinset_append, List.toFinset_cons, List.toFinset_nil, insert_empty_eq, Finset.union_comm]
    exact hgrown
  · obtain ⟨hfrom, hto⟩ := hinside rfl k hk e' d' he' hd'
    exact hc.2 (hfrom.trans hto.symm)

theorem walked_start (g : Graph) (start : NodeId) : Walked g start ⟨0, false, fun n => some n == some start, []⟩ [] where
  edges := rfl
  nodup := List.nodup_nil
  grown := by simpa using grown_start g.ends g.key (g.links start) start
  behind k hk := (Nat.not_lt_zero k hk).elim
  fresh _ k hk := (Nat.not_lt_zero k hk).elim

/-- At the end of the order the visited nodes are those the start is joined to. -/
theorem Walked.all (h : g.Inv) {st : Kruskal} (hw : Walked g start st taken) (hi : g.order[st.i]? = none)
    {n : NodeId} (hn : g.Reach start n) : st.visited n = true := by
  induction hn with
  | refl => exact hw.grown.root
  | tail _ hlink ih =>
    obtain ⟨e, d, hd, rfl, rfl, hrev⟩ := hlink
    obtain ⟨k, hk⟩ := List.getElem?_of_mem ((mem_order h).2 (show (g.edges.get e).isSome by rw [hd]; rfl))
    have hlt : k < st.i := lt_of_lt_of_le (List.getElem?_eq_some_iff.1 hk).1 (List.getElem?_eq_none_iff.1 hi)
    have hnot := hw.behind k hlt e d hk hd
    rw [← ih]
    by_contra hne
    exact hnot ⟨hrev, fun heq => hne heq.symm⟩

theorem left_start (start : Option NodeId) :
    Kruskal.left g ⟨0, false, fun n => some n == start, []⟩ ≤ g.mstRounds := by
  have hcard := Finset.card_filter_le (Finset.range g.nodes.cells.length)
    fun n => (⟨0, false, fun n => some n == start, []⟩ : Kruskal).visited n = false
  rw [Finset.card_range] at hcard
  have hmul := Nat.mul_le_mul_right (g.order.length + 1) hcard
  rw [Kruskal.left, mstRounds, Nat.succ_mul]
  exact Nat.add_le_add hmul (by simp)

theorem mst_eq {start : Option NodeId} {st : Kruskal} (hstart : mstStart g g.order = .ok start)
    (hrun : kruskal g g.order g.mstRounds ⟨0, false, fun n => some n == start, []⟩ = some (.ok st)) :
    g.mst = some (.ok st.mstEdges) := by
  rw [mst, hstart]
  dsimp only
  rw [hrun]
  rfl

theorem mst_returns (h : g.Inv) : ∃ es, g.mst = some (.ok es) := by
  obtain ⟨start, hstart, -⟩ := mstStart_order h
  obtain ⟨st, hrun, -⟩ := @kruskal_induct g h (fun _ => True) (fun _ _ _ _ _ _ _ => trivial)
    (fun _ _ _ _ _ _ _ _ _ => trivial) _ ⟨0, false, fun n => some n == start, []⟩ trivial (@left_start g start)
  exact ⟨_, mst_eq hstart hrun⟩

/-- `mst` returns both halves of the minimum spanning tree of what its start is joined to. -/
theorem mst_minimum (h : g.Inv) : ∃ taken : List EdgeId, g.mst = some (.ok (g.halves taken)) ∧ taken.Nodup ∧
    ((∀ n, ¬ g.IsStart n) → taken = []) ∧
    ∀ start, g.IsStart start → IsTree g.ends (g.links start) taken.toFinset ∧
      (∀ n, Conn g.ends taken.toFinset start n ↔ g.Reach start n) ∧
      ∀ T, IsTree g.ends (g.links start) T → T = taken.toFinset ∨ Cheaper g.key (g.links start) taken.toFinset T := by
  obtain ⟨start, hstart, hspec⟩ := mstStart_order h
  have hfuel := @left_start g start
  cases start with
  | none =>
    -- nothing is visited, so nothing ever crosses
    obtain ⟨st, hrun, ⟨-, hedges⟩, -⟩ := @kruskal_induct g h
      (fun st => (∀ n, st.visited n = false) ∧ st.mstEdges = []) (fun st e d _ _ _ hst => hst)
      (fun st e r d _ _ hcross _ hst => (hcross.2 (by rw [hst.1, hst.1])).elim) _
      ⟨0, false, fun n => some n == none, []⟩ ⟨fun n => by simp, rfl⟩ hfuel
    refine ⟨[], ?_, List.nodup_nil, fun _ => rfl, fun n hn => ?_⟩
    · rw [mst_eq hstart hrun, hedges]
      rfl
    · cases (hspec n).2 hn
  | some s =>
    obtain ⟨st, hrun, ⟨taken, hw⟩, hi⟩ := @kruskal_induct g h (fun st => ∃ taken, Walked g s st taken)
      (fun st e d hi hd hcross ⟨taken, hw⟩ => ⟨taken, hw.skip hi hd hcross⟩)
      (fun st e r d hi hd hcross hrev ⟨taken, hw⟩ => ⟨_, hw.take h hi hd hcross hrev⟩) _
      _ ⟨[], walked_start g s⟩ hfuel
    refine ⟨taken, ?_, hw.nodup, fun hno => (hno s ((hspec s).1 rfl)).elim, fun n hn => ?_⟩
    · rw [mst_eq hstart hrun, hw.edges]
    · obtain rfl := Option.some.inj ((hspec n).2 hn)
      have hall : ∀ e ∈ g.links s, st.visited (g.ends e).1 = true ∧ st.visited (g.ends e).2 = true := by
        intro e he
        obtain ⟨⟨d, r, hd, hrev, -⟩, hreach⟩ := mem_links.1 he
        refine ⟨hw.all h hi hreach, hw.all h hi (hreach.tail ?_)⟩
        rw [ends_of_get hd]
        exact ⟨e, d, hd, rfl, rfl, by simp [hrev]⟩
      obtain ⟨htree, hmin⟩ := hw.grown.minimum hall
      exact ⟨htree, fun n => ⟨reach_of_conn h hw.grown.subset, fun hn => hw.grown.conn n (hw.all h hi hn)⟩, hmin⟩

/-- Four nodes with a light link that is skipped at first, since it touches nothing visited. -/
def rewound : List Op :=
  [.addNode "a", .addNode "b", .addNode "c", .addNode "d", .addEdge 2 3 2 0, .addEdge 3 2 9 0, .addEdge 0 1 1 0,
    .addEdge 1 0 1 0, .addEdge 1 2 5 0, .addEdge 2 1 5 0, .addEdge 0 3 7 0, .addEdge 3 0 7 0]

theorem mst_minimum_rewound : ∃ g, applyAll rewound new = .ok g ∧ g.Inv ∧ g.IsStart 0 ∧
    ∃ taken : List EdgeId, g.mst = some (.ok (g.halves taken)) ∧ IsTree g.ends (g.links 0) taken.toFinset ∧
      (∀ n, Conn g.ends taken.toFinset 0 n ↔ g.Reach 0 n) ∧
      ∀ T, IsTree g.ends (g.links 0) T → T = taken.toFinset ∨ Cheaper g.key (g.links 0) taken.toFinset T := by
  obtain ⟨g, hrun, hinv, hp⟩ := applyAll_any (show Disciplined rewound new by decide)
    (p := fun g => match mstStart g g.order with
      | .ok start => start == some 0
      | .error _ => false)
    (by decide)
  obtain ⟨start, hstart, hspec⟩ := mstStart_order hinv
  rw [hstart] at hp
  have h0 : g.IsStart 0 := (hspec 0).1 (by simpa using hp)
  obtain ⟨taken, hmst, -, -, hmin⟩ := mst_minimum hinv
  exact ⟨g, hrun, hinv, h0, taken, hmst, hmin 0 h0⟩

/-- The walk takes the lightest link, then the heavier one that reaches the light link, then that. -/
example : (applyAll rewound new).toOption.any (fun g => match g.mst with
    | some (.ok es) => es == [2, 3, 4, 5, 0, 1]
    | _ => false) = true := by decide

end Minimum

end Tincr.Graph
