import Tincr.Graph.Inv
import Tincr.Lib.Sorted

/-!
What becomes of the indexes when an edge comes or goes. Linking and unlinking a twin touches one field of
one edge that no index sees, so the indexes are settled first and the twins on their own.
-/

namespace Tincr

def Edge.core (d : Edge) : Edge := { d with reverse := none }

namespace Graph

instance : Std.LawfulEqOrd WeightKey := ⟨fun h => compare_eq_iff_eq.1 h⟩

theorem weightKey_inj {w w' : ℤ} {a a' b b' : String} (h : weightKey w a b = weightKey w' a' b') :
    w = w' ∧ a = a' ∧ b = b' := by
  simpa [weightKey] using h

/-- The two slabs differ in twins at most. -/
def SameCore (s s' : Slab Edge) : Prop := ∀ e, (s'.get e).map Edge.core = (s.get e).map Edge.core

namespace SameCore

variable {s s' : Slab Edge}

theorem symm (h : SameCore s s') : SameCore s' s := fun e => (h e).symm

theorem get (h : SameCore s s') {e : EdgeId} {d : Edge} (hd : s.get e = some d) :
    ∃ r, s'.get e = some { d with reverse := r } := by
  have he := h e
  rw [hd] at he
  obtain ⟨d', hd', hcore⟩ := Option.map_eq_some_iff.1 he
  refine ⟨d'.reverse, hd'.trans ?_⟩
  simp only [Edge.core, Edge.mk.injEq] at hcore
  obtain ⟨hf, ht, hw, ho, -, hn⟩ := hcore
  rw [← hf, ← ht, ← hw, ← ho, ← hn]

theorem modify (s : Slab Edge) (r : EdgeId) (t : Option EdgeId) :
    SameCore s (s.modify r fun d => { d with reverse := t }) := by
  intro e
  rw [Slab.get_modify]
  split_ifs
  · cases s.get e <;> rfl
  · rfl

/-- The indexes do not see the twins. -/
theorem indexed (hs : SameCore s s') {nodes : Slab Node} {w : Std.TreeMap WeightKey EdgeId}
    (h : Indexed ⟨nodes, s, w⟩) : Indexed ⟨nodes, s', w⟩ where
  name_inj := h.name_inj
  mem_edges hx e := by
    refine (h.mem_edges hx e).trans ⟨fun ⟨d, hd, hfrom⟩ => ?_, fun ⟨d, hd, hfrom⟩ => ?_⟩
    · obtain ⟨r, hr⟩ := hs.get hd
      exact ⟨_, hr, hfrom⟩
    · obtain ⟨r, hr⟩ := hs.symm.get hd
      exact ⟨_, hr, hfrom⟩
  sorted hx := (h.sorted hx).imp fun hab da db ha hb => by
    obtain ⟨_, hra⟩ := hs.symm.get ha
    obtain ⟨_, hrb⟩ := hs.symm.get hb
    have hlt := hab _ _ hra hrb
    exact hlt
  ends hd := by
    obtain ⟨_, hr⟩ := hs.symm.get hd
    have hends := h.ends hr
    exact hends
  weight k e := by
    refine (h.weight k e).trans ⟨fun ⟨d, x, hd, hx⟩ => ?_, fun ⟨d, x, hd, hx⟩ => ?_⟩
    · obtain ⟨r, hr⟩ := hs.get hd
      exact ⟨_, x, hr, hx⟩
    · obtain ⟨r, hr⟩ := hs.symm.get hd
      exact ⟨_, x, hr, hx⟩

end SameCore

def farName (s : Slab Edge) (e : EdgeId) : String := ((s.get e).map (·.toName)).getD ""

variable {e : EdgeId} {d : Edge}

theorem farName_of_get {s : Slab Edge} (h : s.get e = some d) : farName s e = d.toName := by
  rw [farName, h]
  rfl

/-- A search in the edges that were read is a search in the list of their ids. -/
theorem pairs_search {s : Slab Edge} {ids : List EdgeId} (h : ∀ e ∈ ids, (s.get e).isSome) (p : String → Bool) :
    ((pairs s ids).takeWhile fun q => p q.2.toName).length = (ids.takeWhile fun e => p (farName s e)).length ∧
      (pairs s ids).findIdx? (fun q => p q.2.toName) = ids.findIdx? fun e => p (farName s e) := by
  induction ids with
  | nil => exact ⟨rfl, rfl⟩
  | cons e ids ih =>
    obtain ⟨d, hd⟩ := Option.isSome_iff_exists.1 (h e List.mem_cons_self)
    obtain ⟨htake, hfind⟩ := ih fun e he => h e (List.mem_cons_of_mem _ he)
    have hcons : pairs s (e :: ids) = (e, d) :: pairs s ids := by simp [pairs, hd]
    rw [hcons, List.takeWhile_cons, List.takeWhile_cons, List.findIdx?_cons, List.findIdx?_cons, farName_of_get hd, hfind]
    cases p d.toName
    · exact ⟨rfl, rfl⟩
    · simp [htake]

theorem get_modify_name {s : Slab Node} {i n : NodeId} {f : Node → Node} {z : Node} (hf : ∀ x, (f x).name = x.name)
    (hz : (s.modify i f).get n = some z) : ∃ x, s.get n = some x ∧ z.name = x.name := by
  rw [Slab.get_modify] at hz
  split_ifs at hz
  · obtain ⟨x, hx, rfl⟩ := Option.map_eq_some_iff.1 hz
    exact ⟨x, hx, hf x⟩
  · exact ⟨z, hz, rfl⟩

theorem keyed_modify_name {s : Slab Node} {i : NodeId} {f : Node → Node} (hf : ∀ x, (f x).name = x.name)
    {o : Option Edge} {k : WeightKey} :
    (∃ d x, o = some d ∧ (s.modify i f).get d.fromNode = some x ∧ weightKey d.weight x.name d.toName = k) ↔
      ∃ d x, o = some d ∧ s.get d.fromNode = some x ∧ weightKey d.weight x.name d.toName = k := by
  refine exists_congr fun d => ?_
  rw [Slab.get_modify]
  split_ifs
  · simp [Option.map_eq_some_iff, hf]
  · rfl

namespace Indexed

variable {g : Graph}

variable {x : Node} {n : NodeId} {d : Edge}

theorem nodup (h : g.Indexed) (hx : g.nodes.get n = some x) : x.edges.Nodup := by
  refine (h.sorted hx).imp_of_mem fun {a b} ha _ hab hne => ?_
  subst hne
  obtain ⟨d, hd, -⟩ := (h.mem_edges hx a).1 ha
  exact lt_irrefl _ (hab d d hd hd)

theorem sorted_farName (h : g.Indexed) (hx : g.nodes.get n = some x) :
    x.edges.Pairwise fun a b => farName g.edges a < farName g.edges b := by
  refine (h.sorted hx).imp_of_mem fun {a b} ha hb hab => ?_
  obtain ⟨da, hda, -⟩ := (h.mem_edges hx a).1 ha
  obtain ⟨db, hdb, -⟩ := (h.mem_edges hx b).1 hb
  rw [farName_of_get hda, farName_of_get hdb]
  exact hab da db hda hdb

/-- The edges of a node are live, and one that was handed out later is not among them. -/
theorem ne_next (h : g.Indexed) (hx : g.nodes.get n = some x) {e : EdgeId} (he : e ∈ x.edges) :
    g.edges.next ≠ e := by
  rintro rfl
  have hsome := h.isSome_of_mem hx _ he
  rw [g.edges.get_next] at hsome
  cases hsome

/-- A new edge takes its place in the list of its near end and in the weight order. -/
theorem insert (h : g.Indexed) {y : Node} {f : Node → Node} (hx : g.nodes.get d.fromNode = some x)
    (hy : g.nodes.get d.toNode = some y) (hname : y.name = d.toName) (hne : d.fromNode ≠ d.toNode)
    (hnew : ∀ e d', g.edges.get e = some d' → d'.fromNode = d.fromNode → d'.toNode ≠ d.toNode)
    (hf : ∀ z, (f z).name = z.name) (hmem : ∀ e, e ∈ (f x).edges ↔ e = g.edges.next ∨ e ∈ x.edges)
    (hsorted : (f x).edges.Pairwise fun a b => farName (g.edges.insert d) a < farName (g.edges.insert d) b) :
    Indexed ⟨g.nodes.modify d.fromNode f, g.edges.insert d,
      g.weightOrder.insert (weightKey d.weight x.name d.toName) g.edges.next⟩ where
  name_inj hm hn hmn := by
    obtain ⟨x₁, hx₁, hz₁⟩ := get_modify_name hf hm
    obtain ⟨x₂, hx₂, hz₂⟩ := get_modify_name hf hn
    exact h.name_inj hx₁ hx₂ (by rw [← hz₁, ← hz₂, hmn])
  mem_edges {n z} hz e := by
    rw [Slab.get_modify] at hz
    rw [Slab.get_insert]
    by_cases hn : d.fromNode = n
    · subst hn
      rw [if_pos rfl, hx] at hz
      obtain rfl := Option.some.inj hz
      rw [hmem, h.mem_edges hx]
      by_cases he : g.edges.next = e
      · simp [he]
      · simp [he, Ne.symm he]
    · rw [if_neg hn] at hz
      rw [h.mem_edges hz]
      by_cases he : g.edges.next = e
      · subst he
        simp [g.edges.get_next, hn]
      · simp [he]
  sorted {n z} hz := by
    rw [Slab.get_modify] at hz
    by_cases hn : d.fromNode = n
    · subst hn
      rw [if_pos rfl, hx] at hz
      obtain rfl := Option.some.inj hz
      refine hsorted.imp fun hab da db ha hb => ?_
      rwa [farName_of_get ha, farName_of_get hb] at hab
    · rw [if_neg hn] at hz
      refine (h.sorted hz).imp_of_mem fun ha hb hab da db hda hdb => ?_
      rw [Slab.get_insert, if_neg (h.ne_next hz ha)] at hda
      rw [Slab.get_insert, if_neg (h.ne_next hz hb)] at hdb
      exact hab da db hda hdb
  ends {e c} hc := by
    have hends : (g.nodes.get c.fromNode).isSome ∧
        (∃ y, g.nodes.get c.toNode = some y ∧ y.name = c.toName) ∧ c.fromNode ≠ c.toNode := by
      rw [Slab.get_insert] at hc
      split_ifs at hc
      · obtain rfl := Option.some.inj hc
        exact ⟨by rw [hx]; rfl, ⟨y, hy, hname⟩, hne⟩
      · exact h.ends hc
    obtain ⟨hfrom, ⟨y', hy', hname'⟩, hne'⟩ := hends
    refine ⟨?_, ?_, hne'⟩
    · rw [Slab.get_modify]
      split_ifs
      · simpa using hfrom
      · exact hfrom
    · rw [Slab.get_modify, hy']
      split_ifs
      · exact ⟨_, rfl, (hf y').trans hname'⟩
      · exact ⟨y', rfl, hname'⟩
  weight k e := by
    have hold := h.weight k e
    rw [keyed_modify_name hf]
    simp only [Slab.get_insert, Std.TreeMap.getElem?_insert, compare_eq_iff_eq]
    by_cases he : g.edges.next = e
    · subst he
      rw [g.edges.get_next] at hold
      by_cases hk : weightKey d.weight x.name d.toName = k
      · simp [hk, hx]
      · simp only [hk, if_false, if_true, hold]
        simp [hx, hk]
    · rw [if_neg he, ← hold]
      split_ifs with hk
      · subst hk
        simp only [Option.some.injEq, he, false_iff]
        rintro hlive
        obtain ⟨d', x', hd', hx', hkey⟩ := hold.1 hlive
        obtain ⟨-, hfrom, hto⟩ := weightKey_inj hkey
        obtain ⟨y', hy', hname'⟩ := (h.ends hd').2.1
        exact hnew e d' hd' (h.name_inj hx' hx hfrom) (h.name_inj hy' hy (by rw [hname', hname, hto]))
      · rfl

/-- The partition point of the far end's name is the place of a new edge. -/
theorem insert_place (h : g.Indexed) {y : Node} (hx : g.nodes.get d.fromNode = some x)
    (hy : g.nodes.get d.toNode = some y) (hname : y.name = d.toName) (hne : d.fromNode ≠ d.toNode)
    (hnew : ∀ e d', g.edges.get e = some d' → d'.fromNode = d.fromNode → d'.toNode ≠ d.toNode) :
    Indexed ⟨g.nodes.modify d.fromNode fun n => { n with
        edges := n.edges.insertIdx (x.edges.takeWhile fun e => decide (farName g.edges e < d.toName)).length g.edges.next },
      g.edges.insert d, g.weightOrder.insert (weightKey d.weight x.name d.toName) g.edges.next⟩ := by
  have hown : farName (g.edges.insert d) g.edges.next = d.toName := farName_of_get (by simp)
  have hold : ∀ e ∈ x.edges, farName (g.edges.insert d) e = farName g.edges e := by
    intro e he
    rw [farName, farName, Slab.get_insert, if_neg (h.ne_next hx he)]
  -- the far name is the name of one node only, and no edge goes there yet
  have hfar : ∀ e ∈ x.edges, farName (g.edges.insert d) e ≠ farName (g.edges.insert d) g.edges.next := by
    intro e he hfar
    obtain ⟨d', hd', hfrom⟩ := (h.mem_edges hx e).1 he
    obtain ⟨y', hy', hname'⟩ := (h.ends hd').2.1
    rw [hold e he, hown, farName_of_get hd', ← hname'] at hfar
    exact hnew e d' hd' hfrom (h.name_inj hy' hy (hfar.trans hname.symm))
  have hsorted : x.edges.Pairwise fun a b => farName (g.edges.insert d) a < farName (g.edges.insert d) b :=
    (h.sorted_farName hx).imp_of_mem fun ha hb hab => by rwa [hold _ ha, hold _ hb]
  have htake : x.edges.takeWhile (fun e => decide (farName g.edges e < d.toName)) =
      x.edges.takeWhile fun e => decide (farName (g.edges.insert d) e < farName (g.edges.insert d) g.edges.next) :=
    List.takeWhile_congr fun e he => by rw [hold e he, hown]
  refine h.insert hx hy hname hne hnew (fun _ => rfl) (fun e => ?_) ?_
  · exact List.mem_insertIdx_takeWhile
  · simp only [htake]
    exact List.pairwise_insertIdx_takeWhile hsorted hfar

theorem remove (h : g.Indexed) {e : EdgeId} {f : Node → Node} (hd : g.edges.get e = some d)
    (hx : g.nodes.get d.fromNode = some x) (hf : ∀ z, (f z).name = z.name) (hes : (f x).edges = x.edges.erase e) :
    Indexed ⟨g.nodes.modify d.fromNode f, g.edges.erase e,
      g.weightOrder.erase (weightKey d.weight x.name d.toName)⟩ where
  name_inj hm hn hmn := by
    obtain ⟨x₁, hx₁, hz₁⟩ := get_modify_name hf hm
    obtain ⟨x₂, hx₂, hz₂⟩ := get_modify_name hf hn
    exact h.name_inj hx₁ hx₂ (by rw [← hz₁, ← hz₂, hmn])
  mem_edges {n z} hz a := by
    rw [Slab.get_modify] at hz
    rw [Slab.get_erase]
    by_cases hn : d.fromNode = n
    · subst hn
      rw [if_pos rfl, hx] at hz
      obtain rfl := Option.some.inj hz
      rw [hes, (h.nodup hx).mem_erase_iff, h.mem_edges hx]
      by_cases ha : e = a
      · simp [ha]
      · simp [ha, Ne.symm ha]
    · rw [if_neg hn] at hz
      rw [h.mem_edges hz]
      by_cases ha : e = a
      · subst ha
        simp [hd, hn]
      · simp [ha]
  sorted {n z} hz := by
    have hsub : ∃ x, g.nodes.get n = some x ∧ z.edges.Sublist x.edges := by
      rw [Slab.get_modify] at hz
      by_cases hn : d.fromNode = n
      · subst hn
        rw [if_pos rfl, hx] at hz
        obtain rfl := Option.some.inj hz
        exact ⟨x, hx, hes ▸ List.erase_sublist⟩
      · rw [if_neg hn] at hz
        exact ⟨z, hz, .refl _⟩
    obtain ⟨x', hx', hsub⟩ := hsub
    refine ((h.sorted hx').sublist hsub).imp fun hab da db ha hb => ?_
    rw [Slab.get_erase] at ha hb
    split_ifs at ha hb
    exact hab da db ha hb
  ends {a c} hc := by
    rw [Slab.get_erase] at hc
    split_ifs at hc
    obtain ⟨hfrom, ⟨y', hy', hname'⟩, hne'⟩ := h.ends hc
    refine ⟨?_, ?_, hne'⟩
    · rw [Slab.get_modify]
      split_ifs
      · simpa using hfrom
      · exact hfrom
    · rw [Slab.get_modify, hy']
      split_ifs
      · exact ⟨_, rfl, (hf y').trans hname'⟩
      · exact ⟨y', rfl, hname'⟩
  weight k a := by
    have hold := h.weight k a
    rw [keyed_modify_name hf]
    simp only [Slab.get_erase, Std.TreeMap.getElem?_erase, compare_eq_iff_eq]
    by_cases ha : e = a
    · subst ha
      simp only [if_true]
      split_ifs with hk
      · simp
      · simp only [hold]
        simp [hd, hx, hk]
    · rw [if_neg ha, ← hold]
      split_ifs with hk
      · subst hk
        refine ⟨fun hnone => (by cases hnone), fun hlive => ?_⟩
        have hown := (h.weight _ e).2 ⟨d, x, hd, hx, rfl⟩
        exact ha (Option.some.inj (hown.symm.trans hlive))
      · rfl

end Indexed

/-- The twin of an edge is the edge the other way round. -/
def Twinned (s : Slab Edge) : Prop :=
  ∀ {e d}, s.get e = some d → ∀ r, d.reverse = some r ↔
    ∃ b, s.get r = some b ∧ b.fromNode = d.toNode ∧ b.toNode = d.fromNode

def relink (s : Slab Edge) (twin link : Option EdgeId) : Slab Edge :=
  match twin with
  | some r => s.modify r fun d => { d with reverse := link }
  | none => s

theorem sameCore_relink (s : Slab Edge) (twin link : Option EdgeId) : SameCore s (relink s twin link) := by
  cases twin with
  | none => exact fun _ => rfl
  | some r => exact .modify s r link

theorem get_relink {s : Slab Edge} {twin link : Option EdgeId} {c : Edge}
    (hc : (relink s twin link).get e = some c) : ∃ c₀, s.get e = some c₀ ∧
      (twin = some e ∧ c = { c₀ with reverse := link } ∨ twin ≠ some e ∧ c = c₀) := by
  cases twin with
  | none => exact ⟨c, hc, .inr ⟨by simp, rfl⟩⟩
  | some r =>
    rw [relink, Slab.get_modify] at hc
    split_ifs at hc with hre
    · obtain ⟨c₀, hc₀, rfl⟩ := Option.map_eq_some_iff.1 hc
      exact ⟨c₀, hc₀, .inl ⟨by rw [hre], rfl⟩⟩
    · exact ⟨c, hc, .inr ⟨fun h => hre (Option.some.inj h), rfl⟩⟩

@[simp] theorem next_relink (s : Slab Edge) (twin link : Option EdgeId) : (relink s twin link).next = s.next := by
  cases twin with
  | none => rfl
  | some r => simp [relink, Slab.next, Slab.modify]

/-- Whether there is an edge from a node to another does not depend on the links. -/
theorem exists_relink {s : Slab Edge} {twin link : Option EdgeId} {r : EdgeId} {m n : NodeId} :
    (∃ b, (relink s twin link).get r = some b ∧ b.fromNode = m ∧ b.toNode = n) ↔
      ∃ b, s.get r = some b ∧ b.fromNode = m ∧ b.toNode = n := by
  have hsame := sameCore_relink s twin link
  constructor
  · rintro ⟨b, hb, hends⟩
    obtain ⟨_, hr⟩ := hsame.symm.get hb
    exact ⟨_, hr, hends⟩
  · rintro ⟨b, hb, hends⟩
    obtain ⟨_, hr⟩ := hsame.get hb
    exact ⟨_, hr, hends⟩

theorem Twinned.insert {s : Slab Edge} (ht : Twinned s) (hne : d.fromNode ≠ d.toNode)
    (hnew : ∀ e c, s.get e = some c → c.fromNode = d.fromNode → c.toNode ≠ d.toNode)
    (hrev : ∀ r, d.reverse = some r ↔ ∃ b, s.get r = some b ∧ b.fromNode = d.toNode ∧ b.toNode = d.fromNode) :
    Twinned ((relink s d.reverse (some s.next)).insert d) := by
  intro e c hc r
  have hnext := s.get_next
  rw [Slab.get_insert, next_relink] at hc ⊢
  split_ifs at hc with he
  · -- the new edge
    obtain rfl := Option.some.inj hc
    rw [hrev]
    split_ifs with hr
    · subst hr
      simp [hnext, hne]
    · exact exists_relink.symm
  · obtain ⟨c₀, hc₀, ⟨htwin, rfl⟩ | ⟨htwin, rfl⟩⟩ := get_relink hc
    · -- its twin
      obtain ⟨b, hb, hfrom, hto⟩ := (hrev e).1 htwin
      obtain rfl := Option.some.inj (hb.symm.trans hc₀)
      split_ifs with hr
      · simp [hr, hfrom, hto]
      · simp only [Option.some.injEq, hr, false_iff]
        rw [exists_relink, hfrom, hto]
        rintro ⟨a, ha, hafrom, hato⟩
        exact hnew r a ha hafrom hato
    · -- any other
      rw [ht hc₀]
      split_ifs with hr
      · subst hr
        simp only [hnext, reduceCtorEq, false_and, exists_false, Option.some.injEq, false_iff]
        rintro ⟨_, rfl, hfrom, hto⟩
        exact htwin ((hrev e).2 ⟨c, hc₀, hto.symm, hfrom.symm⟩)
      · exact exists_relink.symm

theorem Twinned.erase {s : Slab Edge} (ht : Twinned s) (hd : s.get e = some d)
    (huniq : ∀ a c, s.get a = some c → c.fromNode = d.fromNode → c.toNode = d.toNode → a = e) :
    Twinned ((relink s d.reverse none).erase e) := by
  intro a c hc r
  rw [Slab.get_erase] at hc ⊢
  split_ifs at hc with ha
  obtain ⟨c₀, hc₀, ⟨htwin, rfl⟩ | ⟨htwin, rfl⟩⟩ := get_relink hc
  · obtain ⟨b, hb, hfrom, hto⟩ := (ht hd a).1 htwin
    obtain rfl := Option.some.inj (hb.symm.trans hc₀)
    simp only [reduceCtorEq, false_iff]
    rintro ⟨b, hb, hbfrom, hbto⟩
    split_ifs at hb with hr
    obtain ⟨_, hb₀⟩ := (sameCore_relink s d.reverse none).symm.get hb
    exact hr (huniq r _ hb₀ (hbfrom.trans hto) (hbto.trans hfrom)).symm
  · rw [ht hc₀]
    split_ifs with hr
    · subst hr
      simp only [hd, Option.some.injEq, false_and, exists_false, iff_false]
      rintro ⟨_, rfl, hfrom, hto⟩
      exact htwin ((ht hd a).2 ⟨c, hc₀, hto.symm, hfrom.symm⟩)
    · exact exists_relink.symm

end Graph

end Tincr
