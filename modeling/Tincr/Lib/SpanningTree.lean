import Mathlib

/-!
Minimum spanning trees for a ranking of the links. A cut that grows along its smallest crossing link grows
a tree that every spanning tree can be turned into by exchanging links for smaller ones: so the tree at the
end costs less than every other, whatever the costs, as long as they follow the ranking.
-/

namespace SpanningTree

open Relation

variable {V E : Type} {ends : E → V × V} {T T' : Finset E}

def Joins (ends : E → V × V) (T : Finset E) (x y : V) : Prop := ∃ e ∈ T, ends e = (x, y) ∨ ends e = (y, x)

def Conn (ends : E → V × V) (T : Finset E) : V → V → Prop := ReflTransGen (Joins ends T)

theorem Conn.symm {x y : V} (h : Conn ends T x y) : Conn ends T y x :=
  (@ReflTransGen.stdSymm _ (Joins ends T) ⟨fun _ _ ⟨e, he, hends⟩ => ⟨e, he, hends.symm⟩⟩).symm _ _ h

theorem Conn.mono {x y : V} (h : Conn ends T x y) (hsub : T ⊆ T') : Conn ends T' x y :=
  ReflTransGen.mono (fun _ _ ⟨e, he, hends⟩ => ⟨e, hsub he, hends⟩) _ _ h

theorem conn_of_mem {e : E} (he : e ∈ T) : Conn ends T (ends e).1 (ends e).2 :=
  .single ⟨e, he, .inl rfl⟩

def Crosses (ends : E → V × V) (S : V → Prop) (e : E) : Prop := S (ends e).1 ∧ ¬ S (ends e).2 ∨ S (ends e).2 ∧ ¬ S (ends e).1

theorem exists_crosses {S : V → Prop} {x y : V} (h : Conn ends T x y) (hx : S x) (hy : ¬ S y) :
    ∃ f ∈ T, Crosses ends S f := by
  induction h with
  | refl => exact absurd hx hy
  | @tail y z _ hstep ih =>
    by_cases hSy : S y
    · obtain ⟨e, he, hends | hends⟩ := hstep
      · exact ⟨e, he, .inl (by rw [hends]; exact ⟨hSy, hy⟩)⟩
      · exact ⟨e, he, .inr (by rw [hends]; exact ⟨hSy, hy⟩)⟩
    · exact ih hSy

variable [DecidableEq E]

/-- What is connected with a link is so without it, or over it in one direction. -/
theorem Conn.erase {x y : V} (h : Conn ends T x y) (f : E) : Conn ends (T.erase f) x y ∨
    (Conn ends (T.erase f) x (ends f).1 ∧ Conn ends (T.erase f) (ends f).2 y) ∨
    Conn ends (T.erase f) x (ends f).2 ∧ Conn ends (T.erase f) (ends f).1 y := by
  induction h with
  | refl => exact .inl .refl
  | @tail y z _ hstep ih =>
    obtain ⟨e, he, hends⟩ := hstep
    by_cases hef : e = f
    · subst hef
      rcases hends with hends | hends <;> rw [hends] at ih ⊢ <;> rcases ih with hxy | ⟨hx, hy⟩ | ⟨hx, hy⟩
      · exact .inr (.inl ⟨hxy, .refl⟩)
      · exact .inr (.inl ⟨hx, .refl⟩)
      · exact .inl hx
      · exact .inr (.inr ⟨hxy, .refl⟩)
      · exact .inl hx
      · exact .inr (.inr ⟨hx, .refl⟩)
    · have hjoin : Joins ends (T.erase f) y z := ⟨e, Finset.mem_erase.2 ⟨hef, he⟩, hends⟩
      exact ih.imp (·.tail hjoin) (·.imp (And.imp_right (·.tail hjoin)) (And.imp_right (·.tail hjoin)))

/-- No link is between nodes that the others connect. -/
def Forest (ends : E → V × V) (T : Finset E) : Prop := ∀ f ∈ T, ¬ Conn ends (T.erase f) (ends f).1 (ends f).2

/-- Some crossing link is one that the connection cannot do without. -/
theorem exists_crosses_between {S : V → Prop} {x y : V} (h : Conn ends T x y) (hx : S x) (hy : ¬ S y) :
    ∃ f ∈ T, Crosses ends S f ∧ ((Conn ends (T.erase f) x (ends f).1 ∧ Conn ends (T.erase f) (ends f).2 y) ∨
      Conn ends (T.erase f) x (ends f).2 ∧ Conn ends (T.erase f) (ends f).1 y) := by
  induction T using Finset.strongInduction with
  | _ T ih =>
    obtain ⟨f, hf, hcross⟩ := exists_crosses h hx hy
    rcases h.erase f with hwithout | hover
    · -- the connection does not need this one: look for another among the rest
      obtain ⟨f', hf', hcross', hover'⟩ := ih _ (Finset.erase_ssubset hf) hwithout
      have hsub : (T.erase f).erase f' ⊆ T.erase f' := Finset.erase_subset_erase _ (Finset.erase_subset _ _)
      refine ⟨f', Finset.mem_of_mem_erase hf', hcross', ?_⟩
      exact hover'.imp (And.imp (·.mono hsub) (·.mono hsub)) (And.imp (·.mono hsub) (·.mono hsub))
    · exact ⟨f, hf, hcross, hover⟩

/-- A link that closes a cycle over a cut can take the place of one that crosses the cut. -/
theorem Forest.exchange (hT : Forest ends T) {S : V → Prop} {e : E} (he : e ∉ T) (hcross : Crosses ends S e)
    (hconn : Conn ends T (ends e).1 (ends e).2) :
    ∃ f ∈ T, Crosses ends S f ∧ Forest ends (insert e (T.erase f)) ∧
      ∀ x y, Conn ends T x y → Conn ends (insert e (T.erase f)) x y := by
  -- from inside the cut to outside, over a link `f` that cannot be spared
  have hover : ∃ f ∈ T, Crosses ends S f ∧
      ((Conn ends (T.erase f) (ends e).1 (ends f).1 ∧ Conn ends (T.erase f) (ends f).2 (ends e).2) ∨
        Conn ends (T.erase f) (ends e).1 (ends f).2 ∧ Conn ends (T.erase f) (ends f).1 (ends e).2) := by
    rcases hcross with ⟨hin, hout⟩ | ⟨hin, hout⟩
    · exact exists_crosses_between hconn hin hout
    · obtain ⟨f, hf, hfcross, hover⟩ := exists_crosses_between hconn.symm hin hout
      exact ⟨f, hf, hfcross, hover.symm.imp (fun h => ⟨h.2.symm, h.1.symm⟩) fun h => ⟨h.2.symm, h.1.symm⟩⟩
  obtain ⟨f, hf, hfcross, hover⟩ := hover
  have hbridge : ¬ Conn ends (T.erase f) (ends e).1 (ends e).2 := by
    intro h
    rcases hover with ⟨hx, hy⟩ | ⟨hx, hy⟩
    · exact hT f hf (hx.symm.trans (h.trans hy.symm))
    · exact hT f hf (hy.trans (h.symm.trans hx))
  have hsub : T.erase f ⊆ insert e (T.erase f) := Finset.subset_insert _ _
  have hnew : Conn ends (insert e (T.erase f)) (ends e).1 (ends e).2 := conn_of_mem (Finset.mem_insert_self _ _)
  have hold : Conn ends (insert e (T.erase f)) (ends f).1 (ends f).2 := by
    rcases hover with ⟨hx, hy⟩ | ⟨hx, hy⟩
    · exact (hx.mono hsub).symm.trans (hnew.trans (hy.mono hsub).symm)
    · exact (hy.mono hsub).trans (hnew.symm.trans (hx.mono hsub))
  refine ⟨f, hf, hfcross, fun k hk hcycle => ?_, fun x y hxy => ?_⟩
  · have heT : e ∉ T.erase f := fun h => he (Finset.mem_of_mem_erase h)
    rcases Finset.mem_insert.1 hk with rfl | hkT
    · rw [Finset.erase_insert heT] at hcycle
      exact hbridge hcycle
    · have hke : k ≠ e := fun h => heT (h ▸ hkT)
      have hkk : Conn ends (T.erase f) (ends k).1 (ends k).2 := conn_of_mem hkT
      have hrest : ((insert e (T.erase f)).erase k).erase e = (T.erase f).erase k := by
        rw [Finset.erase_right_comm, Finset.erase_insert heT]
      have hless : (T.erase f).erase k ⊆ T.erase f := Finset.erase_subset _ _
      rcases hcycle.erase e with h | ⟨hx, hy⟩ | ⟨hx, hy⟩ <;> rw [hrest] at *
      · refine hT k (Finset.mem_of_mem_erase hkT) (h.mono ?_)
        exact Finset.erase_subset_erase _ (Finset.erase_subset _ _)
      · exact hbridge ((hx.mono hless).symm.trans (hkk.trans (hy.mono hless).symm))
      · exact hbridge ((hy.mono hless).trans (hkk.symm.trans (hx.mono hless)))
  · rcases hxy.erase f with h | ⟨hx, hy⟩ | ⟨hx, hy⟩
    · exact h.mono hsub
    · exact (hx.mono hsub).trans (hold.trans (hy.mono hsub))
    · exact (hx.mono hsub).trans (hold.symm.trans (hy.mono hsub))

/-- A forest of some of the links that connects whatever they all connect. -/
structure IsTree (ends : E → V × V) (L T : Finset E) : Prop where
  subset : T ⊆ L
  forest : Forest ends T
  spans : ∀ e ∈ L, Conn ends T (ends e).1 (ends e).2

variable {κ : Type} [LinearOrder κ] {rank : E → κ} {L : Finset E} {start : V} {S : V → Prop}

/-- It costs less, whatever the costs, as long as they follow the ranking. -/
def Cheaper (rank : E → κ) (L T T' : Finset E) : Prop :=
  ∀ (M : Type) [AddCommMonoid M] [LinearOrder M] [IsOrderedCancelAddMonoid M] (cost : E → M),
    (∀ a ∈ L, ∀ b ∈ L, rank a < rank b → cost a < cost b) → ∑ e ∈ T, cost e < ∑ e ∈ T', cost e

omit [DecidableEq E] in
theorem Cheaper.trans {T'' : Finset E} (h : Cheaper rank L T T') (h' : Cheaper rank L T' T'') : Cheaper rank L T T'' :=
  fun M _ _ _ cost hcost => (h M cost hcost).trans (h' M cost hcost)

theorem cheaper_exchange {e f : E} (hf : f ∈ T) (he : e ∉ T) (hTL : T ⊆ L) (heL : e ∈ L) (hrank : rank e < rank f) :
    Cheaper rank L (insert e (T.erase f)) T := by
  intro M _ _ _ cost hcost
  rw [Finset.sum_insert fun h => he (Finset.mem_of_mem_erase h), ← Finset.add_sum_erase T cost hf]
  exact add_lt_add_left (hcost e heL f (hTL hf) hrank) _

/-- A tree that grew along the cut `S`: every spanning tree can be had from one that contains it, by exchanges
for the better. -/
structure Grown (ends : E → V × V) (rank : E → κ) (L : Finset E) (start : V) (S : V → Prop) (T : Finset E) : Prop where
  subset : T ⊆ L
  root : S start
  inside : ∀ e ∈ T, S (ends e).1 ∧ S (ends e).2
  conn : ∀ x, S x → Conn ends T start x
  forest : Forest ends T
  promising : ∀ T', IsTree ends L T' → ∃ T'', T ⊆ T'' ∧ IsTree ends L T'' ∧ (T'' = T' ∨ Cheaper rank L T'' T')

omit [DecidableEq E] in
/-- Links inside a cut do not lead out of it. -/
theorem Conn.inside {x y : V} (h : Conn ends T x y) (hT : ∀ e ∈ T, S (ends e).1 ∧ S (ends e).2) (hx : S x) : S y := by
  by_contra hy
  obtain ⟨f, hf, ⟨-, hout⟩ | ⟨-, hout⟩⟩ := exists_crosses h hx hy
  · exact hout (hT f hf).2
  · exact hout (hT f hf).1

theorem grown_start (ends : E → V × V) (rank : E → κ) (L : Finset E) (start : V) :
    Grown ends rank L start (fun x => x = start) ∅ where
  subset := Finset.empty_subset _
  root := rfl
  inside := by simp
  conn x hx := hx ▸ .refl
  forest := by simp [Forest]
  promising T' hT' := ⟨T', Finset.empty_subset _, hT', .inl rfl⟩

/-- The smallest crossing link joins the tree. -/
theorem Grown.grow (h : Grown ends rank L start S T) {e : E} (he : e ∈ L) (hcross : Crosses ends S e)
    (hmin : ∀ f ∈ L, Crosses ends S f → f ≠ e → rank e < rank f) :
    Grown ends rank L start (fun x => S x ∨ x = (ends e).1 ∨ x = (ends e).2) (insert e T) := by
  have heT : e ∉ T := by
    intro heT
    obtain ⟨h1, h2⟩ := h.inside e heT
    exact hcross.elim (fun hc => hc.2 h2) fun hc => hc.2 h1
  have hnew : Conn ends (insert e T) (ends e).1 (ends e).2 := conn_of_mem (Finset.mem_insert_self _ _)
  have hsub : T ⊆ insert e T := Finset.subset_insert _ _
  refine ⟨Finset.insert_subset he h.subset, .inl h.root, fun f hf => ?_, fun x hx => ?_, fun f hf hcycle => ?_,
    fun T' hT' => ?_⟩
  · rcases Finset.mem_insert.1 hf with rfl | hf
    · exact ⟨.inr (.inl rfl), .inr (.inr rfl)⟩
    · exact ⟨.inl (h.inside f hf).1, .inl (h.inside f hf).2⟩
  · -- the end inside the cut is connected, and the other one over the link
    rcases hx with hx | rfl | rfl
    · exact (h.conn x hx).mono hsub
    · rcases hcross with ⟨hin, -⟩ | ⟨hin, -⟩
      · exact (h.conn _ hin).mono hsub
      · exact ((h.conn _ hin).mono hsub).trans hnew.symm
    · rcases hcross with ⟨hin, -⟩ | ⟨hin, -⟩
      · exact ((h.conn _ hin).mono hsub).trans hnew
      · exact (h.conn _ hin).mono hsub
  · rcases Finset.mem_insert.1 hf with rfl | hfT
    · rw [Finset.erase_insert heT] at hcycle
      rcases hcross with ⟨hin, hout⟩ | ⟨hin, hout⟩
      · exact hout (hcycle.inside h.inside hin)
      · exact hout (hcycle.symm.inside h.inside hin)
    · -- a cycle over the new link would lead out of the cut and stay there
      have hrest : ((insert e T).erase f).erase e = T.erase f := by
        rw [Finset.erase_right_comm, Finset.erase_insert heT]
      have hin' : ∀ k ∈ T.erase f, S (ends k).1 ∧ S (ends k).2 := fun k hk => h.inside k (Finset.mem_of_mem_erase hk)
      obtain ⟨hf1, hf2⟩ := h.inside f hfT
      have hboth : S (ends e).1 → S (ends e).2 → False := fun h1 h2 =>
        hcross.elim (fun hc => hc.2 h2) fun hc => hc.2 h1
      rcases hcycle.erase e with hc | ⟨hx, hy⟩ | ⟨hx, hy⟩ <;> rw [hrest] at *
      · exact h.forest f hfT hc
      · exact hboth (hx.inside hin' hf1) (hy.symm.inside hin' hf2)
      · exact hboth (hy.symm.inside hin' hf2) (hx.inside hin' hf1)
  · obtain ⟨T'', hTT'', htree, hcheap⟩ := h.promising T' hT'
    by_cases heT'' : e ∈ T''
    · exact ⟨T'', Finset.insert_subset heT'' hTT'', htree, hcheap⟩
    · obtain ⟨f, hf, hfcross, hforest, hconn⟩ := htree.forest.exchange heT'' hcross (htree.spans e he)
      have hfT : f ∉ T := by
        intro hfT
        obtain ⟨h1, h2⟩ := h.inside f hfT
        exact hfcross.elim (fun hc => hc.2 h2) fun hc => hc.2 h1
      have hfe : f ≠ e := fun hfe => heT'' (hfe ▸ hf)
      have hless := @cheaper_exchange _ _ _ _ _ rank L e f hf heT'' htree.subset he
        (hmin f (htree.subset hf) hfcross hfe)
      refine ⟨insert e (T''.erase f), ?_, ⟨?_, hforest, fun k hk => hconn _ _ (htree.spans k hk)⟩, .inr ?_⟩
      · exact Finset.insert_subset_insert e fun k hk => Finset.mem_erase.2 ⟨fun hkf => hfT (hkf ▸ hk), hTT'' hk⟩
      · exact Finset.insert_subset he fun k hk => htree.subset (Finset.mem_of_mem_erase hk)
      · rcases hcheap with rfl | hcheap
        · exact hless
        · exact hless.trans hcheap

/-- When no link crosses any more, the tree is spanning and cheaper than every other. -/
theorem Grown.minimum (h : Grown ends rank L start S T) (hall : ∀ e ∈ L, S (ends e).1 ∧ S (ends e).2) :
    IsTree ends L T ∧ ∀ T', IsTree ends L T' → T' = T ∨ Cheaper rank L T T' := by
  have hspans : ∀ e ∈ L, Conn ends T (ends e).1 (ends e).2 := fun e he =>
    (h.conn _ (hall e he).1).symm.trans (h.conn _ (hall e he).2)
  refine ⟨⟨h.subset, h.forest, hspans⟩, fun T' hT' => ?_⟩
  obtain ⟨T'', hsub, htree, hcheap⟩ := h.promising T' hT'
  -- nothing can be added to a tree that is spanning already
  have heq : T'' = T := by
    refine (Finset.Subset.antisymm hsub fun f hf => ?_).symm
    by_contra hfT
    refine htree.forest f hf ((hspans f (htree.subset hf)).mono fun k hk => ?_)
    exact Finset.mem_erase.2 ⟨fun hkf => hfT (hkf ▸ hk), hsub hk⟩
  subst heq
  exact hcheap.imp_left Eq.symm

end SpanningTree
