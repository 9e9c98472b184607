import Mathlib

/-!
Following a partial function. The orbit of a point ends if some iterate has no value; on a finite set this
is the same as having no cycle. A relation stays without cycles when the arrows out of one point change and
no new way leads from that point back to it.
-/

namespace Orbit

variable {α : Type}

/-- After finitely many steps a point is reached where the function has no value. -/
inductive Ends (f : α → Option α) : α → Prop
  | stop {a : α} : f a = none → Ends f a
  | step {a b : α} : f a = some b → Ends f b → Ends f a

def Arrow (f : α → Option α) (a b : α) : Prop := f a = some b

def Acyclic (P : α → α → Prop) : Prop := ∀ a, ¬ Relation.TransGen P a a

/-- A path in a larger relation stays in the smaller one or goes over a marked arrow. -/
theorem transGen_or_mark {P P' S : α → α → Prop} (h : ∀ a b, P' a b → P a b ∨ S a b) {a b : α}
    (hab : Relation.TransGen P' a b) :
    Relation.TransGen P a b ∨
      ∃ x y, S x y ∧ P' x y ∧ Relation.ReflTransGen P' a x ∧ Relation.ReflTransGen P' y b := by
  induction hab with
  | single hab =>
    rcases h _ _ hab with hP | hS
    · exact .inl (.single hP)
    · exact .inr ⟨_, _, hS, hab, .refl, .refl⟩
  | tail hpre hbc ih =>
    rcases ih with ih | ⟨x, y, hS, hxy, hax, hyb⟩
    · rcases h _ _ hbc with hP | hS
      · exact .inl (ih.tail hP)
      · exact .inr ⟨_, _, hS, hbc, hpre.to_reflTransGen, .refl⟩
    · exact .inr ⟨x, y, hS, hxy, hax, hyb.tail hbc⟩

theorem acyclic_update {P P' : α → α → Prop} {x : α} (hP : Acyclic P) (hsame : ∀ a b, a ≠ x → P' a b → P a b)
    (hx : ¬ Relation.TransGen P' x x) : Acyclic P' := by
  intro a ha
  have hor : ∀ a b, P' a b → P a b ∨ a = x := fun a b hab =>
    or_iff_not_imp_right.2 fun hne => hsame a b hne hab
  rcases transGen_or_mark hor ha with hold | ⟨_, y, rfl, hxy, hax, hya⟩
  · exact hP a hold
  · exact hx (.head' hxy (hya.trans hax))

/-- A point whose orbit ends is on no cycle. -/
theorem Ends.not_cycle {f : α → Option α} {a : α} (h : Ends f a) : ¬ Relation.TransGen (Arrow f) a a := by
  induction h with
  | stop hnone =>
    intro hcycle
    obtain ⟨b, hb, -⟩ := Relation.TransGen.head'_iff.1 hcycle
    rw [Arrow, hnone] at hb
    cases hb
  | step hsome _ ih =>
    intro hcycle
    obtain ⟨c, hc, hrest⟩ := Relation.TransGen.head'_iff.1 hcycle
    rw [Arrow, hsome] at hc
    obtain rfl := Option.some.inj hc
    exact ih (.tail' hrest hsome)

/-- A function without cycles that has values on a finite set only: every orbit ends. The points of the set
that are still ahead get fewer with each step. -/
theorem ends_of_acyclic {f : α → Option α} (s : Finset α) (hs : ∀ a b, f a = some b → a ∈ s)
    (hacyclic : Acyclic (Arrow f)) (a : α) : Ends f a := by
  classical
  generalize hn : (s.filter fun b => Relation.TransGen (Arrow f) a b).card = n
  induction n using Nat.strong_induction_on generalizing a with
  | _ n ih =>
    cases ha : f a with
    | none => exact .stop ha
    | some b =>
      refine .step ha ?_
      cases hb : f b with
      | none => exact .stop hb
      | some c =>
        refine ih _ ?_ b rfl
        rw [← hn]
        refine Finset.card_lt_card (Finset.ssubset_iff_of_subset ?_ |>.2 ⟨b, ?_, ?_⟩)
        · intro x hx
          simp only [Finset.mem_filter] at hx ⊢
          exact ⟨hx.1, .head ha hx.2⟩
        · exact Finset.mem_filter.2 ⟨hs b c hb, .single ha⟩
        · exact fun hmem => hacyclic b (Finset.mem_filter.1 hmem).2

end Orbit
