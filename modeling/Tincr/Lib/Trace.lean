import Mathlib

/-!
Properties of a trace read from its start: `Along P l` says that each event of `l` is lawful after the
events before it, and `since p l` is what has happened since the last event with `p`. Both are built
up event by event at the end of the trace, the way a run appends to its log.
-/

namespace Trace

/-- Where a step keeps `I` exactly if it is not `Bad`, a whole run keeps it exactly if no step is. `J` is
what every step keeps anyway. -/
theorem forall_take_iff {α σ : Type*} {f : σ → α → σ} {I J : σ → Prop} {A : α → Prop} {Bad : σ → α → Prop}
    (hkeep : ∀ s a, A a → J s → J (f s a)) (hstep : ∀ s a, A a → J s → I s → (I (f s a) ↔ ¬ Bad s a))
    {s : σ} {l : List α} (hA : ∀ a ∈ l, A a) (hJ : J s) (hI : I s) :
    (∀ k ≤ l.length, I ((l.take k).foldl f s)) ↔ ∀ k a, l[k]? = some a → ¬ Bad ((l.take k).foldl f s) a := by
  induction l generalizing s with
  | nil => simp [hI]
  | cons a l ih =>
    have ha : A a := hA a List.mem_cons_self
    have hA' : ∀ a ∈ l, A a := fun b hb => hA b (List.mem_cons_of_mem _ hb)
    constructor
    · intro hall
      have hnext : I (f s a) := by simpa using hall 1 (by simp)
      have htail := (ih hA' (hkeep s a ha hJ) hnext).1 fun k hk => hall (k + 1) (by simpa using hk)
      rintro (_ | k) b hb
      · obtain rfl : a = b := by simpa using hb
        exact (hstep s a ha hJ hI).1 hnext
      · exact htail k b (by simpa using hb)
    · intro hnone
      have hnext := (hstep s a ha hJ hI).2 (hnone 0 a rfl)
      have htail := (ih hA' (hkeep s a ha hJ) hnext).2 fun k b hb => hnone (k + 1) b (by simpa using hb)
      rintro (_ | k) hk
      · exact hI
      · exact htail k (by simpa using hk)

variable {α : Type*} {P : List α → α → Prop} {p : α → Bool} {l es : List α} {e : α}

/-- Each event of the trace satisfies `P` after the events before it. -/
def Along (P : List α → α → Prop) (l : List α) : Prop :=
  ∀ pre e post, l = pre ++ e :: post → P pre e

theorem along_nil : Along P ([] : List α) := by
  intro pre e post h
  simp at h

theorem along_concat : Along P (l ++ [e]) ↔ Along P l ∧ P l e := by
  constructor
  · intro h
    refine ⟨fun pre e' post hl => h pre e' (post ++ [e]) (by simp [hl]), h l e [] rfl⟩
  · rintro ⟨hl, he⟩ pre e' post hsplit
    rcases List.eq_nil_or_concat post with rfl | ⟨post, e'', rfl⟩
    · obtain ⟨rfl, h⟩ := List.append_inj' hsplit rfl
      obtain rfl : e = e' := by simpa using h
      exact he
    · refine hl pre e' post ?_
      have : l ++ [e] = (pre ++ e' :: post) ++ [e''] := by simpa using hsplit
      exact (List.append_inj' this rfl).1

/-- Events that are lawful wherever they stand. -/
theorem along_append (hl : Along P l) (hes : ∀ e ∈ es, ∀ pre, P pre e) : Along P (l ++ es) := by
  induction es using List.reverseRecOn with
  | nil => simpa using hl
  | append_singleton es e ih =>
    rw [← List.append_assoc, along_concat]
    exact ⟨ih fun e' he' => hes e' (by simp [he']), hes e (by simp) _⟩

def since (p : α → Bool) (l : List α) : List α := l.rtakeWhile fun e => !p e

@[simp] theorem since_concat : since p (l ++ [e]) = if p e then [] else since p l ++ [e] := by
  rw [since, List.rtakeWhile_concat]
  cases p e <;> simp [since]

theorem since_append (h : ∀ e ∈ es, p e = false) : since p (l ++ es) = since p l ++ es := by
  induction es using List.reverseRecOn with
  | nil => simp
  | append_singleton es e ih =>
    rw [← List.append_assoc, since_concat, ih fun e' he' => h e' (by simp [he'])]
    simp [h e (by simp)]

end Trace
