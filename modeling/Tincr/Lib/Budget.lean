import Mathlib

/-!
A component that grants or refuses calls over time. Its grants in a window of time are bounded by a
potential to which time adds at unit rate: a grant takes its cost out of it, and whatever came before
the window, the first call in it leaves at most a fixed amount.
-/

namespace Budget

variable {σ ι : Type} {time : ι → ℕ} {step : σ → ι → Bool × σ}

def granted (step : σ → ι → Bool × σ) : σ → List ι → List ι
  | _, [] => []
  | s, i :: calls =>
    let (grant, s') := step s i
    if grant then i :: granted step s' calls else granted step s' calls

def grantsIn (time : ι → ℕ) (step : σ → ι → Bool × σ) (s : σ) (calls : List ι) (a b : ℕ) : ℕ :=
  ((granted step s calls).filter fun i => a ≤ time i ∧ time i ≤ b).length

theorem mem_granted {s : σ} {calls : List ι} {i : ι} (h : i ∈ granted step s calls) : i ∈ calls := by
  induction calls generalizing s with
  | nil => simp [granted] at h
  | cons j calls ih =>
    simp only [granted] at h
    split_ifs at h
    · rcases List.mem_cons.1 h with rfl | h
      · exact List.mem_cons_self
      · exact List.mem_cons_of_mem _ (ih h)
    · exact List.mem_cons_of_mem _ (ih h)

theorem grantsIn_cons (s : σ) (i : ι) (calls : List ι) (a b : ℕ) :
    grantsIn time step s (i :: calls) a b =
      (if (step s i).1 ∧ a ≤ time i ∧ time i ≤ b then 1 else 0) +
        grantsIn time step (step s i).2 calls a b := by
  simp only [grantsIn, granted]
  by_cases hgrant : (step s i).1
  · by_cases hin : a ≤ time i ∧ time i ≤ b
    · simp [hgrant, hin, Nat.add_comm]
    · simp [hgrant, hin]
  · simp [hgrant]

theorem grantsIn_eq_zero {s : σ} {calls : List ι} {a b : ℕ} (h : ∀ i ∈ calls, b < time i) :
    grantsIn time step s calls a b = 0 := by
  rw [grantsIn, List.length_eq_zero_iff, List.filter_eq_nil_iff]
  intro i hi
  have := h i (mem_granted hi)
  simp only [decide_eq_true_eq]
  omega

/-- `Φ` accounts for the grants: they cost `cost` each, and the first call of a window leaves `bound`
at most. -/
structure Accounts (time : ι → ℕ) (step : σ → ι → Bool × σ) (Inv : σ → Prop) (Φ : σ → ℕ → ℕ)
    (cost bound : ℕ) : Prop where
  keeps : ∀ s i, Inv s → Inv (step s i).2
  drift : ∀ s t t', t ≤ t' → Φ s t' ≤ Φ s t + (t' - t)
  pays : ∀ s i, Inv s →
    (if (step s i).1 then cost else 0) + Φ (step s i).2 (time i) ≤ Φ s (time i)
  enters : ∀ s i, Inv s →
    (if (step s i).1 then cost else 0) + Φ (step s i).2 (time i) ≤ bound

variable {Inv : σ → Prop} {Φ : σ → ℕ → ℕ} {cost bound : ℕ}

/-- From time `t` on there is no more to spend than the potential at `t` and the time until `b`. -/
theorem Accounts.grants_le (h : Accounts time step Inv Φ cost bound) {s : σ} (hs : Inv s) {calls : List ι}
    (hsorted : calls.Pairwise fun i j => time i ≤ time j) {t : ℕ} (ht : ∀ i ∈ calls, t ≤ time i) (a b : ℕ) :
    cost * grantsIn time step s calls a b ≤ Φ s t + (b - t) := by
  induction calls generalizing s t with
  | nil => simp [grantsIn, granted]
  | cons i calls ih =>
    obtain ⟨hfirst, hrest⟩ := List.pairwise_cons.1 hsorted
    have hti := ht i List.mem_cons_self
    by_cases hib : time i ≤ b
    · have hlater := ih (h.keeps s i hs) hrest hfirst
      have hpay := h.pays s i hs
      have hdrift := h.drift s t (time i) hti
      rw [grantsIn_cons, Nat.mul_add]
      have hone : cost * (if (step s i).1 ∧ a ≤ time i ∧ time i ≤ b then 1 else 0) ≤
          if (step s i).1 then cost else 0 := by
        split_ifs with hgrant hany
        · rw [Nat.mul_one]
        · exact absurd hgrant.1 hany
        · exact Nat.zero_le _
        · exact Nat.zero_le _
      omega
    · rw [grantsIn_eq_zero]
      · exact Nat.zero_le _
      · intro j hj
        rcases List.mem_cons.1 hj with rfl | hj
        · omega
        · have := hfirst j hj
          omega

/-- In every window of time the grants cost no more than the bound and the length of the window. -/
theorem Accounts.window_le (h : Accounts time step Inv Φ cost bound) {s : σ} (hs : Inv s) {calls : List ι}
    (hsorted : calls.Pairwise fun i j => time i ≤ time j) (a b : ℕ) :
    cost * grantsIn time step s calls a b ≤ bound + (b - a) := by
  induction calls generalizing s with
  | nil => simp [grantsIn, granted]
  | cons i calls ih =>
    obtain ⟨hfirst, hrest⟩ := List.pairwise_cons.1 hsorted
    rw [grantsIn_cons]
    by_cases hin : a ≤ time i ∧ time i ≤ b
    · have hlater := h.grants_le (h.keeps s i hs) hrest hfirst a b
      have henter := h.enters s i hs
      simp only [hin, and_true, Nat.mul_add, mul_ite, Nat.mul_one, Nat.mul_zero]
      omega
    · rw [if_neg (fun hgrant => hin hgrant.2), Nat.zero_add]
      exact ih (h.keeps s i hs) hrest

end Budget
