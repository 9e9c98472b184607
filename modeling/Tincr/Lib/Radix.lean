import Mathlib

/-!
Numbers as lists of digits of a fixed length, lowest first, and a list cut into groups of a fixed length. A text code
cuts its input into groups, takes each group for a number and writes that number down in another base.
-/

namespace Radix

def digits (b : ℕ) : ℕ → ℕ → List ℕ
  | 0, _ => []
  | k + 1, n => n % b :: digits b k (n / b)

@[simp] theorem length_digits (b k n : ℕ) : (digits b k n).length = k := by
  induction k generalizing n with
  | zero => rfl
  | succ k ih => rw [digits, List.length_cons, ih]

theorem lt_of_mem_digits {b k n d : ℕ} (hb : 0 < b) (h : d ∈ digits b k n) : d < b := by
  induction k generalizing n with
  | zero => cases h
  | succ k ih =>
    rcases List.mem_cons.1 h with rfl | h
    · exact Nat.mod_lt _ hb
    · exact ih h

theorem ofDigits_digits (b k n : ℕ) : Nat.ofDigits b (digits b k n) = n % b ^ k := by
  induction k generalizing n with
  | zero => simp [digits, Nat.mod_one]
  | succ k ih => rw [digits, Nat.ofDigits_cons, ih, pow_succ', Nat.mod_mul]

theorem digits_ofDigits {b : ℕ} {ds : List ℕ} (h : ∀ d ∈ ds, d < b) : digits b ds.length (Nat.ofDigits b ds) = ds := by
  induction ds with
  | nil => rfl
  | cons d ds ih =>
    have hd : d < b := h d List.mem_cons_self
    have hb : 0 < b := Nat.zero_lt_of_lt hd
    rw [List.length_cons, digits, Nat.ofDigits_cons, Nat.add_mul_mod_self_left, Nat.mod_eq_of_lt hd,
      Nat.add_mul_div_left _ _ hb, Nat.div_eq_of_lt hd, Nat.zero_add, ih fun e he => h e (List.mem_cons_of_mem _ he)]

theorem take_digits {b k m : ℕ} (h : k ≤ m) (n : ℕ) : (digits b m n).take k = digits b k n := by
  induction k generalizing m n with
  | zero => rfl
  | succ k ih =>
    obtain ⟨m, rfl⟩ := Nat.exists_eq_add_of_lt h
    rw [show k + m + 1 = (k + m) + 1 from rfl, digits, digits, List.take_succ_cons, ih (Nat.le_add_right k m)]

/-! ### Groups -/

section Groups

variable {α : Type*} {n : ℕ}

def chunks (n : ℕ) : List α → List (List α)
  | [] => []
  | a :: l => (a :: l.take (n - 1)) :: chunks n (l.drop (n - 1))
termination_by l => l.length
decreasing_by
  rw [List.length_drop, List.length_cons]
  omega

theorem chunks_append {a l : List α} (hne : a ≠ []) (hle : a.length ≤ n) (hfull : l ≠ [] → a.length = n) :
    chunks n (a ++ l) = a :: chunks n l := by
  cases a with
  | nil => exact absurd rfl hne
  | cons x a =>
    rw [List.length_cons] at hle hfull
    rw [List.cons_append, chunks]
    by_cases hl : l = []
    · subst hl
      rw [List.append_nil, List.take_of_length_le (by omega), List.drop_of_length_le (by omega)]
    · have hlen : a.length = n - 1 := by
        have := hfull hl
        omega
      rw [List.take_left' hlen, List.drop_left' hlen]

/-- A list is empty, or a group that is full unless it is the last, and the rest. -/
theorem chunks_induction {motive : List α → Prop} (hn : 0 < n) (nil : motive [])
    (group : ∀ a l, a ≠ [] → a.length ≤ n → (l ≠ [] → a.length = n) → motive l → motive (a ++ l)) (l : List α) :
    motive l := by
  induction hlen : l.length using Nat.strong_induction_on generalizing l with
  | _ k ih =>
    subst hlen
    by_cases hl : l = []
    · exact hl ▸ nil
    · have hpos : 0 < l.length := List.length_pos_of_ne_nil hl
      have hrest : motive (l.drop n) := ih _ (by rw [List.length_drop]; omega) _ rfl
      have hgroup := group (l.take n) (l.drop n) ?_ ?_ ?_ hrest
      · rwa [List.take_append_drop] at hgroup
      · rw [Ne, List.take_eq_nil_iff, not_or]
        exact ⟨hn.ne', hl⟩
      · rw [List.length_take]
        exact Nat.min_le_left _ _
      · intro hne
        rw [Ne, List.drop_eq_nil_iff, not_le] at hne
        rw [List.length_take, Nat.min_eq_left hne.le]

end Groups

end Radix
