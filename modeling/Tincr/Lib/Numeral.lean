import Mathlib

/-!
Numbers as text. `Nat.toDigits` prints them, `readDigits` reads them back, letters of either case being
digits above nine, and `readUnsigned` and `readSigned` are the readers of machine integers: an optional
sign, at least one digit, and a value in range.
-/

namespace Numeral

/-- The value of a digit in some base up to 36. -/
def digitValue (c : Char) : Option ℕ :=
  if '0' ≤ c ∧ c ≤ '9' then some (c.toNat - '0'.toNat)
  else if 'a' ≤ c ∧ c ≤ 'z' then some (c.toNat - 'a'.toNat + 10)
  else if 'A' ≤ c ∧ c ≤ 'Z' then some (c.toNat - 'A'.toNat + 10)
  else none

def digit (base : ℕ) (c : Char) : Option ℕ := (digitValue c).filter (· < base)

def readDigits (base : ℕ) (cs : List Char) : Option ℕ :=
  cs.foldlM (fun acc c => (digit base c).map (acc * base + ·)) 0

def readUnsigned (base bound : ℕ) (cs : List Char) : Option ℕ :=
  let value (ds : List Char) := if ds = [] then none else (readDigits base ds).filter (· < bound)
  match cs with
  | '+' :: ds => value ds
  | ds => value ds

/-- The range is `-bound ≤ n < bound`. -/
def readSigned (bound : ℕ) (cs : List Char) : Option ℤ :=
  let value (ds : List Char) := if ds = [] then none else readDigits 10 ds
  match cs with
  | '+' :: ds => (value ds).bind fun n => if n < bound then some (n : ℤ) else none
  | '-' :: ds => (value ds).bind fun n => if n ≤ bound then some (-(n : ℤ)) else none
  | ds => (value ds).bind fun n => if n < bound then some (n : ℤ) else none

def printInt (i : ℤ) : List Char :=
  if i < 0 then '-' :: Nat.toDigits 10 i.natAbs else Nat.toDigits 10 i.natAbs

theorem digit_digitChar : ∀ d < 16, digit 16 (Nat.digitChar d) = some d := by decide

theorem digit_ten_digitChar : ∀ d < 10, digit 10 (Nat.digitChar d) = some d := by decide

theorem toDigits_step {b n : ℕ} (hb : 1 < b) (hn : b ≤ n) :
    Nat.toDigits b n = Nat.toDigits b (n / b) ++ [Nat.digitChar (n % b)] := by
  have hpos : 0 < n / b := Nat.div_pos hn (by omega)
  have hlt : n % b < b := Nat.mod_lt _ (by omega)
  rw [← Nat.toDigits_of_lt_base hlt, Nat.toDigits_append_toDigits hb hpos hlt, Nat.div_add_mod]

/-- Induction over the digits of a number: one digit, or one more digit at the end. -/
theorem toDigits_induction {b : ℕ} (hb : 1 < b) {motive : ℕ → Prop}
    (one : ∀ d < b, Nat.toDigits b d = [Nat.digitChar d] → motive d)
    (more : ∀ n d, 0 < n → d < b →
      Nat.toDigits b (n * b + d) = Nat.toDigits b n ++ [Nat.digitChar d] → motive n →
      motive (n * b + d)) (n : ℕ) : motive n := by
  induction n using Nat.strong_induction_on with
  | _ n ih =>
    rcases Nat.lt_or_ge n b with hn | hn
    · exact one n hn (Nat.toDigits_of_lt_base hn)
    · have hmod : n % b < b := Nat.mod_lt _ (by omega)
      have hlt : n / b < n := Nat.div_lt_self (by omega) hb
      have hsplit : n / b * b + n % b = n := by rw [Nat.mul_comm, Nat.div_add_mod]
      have hstep := more (n / b) (n % b) (Nat.div_pos hn (by omega)) hmod
      rw [hsplit] at hstep
      exact hstep (toDigits_step hb hn) (ih _ hlt)

/-- The digits of a base are read as the values they were printed from. -/
def Prints (b : ℕ) : Prop := 1 < b ∧ ∀ d < b, digit b (Nat.digitChar d) = some d

theorem prints_ten : Prints 10 := ⟨by decide, digit_ten_digitChar⟩

theorem prints_sixteen : Prints 16 := ⟨by decide, digit_digitChar⟩

theorem readDigits_append {b : ℕ} (ds : List Char) (c : Char) :
    readDigits b (ds ++ [c]) = (readDigits b ds).bind fun n => (digit b c).map (n * b + ·) := by
  unfold readDigits
  rw [List.foldlM_append]
  cases ds.foldlM (fun acc c => (digit b c).map (acc * b + ·)) 0 with
  | none => rfl
  | some n => simp

variable {b : ℕ}

theorem readDigits_toDigits (hb : Prints b) (n : ℕ) : readDigits b (Nat.toDigits b n) = some n := by
  induction n using toDigits_induction hb.1 with
  | one d hd hdigits => simp [hdigits, readDigits, hb.2 d hd]
  | more n d _ hd hdigits ih => simp [hdigits, readDigits_append, ih, hb.2 d hd]

theorem mem_toDigits (hb : Prints b) {n : ℕ} {c : Char} (hc : c ∈ Nat.toDigits b n) :
    ∃ d < b, c = Nat.digitChar d := by
  induction n using toDigits_induction hb.1 with
  | one d hd hdigits =>
    rw [hdigits, List.mem_singleton] at hc
    exact ⟨d, hd, hc⟩
  | more n d _ hd hdigits ih =>
    rw [hdigits, List.mem_append, List.mem_singleton] at hc
    rcases hc with hc | hc
    · exact ih hc
    · exact ⟨d, hd, hc⟩

theorem length_toDigits_le (hb : Prints b) {n k : ℕ} (hk : 0 < k) (hn : n < b ^ k) :
    (Nat.toDigits b n).length ≤ k := by
  induction n using toDigits_induction hb.1 generalizing k with
  | one d hd hdigits =>
    rw [hdigits]
    exact hk
  | more n d hpos hd hdigits ih =>
    rw [hdigits, List.length_append, List.length_singleton]
    obtain ⟨k, rfl⟩ : ∃ k', k = k' + 1 := ⟨k - 1, by omega⟩
    have hb0 := hb.1
    have hlt : n < b ^ k := by
      by_contra hge
      have hle : b ^ k * b ≤ n * b := Nat.mul_le_mul_right b (Nat.le_of_not_lt hge)
      rw [← pow_succ] at hle
      omega
    have hk' : 0 < k := by
      rcases Nat.eq_zero_or_pos k with rfl | h
      · simp at hlt
        omega
      · exact h
    exact Nat.succ_le_succ (ih hk' hlt)

/-- Only the number zero begins with a zero. -/
theorem head?_toDigits_ne_zero (hb : Prints b) {n : ℕ} (hn : 0 < n) :
    (Nat.toDigits b n).head? ≠ some '0' := by
  induction n using toDigits_induction hb.1 with
  | one d hd hdigits =>
    rw [hdigits]
    intro h
    have hzero : digit b '0' = some 0 := by
      simp [digit, digitValue, Nat.zero_lt_of_lt hd]
    rw [List.head?_cons, Option.some.injEq] at h
    have hvalue := hb.2 d hd
    rw [h, hzero, Option.some.injEq] at hvalue
    omega
  | more n d hpos hd hdigits ih =>
    rw [hdigits, List.head?_append_of_ne_nil _ Nat.toDigits_ne_nil]
    exact ih hpos

theorem sign_ne_digit {d : ℕ} (hd : d < 16) : Nat.digitChar d ≠ '+' ∧ Nat.digitChar d ≠ '-' := by
  revert d
  decide

theorem toDigits_ne_sign (hb : Prints b) (h16 : b ≤ 16) (n : ℕ) (ds : List Char) :
    Nat.toDigits b n ≠ '+' :: ds ∧ Nat.toDigits b n ≠ '-' :: ds := by
  constructor
  · intro h
    obtain ⟨d, hd, hc⟩ := mem_toDigits hb (c := '+') (n := n) (by rw [h]; simp)
    exact (sign_ne_digit (by omega)).1 hc.symm
  · intro h
    obtain ⟨d, hd, hc⟩ := mem_toDigits hb (c := '-') (n := n) (by rw [h]; simp)
    exact (sign_ne_digit (by omega)).2 hc.symm

theorem readUnsigned_toDigits (hb : Prints b) (h16 : b ≤ 16) {n bound : ℕ} (hn : n < bound) :
    readUnsigned b bound (Nat.toDigits b n) = some n := by
  unfold readUnsigned
  split
  case h_1 ds heq => exact absurd heq (toDigits_ne_sign hb h16 n ds).1
  case h_2 => simp [Nat.toDigits_ne_nil, readDigits_toDigits hb, hn]

theorem readSigned_printInt {i : ℤ} {bound : ℕ} (hlo : -bound ≤ i) (hhi : i < bound) :
    readSigned bound (printInt i) = some i := by
  unfold printInt
  split_ifs with hneg
  · simp only [readSigned, Nat.toDigits_ne_nil, ↓reduceIte, readDigits_toDigits prints_ten,
      Option.bind_some]
    rw [if_pos (by omega)]
    congr 1
    omega
  · unfold readSigned
    split
    case h_1 ds heq => exact absurd heq (toDigits_ne_sign prints_ten (by decide) _ ds).1
    case h_2 ds heq => exact absurd heq (toDigits_ne_sign prints_ten (by decide) _ ds).2
    case h_3 =>
      simp only [Nat.toDigits_ne_nil, ↓reduceIte, readDigits_toDigits prints_ten, Option.bind_some]
      rw [if_pos (by omega)]
      congr 1
      omega

end Numeral
