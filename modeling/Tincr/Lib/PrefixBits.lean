import Mathlib

/-!
The bits of a byte string in the order they are sent, the most significant one of each byte first, and what the
byte-wise tests of prefix masks say about them: that two strings agree on their first `n` bits, and that a string
has no bit from the `n`-th on.
-/

namespace PrefixBits

def high (b : UInt8) (i : ℕ) : Bool := b.toBitVec.getMsbD i

/-- A bit of a byte string; past its end there are zeros. -/
def bit (bs : List UInt8) (i : ℕ) : Bool := high (bs.getD (i / 8) 0) (i % 8)

variable {a b : UInt8} {as bs : List UInt8} {n k : ℕ}

theorem eq_of_high (h : ∀ i < 8, high a i = high b i) : a = b :=
  UInt8.toBitVec_inj.1 (BitVec.eq_of_getMsbD_eq fun i hi => h i hi)

@[simp] theorem high_and (a b : UInt8) (i : ℕ) : high (a &&& b) i = (high a i && high b i) := by
  simp [high, BitVec.getMsbD_and]

@[simp] theorem high_zero (i : ℕ) : high 0 i = false := by simp [high]

theorem high_headMask : ∀ k < 8, 0 < k → ∀ i < 8, high (0xFF <<< UInt8.ofNat (8 - k)) i = decide (i < k) := by
  decide

theorem high_tailMask : ∀ k < 8, ∀ i < 8, high (0xFF >>> UInt8.ofNat k) i = decide (k ≤ i) := by
  decide

theorem headMask_eq_iff (hpos : 0 < k) (hk : k < 8) :
    a &&& 0xFF <<< UInt8.ofNat (8 - k) = b &&& 0xFF <<< UInt8.ofNat (8 - k) ↔ ∀ i < k, high a i = high b i := by
  constructor
  · intro h i hi
    have hbit := congrArg (high · i) h
    simpa [high_headMask k hk hpos i (by omega), hi] using hbit
  · intro h
    refine eq_of_high fun i hi => ?_
    rw [high_and, high_and, high_headMask k hk hpos i hi]
    by_cases hik : i < k
    · rw [h i hik]
    · simp [hik]

theorem tailMask_eq_zero_iff (hk : k < 8) :
    a &&& 0xFF >>> UInt8.ofNat k = 0 ↔ ∀ i < 8, k ≤ i → high a i = false := by
  constructor
  · intro h i hi hik
    have hbit := congrArg (high · i) h
    simpa [high_tailMask k hk i hi, hik] using hbit
  · intro h
    refine eq_of_high fun i hi => ?_
    rw [high_and, high_tailMask k hk i hi, high_zero]
    by_cases hik : k ≤ i
    · rw [h i hi hik]
      rfl
    · simp [hik]

theorem bit_add (bs : List UInt8) (j : ℕ) {i : ℕ} (hi : i < 8) : bit bs (8 * j + i) = high (bs.getD j 0) i := by
  rw [bit, show (8 * j + i) / 8 = j by omega, show (8 * j + i) % 8 = i by omega]

/-- The first bits agree: whole bytes, then the head of one more. -/
theorem agree_iff (as bs : List UInt8) (n : ℕ) : (∀ i < n, bit as i = bit bs i) ↔
    (∀ j < n / 8, as.getD j 0 = bs.getD j 0) ∧
      ∀ i < n % 8, high (as.getD (n / 8) 0) i = high (bs.getD (n / 8) 0) i := by
  constructor
  · intro h
    refine ⟨fun j hj => eq_of_high fun i hi => ?_, fun i hi => ?_⟩
    · rw [← bit_add as j hi, ← bit_add bs j hi]
      exact h _ (by omega)
    · have hi8 : i < 8 := by omega
      rw [← bit_add as _ hi8, ← bit_add bs _ hi8]
      exact h _ (by omega)
  · rintro ⟨hwhole, hhead⟩ i hi
    rw [bit, bit]
    by_cases hlt : i / 8 < n / 8
    · rw [hwhole _ hlt]
    · have heq : i / 8 = n / 8 := by omega
      rw [heq]
      exact hhead _ (by omega)

theorem take_eq_iff (ha : n ≤ as.length) (hb : n ≤ bs.length) :
    as.take n = bs.take n ↔ ∀ j < n, as.getD j 0 = bs.getD j 0 := by
  constructor
  · intro h j hj
    have hget := congrArg (fun l => l.getD j 0) h
    simpa [List.getD_eq_getElem?_getD, List.getElem?_take, hj] using hget
  · intro h
    refine List.ext_getElem (by simp [ha, hb]) fun j hj hj' => ?_
    have hjn : j < n := by simp at hj; omega
    have hget := h j hjn
    rw [List.getD_eq_getElem _ _ (by omega), List.getD_eq_getElem _ _ (by omega)] at hget
    simpa using hget

/-- No bit is set from the `n`-th on: in the tail of one byte, then in whole ones. -/
theorem zero_iff (bs : List UInt8) (n : ℕ) : (∀ i, n ≤ i → bit bs i = false) ↔
    (∀ i < 8, n % 8 ≤ i → high (bs.getD (n / 8) 0) i = false) ∧ ∀ j, n / 8 < j → bs.getD j 0 = 0 := by
  constructor
  · intro h
    refine ⟨fun i hi hni => ?_, fun j hj => eq_of_high fun i hi => ?_⟩
    · rw [← bit_add bs _ hi]
      exact h _ (by omega)
    · rw [← bit_add bs j hi, high_zero]
      exact h _ (by omega)
  · rintro ⟨htail, hwhole⟩ i hi
    rw [bit]
    by_cases heq : i / 8 = n / 8
    · rw [heq]
      exact htail _ (by omega) (by omega)
    · rw [hwhole _ (by omega), high_zero]

theorem eq_of_bit (hlen : as.length = bs.length) (h : ∀ i, bit as i = bit bs i) : as = bs := by
  refine List.ext_getElem hlen fun j hj hj' => ?_
  have hbyte : as.getD j 0 = bs.getD j 0 := eq_of_high fun i hi => by
    rw [← bit_add as j hi, ← bit_add bs j hi]
    exact h _
  rwa [List.getD_eq_getElem _ _ hj, List.getD_eq_getElem _ _ hj'] at hbyte

end PrefixBits
