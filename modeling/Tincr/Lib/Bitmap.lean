import Mathlib

/-! A bitmap kept in a list of bytes: bit `i` is bit `i % 8` of byte `i / 8`.
Reading after a write is decided by whether the two positions coincide. -/

namespace Bitmap

def mask (k : ℕ) : UInt8 := 1 <<< UInt8.ofNat k

def bit (b : UInt8) (k : ℕ) : Bool := b &&& mask k != 0

def get (bs : List UInt8) (i : ℕ) : Bool := bit (bs.getD (i / 8) 0) (i % 8)

def set (bs : List UInt8) (i : ℕ) : List UInt8 := bs.modify (i / 8) (· ||| mask (i % 8))

def clear (bs : List UInt8) (i : ℕ) : List UInt8 := bs.modify (i / 8) (· &&& ~~~ mask (i % 8))

theorem mask_getLsbD {j k : ℕ} (hj : j < 8) (hk : k < 8) :
    (mask j).toBitVec.getLsbD k = decide (j = k) := by
  interval_cases j <;> interval_cases k <;> rfl

theorem bit_eq_getLsbD (b : UInt8) {k : ℕ} (hk : k < 8) : bit b k = b.toBitVec.getLsbD k := by
  have hand : ∀ i < 8, (b &&& mask k).toBitVec.getLsbD i =
      (b.toBitVec.getLsbD i && decide (k = i)) := by
    intro i hi
    rw [UInt8.toBitVec_and, BitVec.getLsbD_and, mask_getLsbD hk hi]
  cases hb : b.toBitVec.getLsbD k with
  | true =>
    have hne : b &&& mask k ≠ 0 := by
      intro h0
      have := hand k hk
      rw [h0, hb] at this
      simp at this
    simpa [bit] using hne
  | false =>
    have h0 : b &&& mask k = 0 := by
      apply UInt8.toBitVec_inj.1
      apply BitVec.eq_of_getLsbD_eq
      intro i hi
      rw [hand i hi]
      by_cases hki : k = i
      · subst hki; simp [hb]
      · simp [hki]
    simp [bit, h0]

theorem bit_or_mask (b : UInt8) {j k : ℕ} (hj : j < 8) (hk : k < 8) :
    bit (b ||| mask j) k = (decide (j = k) || bit b k) := by
  rw [bit_eq_getLsbD _ hk, bit_eq_getLsbD _ hk, UInt8.toBitVec_or, BitVec.getLsbD_or,
    mask_getLsbD hj hk, Bool.or_comm]

theorem bit_and_not_mask (b : UInt8) {j k : ℕ} (hj : j < 8) (hk : k < 8) :
    bit (b &&& ~~~ mask j) k = (!decide (j = k) && bit b k) := by
  rw [bit_eq_getLsbD _ hk, bit_eq_getLsbD _ hk, UInt8.toBitVec_and, BitVec.getLsbD_and,
    UInt8.toBitVec_not, BitVec.getLsbD_not, mask_getLsbD hj hk, Bool.and_comm]
  simp [hk]

@[simp] theorem length_set (bs : List UInt8) (i : ℕ) : (set bs i).length = bs.length := by
  simp [set]

@[simp] theorem length_clear (bs : List UInt8) (i : ℕ) : (clear bs i).length = bs.length := by
  simp [clear]

theorem getD_modify (bs : List UInt8) (f : UInt8 → UInt8) (m n : ℕ) (hn : n < bs.length) :
    (bs.modify m f).getD n 0 = if m = n then f (bs.getD n 0) else bs.getD n 0 := by
  simp only [List.getD_eq_getElem?_getD, List.getElem?_modify]
  split_ifs with h <;> simp [List.getElem?_eq_getElem hn]

/-- Two positions are equal when they name the same bit of the same byte. -/
theorem pos_eq_iff (i j : ℕ) : i = j ↔ i / 8 = j / 8 ∧ i % 8 = j % 8 := by
  omega

theorem get_set (bs : List UInt8) {i j : ℕ} (hj : j < 8 * bs.length) :
    get (set bs i) j = (decide (i = j) || get bs j) := by
  have hb : j / 8 < bs.length := by omega
  unfold get set
  rw [getD_modify _ _ _ _ hb]
  split_ifs with h
  · rw [bit_or_mask _ (Nat.mod_lt _ (by norm_num)) (Nat.mod_lt _ (by norm_num))]
    simp [pos_eq_iff i j, h]
  · simp [pos_eq_iff i j, h]

theorem get_clear (bs : List UInt8) {i j : ℕ} (hj : j < 8 * bs.length) :
    get (clear bs i) j = (!decide (i = j) && get bs j) := by
  have hb : j / 8 < bs.length := by omega
  unfold get clear
  rw [getD_modify _ _ _ _ hb]
  split_ifs with h
  · rw [bit_and_not_mask _ (Nat.mod_lt _ (by norm_num)) (Nat.mod_lt _ (by norm_num))]
    simp [pos_eq_iff i j, h]
  · simp [pos_eq_iff i j, h]

theorem getD_replicate {n j : ℕ} (b : UInt8) (hj : j < 8 * n) : (List.replicate n b).getD (j / 8) 0 = b := by
  have hb : j / 8 < n := by omega
  simp [List.getD_eq_getElem?_getD, hb]

theorem get_replicate_ones {n j : ℕ} (hj : j < 8 * n) : get (List.replicate n 0xFF) j = true := by
  have hbit : j % 8 < 8 := Nat.mod_lt _ (by decide)
  rw [get, getD_replicate _ hj, bit_eq_getLsbD _ hbit]
  interval_cases j % 8 <;> rfl

theorem get_replicate_zeros {n j : ℕ} (hj : j < 8 * n) : get (List.replicate n 0) j = false := by
  rw [get, getD_replicate _ hj]
  simp [bit]

end Bitmap
