import Mathlib

/-!
Big-endian numbers of a fixed width, as lists of bytes: the network order of length and sequence
fields. Encoding keeps the value modulo `256 ^ w`, so a field wide enough for its value decodes to it.
-/

namespace BigEndian

/-- The `w` low bytes of `n`, most significant first. -/
def encode : ℕ → ℕ → List UInt8
  | 0, _ => []
  | w + 1, n => UInt8.ofNat (n / 256 ^ w) :: encode w n

/-- The number a byte list spells, most significant byte first. -/
def decode (bs : List UInt8) : ℕ :=
  bs.foldl (fun acc b => acc * 256 + b.toNat) 0

@[simp] theorem length_encode (w n : ℕ) : (encode w n).length = w := by
  induction w with
  | zero => rfl
  | succ w ih => simp [encode, ih]

theorem foldl_encode (w n acc : ℕ) :
    (encode w n).foldl (fun acc b => acc * 256 + b.toNat) acc = acc * 256 ^ w + n % 256 ^ w := by
  induction w generalizing acc with
  | zero => simp [encode, Nat.mod_one]
  | succ w ih =>
    have hbyte : (UInt8.ofNat (n / 256 ^ w)).toNat = n / 256 ^ w % 256 := by simp
    have hsplit : n % 256 ^ (w + 1) = 256 ^ w * (n / 256 ^ w % 256) + n % 256 ^ w := by
      rw [pow_succ, Nat.mod_mul, add_comm]
    simp only [encode, List.foldl_cons, ih, hbyte, hsplit]
    ring

theorem foldl_lt (bs : List UInt8) (acc : ℕ) :
    bs.foldl (fun acc b => acc * 256 + b.toNat) acc < (acc + 1) * 256 ^ bs.length := by
  induction bs generalizing acc with
  | nil => simp
  | cons b bs ih =>
    have hb := b.toNat_lt
    have hle : (acc * 256 + b.toNat + 1) * 256 ^ bs.length ≤ ((acc + 1) * 256) * 256 ^ bs.length :=
      Nat.mul_le_mul_right _ (by omega)
    rw [List.foldl_cons, List.length_cons, pow_succ, Nat.mul_comm (256 ^ bs.length), ← Nat.mul_assoc]
    exact (ih _).trans_le hle

theorem decode_lt (bs : List UInt8) : decode bs < 256 ^ bs.length := by
  simpa [decode] using foldl_lt bs 0

theorem decode_encode (w n : ℕ) : decode (encode w n) = n % 256 ^ w := by
  simpa [decode] using foldl_encode w n 0

theorem decode_encode_of_lt {w n : ℕ} (h : n < 256 ^ w) : decode (encode w n) = n := by
  rw [decode_encode, Nat.mod_eq_of_lt h]

theorem encode_mod_pow {w v : ℕ} (h : w ≤ v) (n : ℕ) : encode w (n % 256 ^ v) = encode w n := by
  induction w with
  | zero => rfl
  | succ w ih =>
    have hpow : 256 ^ v = 256 ^ w * 256 ^ (v - w) := by rw [← pow_add]; congr 1; omega
    have hdvd : 256 ∣ 256 ^ (v - w) := dvd_pow_self _ (by omega)
    have hbyte : UInt8.ofNat (n % 256 ^ v / 256 ^ w) = UInt8.ofNat (n / 256 ^ w) := by
      rw [← UInt8.toNat_inj, UInt8.toNat_ofNat', UInt8.toNat_ofNat', hpow, Nat.mod_mul_right_div_self]
      exact Nat.mod_mod_of_dvd _ hdvd
    rw [encode, encode, hbyte, ih (by omega)]

theorem encode_mod (w n : ℕ) : encode w (n % 256 ^ w) = encode w n := encode_mod_pow le_rfl n

end BigEndian

/-! ### Masks -/

namespace Mask

theorem or_and (a b m : UInt16) : (a ||| b) &&& m = a &&& m ||| b &&& m := by
  rw [← UInt16.toNat_inj]
  simp only [UInt16.toNat_and, UInt16.toNat_or, Nat.and_or_distrib_right]

theorem and_or_self (a m : UInt16) : a &&& m ||| m = m := by
  rw [← UInt16.toNat_inj, UInt16.toNat_or, UInt16.toNat_and]
  refine Nat.eq_of_testBit_eq fun i => ?_
  simp

/-- A fact about a byte that holds of all 256. -/
theorem forall_byte {P : UInt8 → Prop} (h : ∀ n : Fin 256, P (UInt8.ofFin n)) (b : UInt8) : P b := h b.toFin

end Mask
