import Mathlib

/-!
Overwriting a stretch of a buffer. A patch inside one part of a concatenation leaves the other part
alone, so a header that is written field by field can be followed part by part.
-/

namespace Buffer

variable {α : Type}

def patch (bs : List α) (lo : ℕ) (src : List α) : List α :=
  bs.take lo ++ src ++ bs.drop (lo + src.length)

variable {bs xs ys src : List α} {lo : ℕ}

@[simp] theorem length_patch (h : lo + src.length ≤ bs.length) :
    (patch bs lo src).length = bs.length := by
  simp only [patch, List.length_append, List.length_take, List.length_drop]
  omega

theorem getElem?_patch (h : lo + src.length ≤ bs.length) (k : ℕ) :
    (patch bs lo src)[k]? = if lo ≤ k ∧ k < lo + src.length then src[k - lo]? else bs[k]? := by
  have htake : (bs.take lo).length = lo := by simp only [List.length_take]; omega
  rw [patch, List.append_assoc, List.getElem?_append, htake]
  by_cases hk : k < lo
  · rw [if_pos hk, if_neg (by omega), List.getElem?_take_of_lt hk]
  · rw [if_neg hk, List.getElem?_append]
    by_cases hs : k - lo < src.length
    · rw [if_pos hs, if_pos (by omega)]
    · rw [if_neg hs, if_neg (by omega), List.getElem?_drop]
      congr 1
      omega

theorem getElem?_patch_of_not (h : lo + src.length ≤ bs.length) {k : ℕ}
    (hk : k < lo ∨ lo + src.length ≤ k) : (patch bs lo src)[k]? = bs[k]? := by
  rw [getElem?_patch h, if_neg (by omega)]

theorem patch_append_left (h : lo + src.length ≤ xs.length) :
    patch (xs ++ ys) lo src = patch xs lo src ++ ys := by
  rw [patch, patch, List.take_append_of_le_length (by omega), List.drop_append_of_le_length h]
  simp only [List.append_assoc]

theorem patch_append_right (h : xs.length ≤ lo) :
    patch (xs ++ ys) lo src = xs ++ patch ys (lo - xs.length) src := by
  have hlo : lo + src.length - xs.length = lo - xs.length + src.length := by omega
  rw [patch, patch, List.take_append, List.drop_append, List.take_of_length_le h,
    List.drop_eq_nil_of_le (by omega), hlo]
  simp only [List.append_assoc, List.nil_append]

theorem patch_all (h : src.length = bs.length) : patch bs 0 src = src := by
  simp [patch, h]

theorem patch_zero : patch bs 0 src = src ++ bs.drop src.length := by
  simp [patch]

theorem patch_patch {src' : List α} (h : lo + src.length ≤ bs.length)
    (hlen : src'.length = src.length) : patch (patch bs lo src) lo src' = patch bs lo src' := by
  apply List.ext_getElem?
  intro k
  rw [getElem?_patch (by rw [length_patch h]; omega), getElem?_patch h,
    getElem?_patch (by omega)]
  split_ifs <;> first | rfl | omega

theorem set_eq_patch {k : ℕ} (b : α) (h : k < bs.length) : bs.set k b = patch bs k [b] := by
  rw [patch, List.set_eq_take_append_cons_drop, if_pos h]
  simp

theorem set_set_eq_patch {k : ℕ} (a b : α) (h : k + 2 ≤ bs.length) :
    (bs.set k a).set (k + 1) b = patch bs k [a, b] := by
  apply List.ext_getElem?
  intro n
  rw [getElem?_patch (by simpa using h), List.getElem?_set, List.getElem?_set, List.length_set]
  by_cases h1 : n = k + 1
  · subst h1
    simp [show k + 1 < bs.length by omega]
  · by_cases h0 : n = k
    · subst h0
      simp [show n < bs.length by omega]
    · rw [if_neg (Ne.symm h1), if_neg (Ne.symm h0), if_neg (by simp; omega)]

theorem slice_patch (h : lo + src.length ≤ bs.length) :
    ((patch bs lo src).drop lo).take src.length = src := by
  have htake : (bs.take lo).length = lo := by simp only [List.length_take]; omega
  rw [patch, List.append_assoc, List.drop_append_of_le_length (by omega),
    List.drop_eq_nil_of_le (by omega), List.nil_append, List.take_left' rfl]

end Buffer
