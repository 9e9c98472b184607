import Mathlib

/-!
The one's-complement sum of 16-bit words and the checksum built on it (RFC 1071). A byte string is cut
into big-endian words, an odd last byte being the high half of a word. It verifies when its sum, with
every carry added back in, has all bits set; in terms of the plain sum: when that is a positive multiple
of `0xffff`.
-/

namespace OnesComplement

/-- Addition with the carry out of the top bit added back in. -/
def add (a b : ℕ) : ℕ := if a + b < 0x10000 then a + b else a + b - 0xffff

def sum (ws : List ℕ) : ℕ := ws.foldl add 0

def words : List UInt8 → List ℕ
  | [] => []
  | [a] => [a.toNat * 256]
  | a :: b :: rest => (a.toNat * 256 + b.toNat) :: words rest

def Verifies (bs : List UInt8) : Prop := sum (words bs) = 0xffff

instance (bs : List UInt8) : Decidable (Verifies bs) := inferInstanceAs (Decidable (_ = _))

def total (bs : List UInt8) : ℕ := (words bs).sum

theorem word_lt (bs : List UInt8) : ∀ w ∈ words bs, w < 0x10000 := by
  induction bs using words.induct with
  | case1 => simp [words]
  | case2 a =>
    have := a.toNat_lt
    simp only [words, List.mem_singleton, forall_eq]
    omega
  | case3 a b rest ih =>
    have := a.toNat_lt
    have := b.toNat_lt
    simp only [words, List.mem_cons, forall_eq_or_imp]
    exact ⟨by omega, ih⟩

theorem foldl_add (ws : List ℕ) (acc : ℕ) (hacc : acc < 0x10000) (hws : ∀ w ∈ ws, w < 0x10000) :
    ws.foldl add acc < 0x10000 ∧ ws.foldl add acc % 0xffff = (acc + ws.sum) % 0xffff ∧
      (ws.foldl add acc = 0 ↔ acc + ws.sum = 0) := by
  induction ws generalizing acc with
  | nil => simp [hacc]
  | cons w ws ih =>
    have hw := hws w (by simp)
    have hadd : add acc w < 0x10000 ∧ add acc w % 0xffff = (acc + w) % 0xffff ∧
        (add acc w = 0 ↔ acc + w = 0) := by
      unfold add
      split_ifs with h <;> omega
    obtain ⟨hlt, hmod, hzero⟩ := ih (add acc w) hadd.1 fun v hv => hws v (by simp [hv])
    rw [List.foldl_cons, List.sum_cons]
    refine ⟨hlt, ?_, by omega⟩
    rw [hmod, Nat.add_mod, hadd.2.1, ← Nat.add_mod, Nat.add_assoc]

theorem verifies_iff (bs : List UInt8) :
    Verifies bs ↔ 0 < total bs ∧ total bs % 0xffff = 0 := by
  obtain ⟨hlt, hmod, hzero⟩ := foldl_add (words bs) 0 (by norm_num) (word_lt bs)
  rw [Verifies, total, sum]
  omega

theorem words_append {xs ys : List UInt8} (h : xs.length % 2 = 0) :
    words (xs ++ ys) = words xs ++ words ys := by
  induction xs using words.induct with
  | case1 => rfl
  | case2 a => simp at h
  | case3 a b rest ih =>
    have hrest : rest.length % 2 = 0 := by
      simp only [List.length_cons] at h
      omega
    simp only [List.cons_append, words, ih hrest]

theorem total_append {xs ys : List UInt8} (h : xs.length % 2 = 0) :
    total (xs ++ ys) = total xs + total ys := by
  rw [total, words_append h, List.sum_append]
  rfl

@[simp] theorem total_nil : total [] = 0 := rfl

@[simp] theorem total_pair (a b : UInt8) : total [a, b] = a.toNat * 256 + b.toNat := by
  simp [total, words]

theorem total_le (bs : List UInt8) : total bs ≤ bs.length * 0xffff := by
  induction bs using words.induct with
  | case1 => simp
  | case2 a =>
    have := a.toNat_lt
    simp only [total, words, List.sum_singleton, List.length_singleton]
    omega
  | case3 a b rest ih =>
    have := a.toNat_lt
    have := b.toNat_lt
    simp only [total, words, List.sum_cons, List.length_cons] at ih ⊢
    omega

/-- What a byte at offset `k` counts for: it is the high half of its word at an even offset. -/
def weight (k : ℕ) : ℕ := if k % 2 = 0 then 256 else 1

theorem weight_add_two (k : ℕ) : weight (k + 2) = weight k := by
  simp [weight]

theorem total_set {bs : List UInt8} {k : ℕ} {a : UInt8} (h : bs[k]? = some a) (b : UInt8) :
    total (bs.set k b) + weight k * a.toNat = total bs + weight k * b.toNat := by
  induction bs using words.induct generalizing k with
  | case1 => simp at h
  | case2 x =>
    cases k with
    | zero =>
      obtain rfl : x = a := by simpa using h
      simp [total, words, weight]
      omega
    | succ k => simp at h
  | case3 x y rest ih =>
    match k with
    | 0 =>
      obtain rfl : x = a := by simpa using h
      simp [total, words, weight]
      omega
    | 1 =>
      obtain rfl : y = a := by simpa using h
      simp [total, words, weight]
      omega
    | k + 2 =>
      have hrest := ih (k := k) (by simpa using h)
      simp only [total, weight_add_two, List.set_cons_succ, words, List.sum_cons] at hrest ⊢
      omega

/-- Adding the upper half back onto the lower one. -/
def fold (n : ℕ) : ℕ := n / 0x10000 + n % 0x10000

theorem fold_mod (n : ℕ) : fold n % 0xffff = n % 0xffff := by
  unfold fold
  omega

theorem fold_eq_zero (n : ℕ) : fold n = 0 ↔ n = 0 := by
  unfold fold
  omega

/-- Four folds bring any sum of up to 48 bits into one word. -/
theorem fold_four_lt {n : ℕ} (h : n < 2 ^ 48) : fold (fold (fold (fold n))) < 0x10000 := by
  unfold fold
  omega

/-- Adding the upper half back in until there is none. -/
def carry : ℕ → ℕ → ℕ
  | 0, n => n
  | rounds + 1, n => if n / 0x10000 = 0 then n else carry rounds (fold n)

theorem carry_mod (rounds n : ℕ) :
    carry rounds n % 0xffff = n % 0xffff ∧ (carry rounds n = 0 ↔ n = 0) := by
  induction rounds generalizing n with
  | zero => exact ⟨rfl, Iff.rfl⟩
  | succ rounds ih =>
    rw [carry]
    split_ifs
    · exact ⟨rfl, Iff.rfl⟩
    · obtain ⟨hmod, hzero⟩ := ih (fold n)
      exact ⟨hmod.trans (fold_mod n), hzero.trans (fold_eq_zero n)⟩

/-- A 32-bit sum is a word after two rounds. -/
theorem carry_lt {n : ℕ} (h : n < 2 ^ 32) (rounds : ℕ) : carry (rounds + 2) n < 0x10000 := by
  have hdone : ∀ rounds m, m < 0x10000 → carry rounds m < 0x10000 := by
    intro rounds m hm
    cases rounds with
    | zero => exact hm
    | succ rounds => rwa [carry, if_pos (Nat.div_eq_of_lt hm)]
  rw [carry]
  split_ifs with h0
  · omega
  · rw [carry]
    split_ifs with h1
    · omega
    · refine hdone _ _ ?_
      unfold fold
      omega

/-- The word that a sum comes to with every carry added back in: 0 for 0 only. -/
def norm (n : ℕ) : ℕ := if n = 0 then 0 else (n - 1) % 0xffff + 1

theorem norm_le (n : ℕ) : norm n ≤ 0xffff := by
  unfold norm
  split_ifs <;> omega

theorem norm_mod (n : ℕ) : norm n % 0xffff = n % 0xffff ∧ (norm n = 0 ↔ n = 0) := by
  cases n with
  | zero => simp [norm]
  | succ k =>
    rw [norm, if_neg (Nat.succ_ne_zero k), Nat.add_sub_cancel]
    omega

/-- A word is known by its residue and by being 0 or not. -/
theorem eq_norm {m n : ℕ} (hlt : m < 0x10000) (hmod : m % 0xffff = n % 0xffff) (hzero : m = 0 ↔ n = 0) :
    m = norm n := by
  unfold norm
  split_ifs <;> omega

theorem carry_eq_norm {n : ℕ} (h : n < 2 ^ 32) (rounds : ℕ) : carry (rounds + 2) n = norm n :=
  eq_norm (carry_lt h rounds) (carry_mod _ n).1 (carry_mod _ n).2

theorem norm_norm_add (a b : ℕ) : norm (norm a + b) = norm (a + b) := by
  obtain ⟨hmod, hzero⟩ := norm_mod a
  obtain ⟨hmod', hzero'⟩ := norm_mod (norm a + b)
  refine eq_norm (by have := norm_le (norm a + b); omega) ?_ (by omega)
  rw [hmod', Nat.add_mod, hmod, ← Nat.add_mod]

/-- The words read with the low byte first, an odd last byte being the low half. -/
def totalSwapped : List UInt8 → ℕ
  | [] => 0
  | [a] => a.toNat
  | a :: b :: rest => a.toNat + b.toNat * 256 + totalSwapped rest

/-- Swapping the bytes of every word multiplies the sum by 256. -/
theorem totalSwapped_mod (bs : List UInt8) :
    totalSwapped bs % 0xffff = 256 * total bs % 0xffff ∧ (totalSwapped bs = 0 ↔ total bs = 0) := by
  induction bs using words.induct with
  | case1 => simp [totalSwapped]
  | case2 a =>
    simp only [totalSwapped, total, words, List.sum_singleton]
    omega
  | case3 a b rest ih =>
    simp only [totalSwapped, total, words, List.sum_cons] at ih ⊢
    omega

theorem totalSwapped_append {xs ys : List UInt8} (h : xs.length % 2 = 0) :
    totalSwapped (xs ++ ys) = totalSwapped xs + totalSwapped ys := by
  induction xs using words.induct with
  | case1 => simp [totalSwapped]
  | case2 a => simp at h
  | case3 a b rest ih =>
    have hrest : rest.length % 2 = 0 := by
      simp only [List.length_cons] at h
      omega
    simp only [List.cons_append, totalSwapped, ih hrest]
    omega

theorem totalSwapped_le (bs : List UInt8) : totalSwapped bs ≤ (bs.length + 1) / 2 * 0xffff := by
  induction bs using words.induct with
  | case1 => simp [totalSwapped]
  | case2 a =>
    have := a.toNat_lt
    simp only [totalSwapped, List.length_singleton]
    omega
  | case3 a b rest ih =>
    have := a.toNat_lt
    have := b.toNat_lt
    simp only [totalSwapped, List.length_cons]
    omega

/-- The byte order of the sum does not matter for the verdict. -/
theorem verifies_iff_swapped (bs : List UInt8) :
    Verifies bs ↔ 0 < totalSwapped bs ∧ totalSwapped bs % 0xffff = 0 := by
  obtain ⟨hmod, hzero⟩ := totalSwapped_mod bs
  rw [verifies_iff]
  omega

/-- The complement of the folded sum makes a field that verifies. -/
theorem complement_verifies {n c : ℕ} (hc : c < 0x10000) (hmod : c % 0xffff = n % 0xffff)
    (hzero : c = 0 ↔ n = 0) : 0 < n + (0xffff - c) ∧ (n + (0xffff - c)) % 0xffff = 0 := by
  omega

end OnesComplement
