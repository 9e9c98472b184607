import Tincr.Lib.Radix

/-!
The base64 of keys and invitations. A group of three bytes is a number with the first byte lowest, written down in base
64 with the lowest digit first and without padding. The decoder takes the characters of both alphabets.
-/

namespace Tincr.B64

open Radix

abbrev Alphabet := Vector Char 64

def ALPHABET_STD : Alphabet :=
  ⟨"ABCDEFGHIJKLMNOPQRSTUVWXYZabcdefghijklmnopqrstuvwxyz0123456789+/".toList.toArray, by decide⟩

def ALPHABET_URL : Alphabet :=
  ⟨"ABCDEFGHIJKLMNOPQRSTUVWXYZabcdefghijklmnopqrstuvwxyz0123456789-_".toList.toArray, by decide⟩

theorem and_63_lt (t : ℕ) : t &&& 63 < 64 := Nat.lt_succ_of_le Nat.and_le_right

/-- `nchars` characters, the lowest six bits first. -/
def emit (alphabet : Alphabet) : ℕ → ℕ → List Char
  | 0, _ => []
  | nchars + 1, t => alphabet.get ⟨t &&& 63, and_63_lt t⟩ :: emit alphabet nchars (t >>> 6)

def triplet (chunk : List UInt8) : ℕ :=
  (chunk.getD 0 0).toNat ||| (chunk.getD 1 0).toNat <<< 8 ||| (chunk.getD 2 0).toNat <<< 16

def encodeWith (alphabet : Alphabet) (src : List UInt8) : List Char :=
  (chunks 3 src).flatMap fun chunk => emit alphabet (chunk.length + 1) (triplet chunk)

def encode (src : List UInt8) : List Char := encodeWith ALPHABET_STD src

def encodeUrlsafe (src : List UInt8) : List Char := encodeWith ALPHABET_URL src

/-- The value of a character; those beyond ASCII are bytes above 127, which stand for nothing. -/
def decodeByte (c : Char) : Option ℕ :=
  if 'A' ≤ c ∧ c ≤ 'Z' then some (c.toNat - 'A'.toNat)
  else if 'a' ≤ c ∧ c ≤ 'z' then some (c.toNat - 'a'.toNat + 26)
  else if '0' ≤ c ∧ c ≤ '9' then some (c.toNat - '0'.toNat + 52)
  else if c = '+' ∨ c = '-' then some 62
  else if c = '/' ∨ c = '_' then some 63
  else none

def toLeBytes (n : ℕ) : List UInt8 := (digits 256 4 n).map UInt8.ofNat

/-- What is left of a group at the end: one character is never a whole byte. -/
def decodeTail (out : List UInt8) (triplet : ℕ) : ℕ → Option (List UInt8)
  | 0 => some out
  | 1 => none
  | i + 2 => some (out ++ (toLeBytes triplet).take (i + 1))

/-- `i` characters of the group have been read. -/
def decodeLoop (out : List UInt8) (triplet i : ℕ) : List Char → Option (List UInt8)
  | [] => decodeTail out triplet i
  | c :: src =>
    match decodeByte c with
    | none => none
    | some v =>
      if i + 1 = 4 then decodeLoop (out ++ (toLeBytes (triplet ||| v <<< (6 * i))).take 3) 0 0 src
      else decodeLoop out (triplet ||| v <<< (6 * i)) (i + 1) src

def decode (src : List Char) : Option (List UInt8) := decodeLoop [] 0 0 src

/-! ### Characters and their values -/

theorem emit_eq (alphabet : Alphabet) (n t : ℕ) :
    (emit alphabet n t).map decodeByte = (digits 64 n t).map fun d => decodeByte (alphabet.get (Fin.ofNat 64 d)) := by
  induction n generalizing t with
  | zero => rfl
  | succ n ih =>
    have hand : t &&& 63 = t % 64 := Nat.and_two_pow_sub_one_eq_mod t 6
    have hshift : t >>> 6 = t / 64 := Nat.shiftRight_eq_div_pow t 6
    rw [emit, digits, List.map_cons, List.map_cons, ih, hshift]
    congr 3
    rw [Fin.ext_iff]
    simp [hand]

def Reads (alphabet : Alphabet) : Prop := ∀ d : Fin 64, decodeByte (alphabet.get d) = some d.val

theorem reads_std : Reads ALPHABET_STD := by
  unfold Reads
  decide +kernel

theorem reads_url : Reads ALPHABET_URL := by
  unfold Reads
  decide +kernel

variable {alphabet : Alphabet} {c : Char} {a : List UInt8}

theorem map_decodeByte_emit (h : Reads alphabet) (n t : ℕ) :
    (emit alphabet n t).map decodeByte = (digits 64 n t).map some := by
  rw [emit_eq]
  refine List.map_congr_left fun d hd => ?_
  rw [h, Fin.val_ofNat, Nat.mod_eq_of_lt (lt_of_mem_digits (by decide) hd)]

/-! ### Groups -/

theorem or_shift {ds : List ℕ} (h : ∀ d ∈ ds, d < 64) (v : ℕ) :
    Nat.ofDigits 64 ds ||| v <<< (6 * ds.length) = Nat.ofDigits 64 (ds ++ [v]) := by
  have hlt : Nat.ofDigits 64 ds < 2 ^ (6 * ds.length) := by
    rw [pow_mul]
    exact Nat.ofDigits_lt_base_pow_length (by decide) h
  rw [Nat.or_comm, ← Nat.shiftLeft_add_eq_or_of_lt hlt, Nat.ofDigits_append, Nat.ofDigits_singleton,
    Nat.shiftLeft_eq, pow_mul, Nat.add_comm, Nat.mul_comm]
  rfl

variable {out : List UInt8} {cs rest : List Char} {ds es : List ℕ}

theorem decodeLoop_cons {v : ℕ} (hc : decodeByte c = some v) (hds : ∀ d ∈ ds, d < 64) :
    decodeLoop out (Nat.ofDigits 64 ds) ds.length (c :: rest) =
      if ds.length + 1 = 4 then decodeLoop (out ++ (toLeBytes (Nat.ofDigits 64 (ds ++ [v]))).take 3) 0 0 rest
      else decodeLoop out (Nat.ofDigits 64 (ds ++ [v])) (ds ++ [v]).length rest := by
  rw [decodeLoop, hc]
  simp only [or_shift hds, List.length_append, List.length_singleton]

/-- Characters that do not fill a group are kept for later. -/
theorem decodeLoop_pending (hvals : cs.map decodeByte = es.map some) (hlt : ∀ d ∈ ds ++ es, d < 64)
    (hlen : (ds ++ es).length < 4) : decodeLoop out (Nat.ofDigits 64 ds) ds.length (cs ++ rest) =
      decodeLoop out (Nat.ofDigits 64 (ds ++ es)) (ds ++ es).length rest := by
  induction cs generalizing ds es with
  | nil =>
    obtain rfl : es = [] := by simpa using hvals.symm
    rw [List.append_nil, List.nil_append]
  | cons c cs ih =>
    obtain ⟨e, es, rfl⟩ : ∃ e es', es = e :: es' := by
      cases es with
      | nil => simp at hvals
      | cons e es => exact ⟨e, es, rfl⟩
    obtain ⟨hc, hcs⟩ := List.cons.inj hvals
    have hassoc : ds ++ e :: es = (ds ++ [e]) ++ es := by simp
    rw [hassoc] at hlt hlen ⊢
    have hne : ds.length + 1 ≠ 4 := by
      simp only [List.length_append, List.length_singleton] at hlen
      omega
    rw [List.cons_append, decodeLoop_cons hc fun d hd => hlt d (by simp [hd]), if_neg hne, ih hcs hlt hlen]

theorem decodeLoop_group (hvals : cs.map decodeByte = es.map some) (hlt : ∀ d ∈ es, d < 64) (hlen : es.length = 4) :
    decodeLoop out 0 0 (cs ++ rest) = decodeLoop (out ++ (toLeBytes (Nat.ofDigits 64 es)).take 3) 0 0 rest := by
  obtain ⟨ds, v, rfl⟩ : ∃ ds v, es = ds ++ [v] := by
    rcases List.eq_nil_or_concat es with rfl | ⟨ds, v, rfl⟩
    · simp at hlen
    · exact ⟨ds, v, by simp⟩
  rw [List.map_append] at hvals
  obtain ⟨ds', last, rfl, hds, hlast⟩ := List.map_eq_append_iff.1 hvals
  obtain ⟨c, rfl, hc⟩ : ∃ c, last = [c] ∧ decodeByte c = some v := by
    obtain ⟨c, tl, rfl, hc, htl⟩ := List.map_eq_cons_iff.1 hlast
    obtain rfl := List.map_eq_nil_iff.1 htl
    exact ⟨c, rfl, hc⟩
  have hdslen : ds.length = 3 := by simpa using hlen
  have hdslt : ∀ d ∈ ds, d < 64 := fun d hd => hlt d (List.mem_append_left _ hd)
  have hpending : decodeLoop out 0 0 (ds' ++ [c] ++ rest) = decodeLoop out (Nat.ofDigits 64 ds) ds.length (c :: rest) := by
    rw [List.append_assoc]
    exact @decodeLoop_pending out ds' ([c] ++ rest) [] ds hds hdslt (by rw [List.nil_append, hdslen]; decide)
  rw [hpending, decodeLoop_cons hc hdslt, if_pos (by rw [hdslen])]

theorem triplet_eq {chunk : List UInt8} (h : chunk.length ≤ 3) :
    triplet chunk = Nat.ofDigits 256 (chunk.map UInt8.toNat) := by
  have hor : ∀ {a b k : ℕ}, a < 2 ^ k → a ||| b <<< k = a + 2 ^ k * b := by
    intro a b k hlt
    rw [Nat.or_comm, ← Nat.shiftLeft_add_eq_or_of_lt hlt, Nat.shiftLeft_eq, Nat.add_comm, Nat.mul_comm]
  have hsum : triplet chunk =
      (chunk.getD 0 0).toNat + 2 ^ 8 * (chunk.getD 1 0).toNat + 2 ^ 16 * (chunk.getD 2 0).toNat := by
    have h0 := (chunk.getD 0 0).toNat_lt
    have h1 := (chunk.getD 1 0).toNat_lt
    rw [triplet, hor h0, hor (by omega)]
  rw [hsum]
  match chunk, h with
  | [], _ => rfl
  | [x], _ => simp
  | [x, y], _ => simp [Nat.ofDigits]
  | [x, y, z], _ =>
    simp [Nat.ofDigits]
    omega

theorem take_toLeBytes {a : List UInt8} (h : a.length ≤ 4) :
    (toLeBytes (Nat.ofDigits 256 (a.map UInt8.toNat))).take a.length = a := by
  have hlt : ∀ d ∈ a.map UInt8.toNat, d < 256 := by
    intro d hd
    obtain ⟨b, _, rfl⟩ := List.mem_map.1 hd
    exact b.toNat_lt
  have hdigits := digits_ofDigits hlt
  rw [List.length_map] at hdigits
  rw [toLeBytes, ← List.map_take, take_digits h, hdigits, List.map_map]
  exact (List.map_congr_left fun b _ => UInt8.ofNat_toNat).trans (List.map_id a)

/-- The digits of a group in base 64 are those of the same number. -/
theorem ofDigits_group (h : a.length ≤ 3) :
    Nat.ofDigits 64 (digits 64 (a.length + 1) (triplet a)) = Nat.ofDigits 256 (a.map UInt8.toNat) := by
  have hlt : Nat.ofDigits 256 (a.map UInt8.toNat) < 256 ^ a.length := by
    have hbytes : ∀ d ∈ a.map UInt8.toNat, d < 256 := by
      intro d hd
      obtain ⟨b, _, rfl⟩ := List.mem_map.1 hd
      exact b.toNat_lt
    simpa using Nat.ofDigits_lt_base_pow_length (by decide) hbytes
  have hle : 256 ^ a.length ≤ 64 ^ (a.length + 1) := by
    interval_cases a.length <;> decide
  rw [ofDigits_digits, triplet_eq h, Nat.mod_eq_of_lt (hlt.trans_le hle)]

/-- What the encoder makes of a group is read back, in front of anything or at the end. -/
theorem decodeLoop_emit (hreads : Reads alphabet) (hne : a ≠ []) (hle : a.length ≤ 3)
    (hfull : rest ≠ [] → a.length = 3) :
    decodeLoop out 0 0 (emit alphabet (a.length + 1) (triplet a) ++ rest) = decodeLoop (out ++ a) 0 0 rest := by
  have hvals := map_decodeByte_emit hreads (a.length + 1) (triplet a)
  have hlt : ∀ d ∈ digits 64 (a.length + 1) (triplet a), d < 64 := fun d hd => lt_of_mem_digits (by decide) hd
  have hback := @take_toLeBytes a (by omega)
  by_cases hlen : a.length = 3
  · rw [decodeLoop_group hvals hlt (by rw [length_digits, hlen]), ofDigits_group hle, ← hlen, hback]
  · obtain rfl : rest = [] := by
      by_contra hrest
      exact hlen (hfull hrest)
    have hpending := @decodeLoop_pending out _ [] [] _ hvals hlt (by rw [List.nil_append, length_digits]; omega)
    have hpos := List.length_pos_of_ne_nil hne
    obtain ⟨k, hk⟩ : ∃ k, a.length = k + 1 := ⟨a.length - 1, by omega⟩
    rw [List.nil_append, length_digits, ofDigits_group hle] at hpending
    refine hpending.trans ?_
    rw [hk] at hback
    rw [decodeLoop, decodeLoop, hk, decodeTail, decodeTail, hback]

theorem encodeWith_append (alphabet : Alphabet) {l : List UInt8} (hne : a ≠ []) (hle : a.length ≤ 3)
    (hfull : l ≠ [] → a.length = 3) :
    encodeWith alphabet (a ++ l) = emit alphabet (a.length + 1) (triplet a) ++ encodeWith alphabet l := by
  rw [encodeWith, chunks_append hne hle hfull, List.flatMap_cons]
  rfl

theorem exists_get (h : c ∈ alphabet.toList) : ∃ d, alphabet.get d = c := by
  obtain ⟨i, hi, rfl⟩ := List.mem_iff_getElem.1 h
  rw [Vector.length_toList] at hi
  exact ⟨⟨i, hi⟩, by simp [Vector.get_eq_getElem]⟩

theorem mem_emit {n t : ℕ} (h : c ∈ emit alphabet n t) : c ∈ alphabet.toList := by
  induction n generalizing t with
  | zero => cases h
  | succ n ih =>
    rcases List.mem_cons.1 h with rfl | h
    · exact Vector.mem_toList_iff.2 (Vector.getElem_mem _)
    · exact ih h

theorem mem_encodeWith {x : List UInt8} (h : c ∈ encodeWith alphabet x) : c ∈ alphabet.toList := by
  obtain ⟨chunk, _, hc⟩ := List.mem_flatMap.1 h
  exact mem_emit hc

theorem length_emit (alphabet : Alphabet) (n t : ℕ) : (emit alphabet n t).length = n := by
  induction n generalizing t with
  | zero => rfl
  | succ n ih => rw [emit, List.length_cons, ih]

theorem length_encodeWith (alphabet : Alphabet) (x : List UInt8) :
    (encodeWith alphabet x).length = (4 * x.length + 2) / 3 := by
  induction x using chunks_induction (n := 3) (by decide) with
  | nil => simp [encodeWith, chunks]
  | group a l hne hle hfull ih =>
    have hpos : 0 < a.length := List.length_pos_of_ne_nil hne
    rw [encodeWith] at ih ⊢
    rw [chunks_append hne hle hfull, List.flatMap_cons, List.length_append, length_emit, ih, List.length_append]
    by_cases hl : l = []
    · subst hl
      rw [List.length_nil]
      omega
    · have hthree := hfull hl
      omega

theorem decodeLoop_encodeWith (hreads : Reads alphabet) (x : List UInt8) (out : List UInt8) :
    decodeLoop out 0 0 (encodeWith alphabet x) = some (out ++ x) := by
  induction x using chunks_induction (n := 3) (by decide) generalizing out with
  | nil =>
    rw [List.append_nil, encodeWith, chunks]
    rfl
  | group a l hne hle hfull ih =>
    have hrest : encodeWith alphabet l ≠ [] → a.length = 3 := by
      intro hcode
      refine hfull ?_
      rintro rfl
      exact hcode (by rw [encodeWith, chunks]; rfl)
    rw [encodeWith_append alphabet hne hle hfull, decodeLoop_emit hreads hne hle hrest, ih, List.append_assoc]

theorem decode_encode (x : List UInt8) : decode (encode x) = some x := decodeLoop_encodeWith reads_std x []

theorem decode_encodeUrlsafe (x : List UInt8) : decode (encodeUrlsafe x) = some x := decodeLoop_encodeWith reads_url x []

/-! ### What is decoded -/

def InAlphabet (c : Char) : Prop := c ∈ ALPHABET_STD.toList ∨ c ∈ ALPHABET_URL.toList

instance (c : Char) : Decidable (InAlphabet c) := inferInstanceAs (Decidable (_ ∨ _))

theorem lt_of_decodeByte (h : (decodeByte c).isSome) : c.toNat < 128 := by
  have hle : ∀ {d : Char}, c ≤ d → c.toNat ≤ d.toNat := fun hcd => hcd
  unfold decodeByte at h
  split_ifs at h with hupper hlower hdigit hplus hslash
  · exact (hle hupper.2).trans_lt (by decide)
  · exact (hle hlower.2).trans_lt (by decide)
  · exact (hle hdigit.2).trans_lt (by decide)
  · rcases hplus with rfl | rfl <;> decide
  · rcases hslash with rfl | rfl <;> decide
  · cases h

theorem Reads.isSome (h : Reads alphabet) (hc : c ∈ alphabet.toList) : (decodeByte c).isSome := by
  obtain ⟨d, rfl⟩ := exists_get hc
  rw [h d, Option.isSome_some]

theorem decodeByte_isSome_iff (c : Char) : (decodeByte c).isSome ↔ InAlphabet c := by
  constructor
  · intro h
    have hall : ∀ n : Fin 128, (decodeByte (Char.ofNat n)).isSome → InAlphabet (Char.ofNat n) := by decide +kernel
    have hc := hall ⟨c.toNat, lt_of_decodeByte h⟩
    rw [Char.ofNat_toNat] at hc
    exact hc h
  · rintro (h | h)
    · exact reads_std.isSome h
    · exact reads_url.isSome h

theorem length_toLeBytes (n : ℕ) : (toLeBytes n).length = 4 := by rw [toLeBytes, List.length_map, length_digits]

theorem decodeTail_cases {out bs : List UInt8} {t i : ℕ} (hi : i < 4) :
    ((decodeTail out t i).isSome ↔ i % 4 ≠ 1) ∧
      (decodeTail out t i = some bs → bs.length = out.length + 3 * i / 4) := by
  match i, hi with
  | 0, _ => exact ⟨by simp [decodeTail], fun h => by simp [Option.some.inj h.symm]⟩
  | 1, _ => exact ⟨by simp [decodeTail], fun h => by simp [decodeTail] at h⟩
  | i + 2, hi =>
    have hmod : (i + 2) % 4 ≠ 1 := by omega
    refine ⟨by simp [decodeTail, hmod], fun h => ?_⟩
    rw [← Option.some.inj h, List.length_append, List.length_take, length_toLeBytes]
    omega

theorem decodeLoop_isSome_iff {out : List UInt8} {t i : ℕ} (hi : i < 4) (src : List Char) :
    (decodeLoop out t i src).isSome ↔ (∀ c ∈ src, InAlphabet c) ∧ (i + src.length) % 4 ≠ 1 := by
  induction src generalizing out t i with
  | nil =>
    rw [decodeLoop, List.length_nil, Nat.add_zero]
    simpa using (@decodeTail_cases out [] t i hi).1
  | cons c src ih =>
    rw [decodeLoop, List.forall_mem_cons, ← decodeByte_isSome_iff]
    cases decodeByte c with
    | none => simp
    | some v =>
      dsimp only
      split_ifs with hfull
      · rw [ih (by decide), List.length_cons]
        simp only [Option.isSome_some, true_and]
        have : (i + (src.length + 1)) % 4 = (0 + src.length) % 4 := by omega
        rw [this]
      · rw [ih (by omega), List.length_cons]
        simp only [Option.isSome_some, true_and]
        rw [show i + 1 + src.length = i + (src.length + 1) by omega]

theorem length_of_decodeLoop {out bs : List UInt8} {t i : ℕ} (hi : i < 4) {src : List Char}
    (h : decodeLoop out t i src = some bs) : bs.length = out.length + 3 * (i + src.length) / 4 := by
  induction src generalizing out t i with
  | nil =>
    rw [decodeLoop] at h
    exact decodeTail_cases hi |>.2 h
  | cons c src ih =>
    rw [decodeLoop] at h
    cases hc : decodeByte c with
    | none => simp [hc] at h
    | some v =>
      rw [hc] at h
      dsimp only at h
      rw [List.length_cons]
      by_cases hfull : i + 1 = 4
      · rw [if_pos hfull] at h
        have hlen := ih (by decide) h
        rw [List.length_append, List.length_take, length_toLeBytes] at hlen
        omega
      · rw [if_neg hfull] at h
        have hlen := ih (by omega) h
        omega

theorem decode_isSome_iff (src : List Char) :
    (decode src).isSome ↔ (∀ c ∈ src, InAlphabet c) ∧ src.length % 4 ≠ 1 := by
  have h := @decodeLoop_isSome_iff [] 0 0 (by decide) src
  rwa [Nat.zero_add] at h

theorem length_of_decode {src : List Char} {bs : List UInt8} (h : decode src = some bs) :
    bs.length = 3 * src.length / 4 := by
  have hlen := length_of_decodeLoop (by decide) h
  rwa [List.length_nil, Nat.zero_add, Nat.zero_add] at hlen

end Tincr.B64
