import Mathlib

/-!
Text as bytes. Every text has one encoding, encodings of texts put together are that of the texts put together, and
below 128 a byte stands for its character and for nothing else, so a text and its bytes have the same newlines.
-/

namespace Utf8

def bytes (t : List Char) : List UInt8 := t.flatMap String.utf8EncodeChar

def decode (bs : List UInt8) : Option (List Char) := (String.fromUTF8? bs.toByteArray).map String.toList

@[simp] theorem bytes_append (s t : List Char) : bytes (s ++ t) = bytes s ++ bytes t := List.flatMap_append

@[simp] theorem bytes_cons (c : Char) (t : List Char) : bytes (c :: t) = String.utf8EncodeChar c ++ bytes t :=
  List.flatMap_cons

theorem fromUTF8_toByteArray (s : String) : String.fromUTF8? s.toByteArray = some s := by
  unfold String.fromUTF8?
  exact dif_pos s.isValidUTF8

theorem toByteArray_bytes (s : String) : (bytes s.toList).toByteArray = s.toByteArray := by
  have henc : (String.ofList s.toList).toByteArray = (bytes s.toList).toByteArray := String.toByteArray_ofList
  rw [← henc, String.ofList_toList]

theorem decode_bytes (t : List Char) : decode (bytes t) = some t := by
  have henc := toByteArray_bytes (String.ofList t)
  rw [String.toList_ofList] at henc
  rw [decode, henc, fromUTF8_toByteArray, Option.map_some, String.toList_ofList]

theorem bytes_injective : Function.Injective bytes := by
  intro s t h
  exact Option.some.inj ((decode_bytes s).symm.trans (h ▸ decode_bytes t))

/-- A byte below 128 is that of one character. -/
theorem mem_utf8EncodeChar {b : UInt8} (hb : b < 128) {c : Char} :
    b ∈ String.utf8EncodeChar c ↔ c.toNat = b.toNat := by
  have hlt : b.toNat < 128 := hb
  have hhigh : ∀ {k : ℕ}, 128 ≤ k → k < 256 → b ≠ UInt8.ofNat k := by
    intro k hlo hhi heq
    have hk : b.toNat = k := by rw [heq, UInt8.toNat_ofNat', Nat.mod_eq_of_lt hhi]
    omega
  have hval : c.val.toNat = c.toNat := rfl
  unfold String.utf8EncodeChar
  dsimp only
  rw [hval]
  split_ifs with hascii htwo hthree
  · rw [List.mem_singleton]
    constructor
    · rintro rfl
      rw [UInt8.toNat_ofNat', Nat.mod_eq_of_lt (by omega)]
    · intro heq
      rw [heq, UInt8.ofNat_toNat]
  -- the longer encodings have no byte below 128, and their characters are not below it
  · simp only [List.mem_cons, List.not_mem_nil, or_false]
    refine ⟨fun h => ?_, fun heq => by omega⟩
    rcases h with h | h <;> exact absurd h (hhigh (by omega) (by omega))
  · simp only [List.mem_cons, List.not_mem_nil, or_false]
    refine ⟨fun h => ?_, fun heq => by omega⟩
    rcases h with h | h | h <;> exact absurd h (hhigh (by omega) (by omega))
  · simp only [List.mem_cons, List.not_mem_nil, or_false]
    refine ⟨fun h => ?_, fun heq => by omega⟩
    rcases h with h | h | h | h <;> exact absurd h (hhigh (by omega) (by omega))

theorem mem_bytes {c : Char} (hc : c.toNat < 128) {t : List Char} : UInt8.ofNat c.toNat ∈ bytes t ↔ c ∈ t := by
  have htoNat : (UInt8.ofNat c.toNat).toNat = c.toNat := by rw [UInt8.toNat_ofNat', Nat.mod_eq_of_lt (by omega)]
  have hlt : UInt8.ofNat c.toNat < 128 := by
    rw [UInt8.lt_iff_toNat_lt, htoNat]
    exact hc
  unfold bytes
  rw [List.mem_flatMap]
  constructor
  · rintro ⟨d, hd, hmem⟩
    have heq := (mem_utf8EncodeChar hlt).1 hmem
    rw [htoNat] at heq
    rwa [Char.toNat_inj.1 heq] at hd
  · intro hmem
    exact ⟨c, hmem, (mem_utf8EncodeChar hlt).2 htoNat.symm⟩

theorem newline_mem_bytes {t : List Char} : 10 ∈ bytes t ↔ '\n' ∈ t := @mem_bytes '\n' (by decide) t

theorem length_bytes {t : List Char} (h : ∀ c ∈ t, c.toNat < 128) : (bytes t).length = t.length := by
  induction t with
  | nil => rfl
  | cons c t ih =>
    have hc : c.val.toNat ≤ 127 := Nat.le_of_lt_succ (h c List.mem_cons_self)
    have hone : String.utf8EncodeChar c = [UInt8.ofNat c.val.toNat] := if_pos hc
    rw [bytes_cons, hone, List.singleton_append, List.length_cons, List.length_cons,
      ih fun d hd => h d (List.mem_cons_of_mem _ hd)]

end Utf8
