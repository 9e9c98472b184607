import Tincr.Lib.Numeral
import Tincr.Lib.Words

/-!
The tokenizer of the meta protocol and the fields it reads: names, addresses, decimal and hexadecimal
integers. Every field that is written out is one word of the line, and its reader takes that word back
to the value; the `yields_*` lemmas say so field by field, and the messages are assembled from them.
-/

namespace Tincr.Proto

open Words Numeral

abbrev MAX_STRING : ℕ := 2048

def checkId (s : String) : Bool := s ≠ "" && s.toList.all fun c => c.isAlphanum || c == '_'

/-- A token of the line: non-empty, free of whitespace, at most `MAX_STRING` bytes. -/
abbrev Token (s : String) : Prop := IsWord MAX_STRING s

structure AddrStr where
  str : String
  token : Token str
deriving DecidableEq

def AddrStr.new (s : String) : Option AddrStr := if h : Token s then some ⟨s, h⟩ else none

def readI16 (t : String) : Option Int16 := (readSigned (2 ^ 15) t.toList).map Int16.ofInt

def readI32 (t : String) : Option Int32 := (readSigned (2 ^ 31) t.toList).map Int32.ofInt

def readI64 (t : String) : Option Int64 := (readSigned (2 ^ 63) t.toList).map Int64.ofInt

def readU64 (t : String) : Option UInt64 := (readUnsigned 10 (2 ^ 64) t.toList).map UInt64.ofNat

def readHexU32 (t : String) : Option UInt32 := (readUnsigned 16 (2 ^ 32) t.toList).map UInt32.ofNat

abbrev Tok := Scanner

/-- A line is parsed from its start; what the parser leaves is ignored. -/
def Tok.run {α : Type} (x : Tok α) (line : String) : Option α := (x line.toList).map Prod.fst

namespace Tok

def s : Tok String := next MAX_STRING

def skip : Tok Unit := do
  let _ ← s

def d : Tok Int32 := do readI32 (← s)

def x : Tok UInt32 := do readHexU32 (← s)

/-- A token that is not a `u64` may still be an `i64`, taken modulo `2^64`. -/
def lu : Tok UInt64 := do
  let t ← s
  match readU64 t with
  | some n => return n
  | none => Int64.toUInt64 <$> readI64 t

def hd : Tok Int16 := do readI16 (← s)

def id : Tok String := do
  let t ← s
  if checkId t then return t else failure

def sOpt : Tok (Option String) := next? MAX_STRING

def dOpt : Tok (Option Int32) := do
  match ← sOpt with
  | some t => some <$> readI32 t
  | none => return none

/-- Both tokens of the pair or neither. -/
def addrPairOpt : Tok (Option (AddrStr × AddrStr)) := do
  match ← sOpt, ← sOpt with
  | none, none => return none
  | some a, some p => return some (← AddrStr.new a, ← AddrStr.new p)
  | _, _ => failure

end Tok

def dec (i : ℤ) : String := String.ofList (printInt i)

def hex (n : ℕ) : String := String.ofList (Nat.toDigits 16 n)

theorem digitChar_solid : ∀ d < 16, (Nat.digitChar d).toNat < 128 ∧ isSpace (Nat.digitChar d) = false := by
  decide +kernel

theorem toDigits_solid {b n : ℕ} (hb : Prints b) (h16 : b ≤ 16) :
    ∀ c ∈ Nat.toDigits b n, c.toNat < 128 ∧ isSpace c = false := by
  intro c hc
  obtain ⟨d, hd, rfl⟩ := mem_toDigits hb hc
  exact digitChar_solid d (by omega)

theorem token_hex {n : ℕ} (h : n < 2 ^ 64) : Token (hex n) := by
  refine isWord_ascii Nat.toDigits_ne_nil ?_ (toDigits_solid prints_sixteen le_rfl)
  have : (Nat.toDigits 16 n).length ≤ 16 := length_toDigits_le prints_sixteen (by decide) (by omega)
  exact this.trans (by decide)

theorem length_printInt_le {i : ℤ} {k : ℕ} (hk : 0 < k) (h : i.natAbs < 10 ^ k) :
    (printInt i).length ≤ k + 1 := by
  have := length_toDigits_le prints_ten hk h
  unfold printInt
  split_ifs
  · rw [List.length_cons]
    omega
  · omega

theorem printInt_solid (i : ℤ) : ∀ c ∈ printInt i, c.toNat < 128 ∧ isSpace c = false := by
  have hdigits := toDigits_solid prints_ten (n := i.natAbs) (by decide)
  unfold printInt
  split_ifs
  · intro c hc
    rcases List.mem_cons.1 hc with rfl | hc
    · decide +kernel
    · exact hdigits c hc
  · exact hdigits

theorem printInt_ne_nil (i : ℤ) : printInt i ≠ [] := by
  unfold printInt
  split_ifs
  · exact List.cons_ne_nil _ _
  · exact Nat.toDigits_ne_nil

theorem token_dec {i : ℤ} (h : i.natAbs < 2 ^ 64) : Token (dec i) := by
  refine isWord_ascii (printInt_ne_nil i) ?_ (printInt_solid i)
  have : (printInt i).length ≤ 21 := length_printInt_le (by decide) (by omega)
  exact this.trans (by decide)

theorem token_dec_i32 (i : Int32) : Token (dec i.toInt) := by
  have := i.toInt_lt
  have := i.le_toInt
  exact token_dec (by omega)

theorem not_isSpace_alphanum {c : Char} (h : c.isAlphanum = true ∨ c = '_') : isSpace c = false := by
  by_contra hspace
  simp only [isSpace, Bool.not_eq_false, decide_eq_true_eq] at hspace
  rcases hspace with rfl | rfl | rfl | rfl | rfl <;> revert h <;> decide +kernel

/-- A name: accepted by `check_id`, and short enough for the tokenizer. -/
structure Name (s : String) : Prop where
  id : checkId s = true
  size : s.utf8ByteSize ≤ MAX_STRING

theorem Name.token {s : String} (h : Name s) : Token s where
  nonempty := by
    have := h.id
    simp only [checkId, Bool.and_eq_true, decide_eq_true_eq] at this
    rw [ne_eq, String.toList_eq_nil_iff]
    exact this.1
  size := h.size
  solid := by
    have := h.id
    simp only [checkId, Bool.and_eq_true, List.all_eq_true, Bool.or_eq_true, beq_iff_eq] at this
    exact fun c hc => not_isSpace_alphanum (this.2 c hc)

section Fields

variable (ts : List String)

theorem yields_s (t : String) : Yields MAX_STRING Tok.s (t :: ts) t ts := yields_next t ts

theorem yields_skip (t : String) : Yields MAX_STRING Tok.skip (t :: ts) () ts :=
  (yields_s ts t).bind (.pure () ts)

theorem readI32_dec (i : Int32) : readI32 (dec i.toInt) = some i := by
  have hhi := i.toInt_lt
  have hlo := i.le_toInt
  rw [readI32, dec, String.toList_ofList, readSigned_printInt (by omega) (by omega),
    Option.map_some, Int32.ofInt_toInt]

theorem yields_d (i : Int32) : Yields MAX_STRING Tok.d (dec i.toInt :: ts) i ts :=
  (yields_s ts _).bind (.lift (readI32_dec i) ts)

theorem yields_x (n : UInt32) : Yields MAX_STRING Tok.x (hex n.toNat :: ts) n ts := by
  have hn := n.toNat_lt
  refine (yields_s ts _).bind (.lift ?_ ts)
  rw [readHexU32, hex, String.toList_ofList, readUnsigned_toDigits prints_sixteen le_rfl hn,
    Option.map_some, UInt32.ofNat_toNat]

theorem printInt_natCast (n : ℕ) : printInt n = Nat.toDigits 10 n := rfl

theorem yields_lu (n : UInt64) : Yields MAX_STRING Tok.lu (dec n.toNat :: ts) n ts := by
  have hn := n.toNat_lt
  have hread : readU64 (dec n.toNat) = some n := by
    rw [readU64, dec, String.toList_ofList, printInt_natCast,
      readUnsigned_toDigits prints_ten (by decide) hn, Option.map_some, UInt64.ofNat_toNat]
  refine (yields_s ts _).bind ?_
  rw [hread]
  exact .pure n ts

theorem yields_hd {n : ℕ} (hn : n < 2 ^ 15) :
    Yields MAX_STRING Tok.hd (dec n :: ts) (Int16.ofInt n) ts := by
  refine (yields_s ts _).bind (.lift ?_ ts)
  rw [readI16, dec, String.toList_ofList, readSigned_printInt (by omega) (by omega), Option.map_some]

theorem yields_id {t : String} (ht : Name t) : Yields MAX_STRING Tok.id (t :: ts) t ts :=
  (yields_s ts t).bind (.ite_pos ht.id (.pure t ts))

theorem yields_sOpt (t : String) : Yields MAX_STRING Tok.sOpt (t :: ts) (some t) ts :=
  yields_next?_cons t ts

theorem yields_sOpt_nil : Yields MAX_STRING Tok.sOpt [] none [] := yields_next?_nil

theorem yields_dOpt (i : Int32) : Yields MAX_STRING Tok.dOpt (dec i.toInt :: ts) (some i) ts := by
  refine (yields_sOpt ts _).bind ?_
  simp only [readI32_dec]
  exact .pure _ ts

theorem yields_dOpt_nil : Yields MAX_STRING Tok.dOpt [] none [] :=
  yields_sOpt_nil.bind (.pure none [])

theorem AddrStr.new_str (a : AddrStr) : AddrStr.new a.str = some a := dif_pos a.token

theorem yields_addrPairOpt (a p : AddrStr) :
    Yields MAX_STRING Tok.addrPairOpt (a.str :: p.str :: ts) (some (a, p)) ts := by
  refine (yields_sOpt _ _).bind ((yields_sOpt ts _).bind ?_)
  exact (Yields.lift a.new_str ts).bind ((Yields.lift p.new_str ts).bind (.pure _ ts))

theorem yields_addrPairOpt_nil : Yields MAX_STRING Tok.addrPairOpt [] none [] :=
  yields_sOpt_nil.bind (yields_sOpt_nil.bind (.pure none []))

end Fields

/-- A parser that reads a value off the words of a line returns it. -/
theorem Tok.run_eq {α : Type} {x : Tok α} {line : String} {ts ts' : List String} {a : α}
    (h : Yields MAX_STRING x ts a ts') (hline : Spells MAX_STRING line.toList ts) :
    Tok.run x line = some a := by
  obtain ⟨cs, hx, -⟩ := h _ hline
  rw [Tok.run, hx]
  rfl

end Tincr.Proto
