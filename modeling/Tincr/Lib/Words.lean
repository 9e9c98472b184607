import Mathlib

/-!
Scanning a line of words. A word is a non-empty run of characters other than ASCII whitespace, of a
bounded size; a scanner takes words off the front of the text. `Spells cs ts` says that the text `cs`
consists of the words `ts` with whitespace between them, and `Yields x ts a ts'` that the scanner `x`
reads the value `a` off every text that spells `ts` and leaves one that spells `ts'`.
-/

namespace Words

def isSpace (c : Char) : Bool := c = ' ' ∨ c = '\t' ∨ c = '\n' ∨ c = '\x0c' ∨ c = '\r'

structure IsWord (max : ℕ) (s : String) : Prop where
  nonempty : s.toList ≠ []
  size : s.utf8ByteSize ≤ max
  solid : ∀ c ∈ s.toList, isSpace c = false

instance (max : ℕ) (s : String) : Decidable (IsWord max s) :=
  decidable_of_iff (s.toList ≠ [] ∧ s.utf8ByteSize ≤ max ∧ ∀ c ∈ s.toList, isSpace c = false)
    ⟨fun h => ⟨h.1, h.2.1, h.2.2⟩, fun h => ⟨h.1, h.2, h.3⟩⟩

abbrev Scanner := StateT (List Char) Option

def skipSpace (cs : List Char) : List Char := cs.dropWhile isSpace

/-- The next word; a text without one, or with one that is too long, is rejected. -/
def next (max : ℕ) : Scanner String := fun rest =>
  let cs := skipSpace rest
  let word := cs.takeWhile fun c => !isSpace c
  if word = [] ∨ max < (String.ofList word).utf8ByteSize then none
  else some (String.ofList word, cs.dropWhile fun c => !isSpace c)

/-- The next word, or nothing at the end of the text. -/
def next? (max : ℕ) : Scanner (Option String) := fun rest =>
  match next max rest with
  | some (word, rest) => some (some word, rest)
  | none => if skipSpace rest = [] then some (none, rest) else none

def words (cs : List Char) : List String :=
  ((cs.splitOnP isSpace).filter (· ≠ [])).map String.ofList

variable {max : ℕ}

/-- The text ends here, or goes on with whitespace. -/
def Open (cs : List Char) : Prop := ∀ c rest, cs = c :: rest → isSpace c = true

inductive Spells (max : ℕ) : List Char → List String → Prop
  | nil {cs : List Char} : (∀ c ∈ cs, isSpace c = true) → Spells max cs []
  | cons {sp rest : List Char} {t : String} {ts : List String} :
      (∀ c ∈ sp, isSpace c = true) → IsWord max t → Open rest → Spells max rest ts →
      Spells max (sp ++ t.toList ++ rest) (t :: ts)

def Yields {α : Type} (max : ℕ) (x : Scanner α) (ts : List String) (a : α) (ts' : List String) : Prop :=
  ∀ cs, Spells max cs ts → ∃ cs', x cs = some (a, cs') ∧ Spells max cs' ts'

namespace Yields

variable {α β : Type} {ts ts' ts'' : List String} {a : α} {b : β}

theorem pure (a : α) (ts : List String) : Yields max (pure a) ts a ts := fun cs h => ⟨cs, rfl, h⟩

theorem bind {x : Scanner α} {f : α → Scanner β} (hx : Yields max x ts a ts')
    (hf : Yields max (f a) ts' b ts'') : Yields max (x >>= f) ts b ts'' := by
  intro cs h
  obtain ⟨cs', hx, h'⟩ := hx cs h
  obtain ⟨cs'', hf, h''⟩ := hf cs' h'
  refine ⟨cs'', ?_, h''⟩
  change (x cs >>= fun p => f p.1 p.2) = _
  rw [hx]
  exact hf

theorem ite_pos {p : Prop} [Decidable p] {x y : Scanner α} (hp : p) (hx : Yields max x ts a ts') :
    Yields max (if p then x else y) ts a ts' := by
  rw [if_pos hp]
  exact hx

theorem ite_neg {p : Prop} [Decidable p] {x y : Scanner α} (hp : ¬ p) (hy : Yields max y ts a ts') :
    Yields max (if p then x else y) ts a ts' := by
  rw [if_neg hp]
  exact hy

theorem lift {x : Option α} (hx : x = some a) (ts : List String) :
    Yields max (liftM x) ts a ts := by
  intro cs h
  refine ⟨cs, ?_, h⟩
  rw [hx]
  rfl

end Yields

theorem skipSpace_append {sp cs : List Char} (h : ∀ c ∈ sp, isSpace c = true) :
    skipSpace (sp ++ cs) = skipSpace cs :=
  List.dropWhile_append_of_pos h

theorem IsWord.skipSpace {t : String} (h : IsWord max t) (rest : List Char) :
    skipSpace (t.toList ++ rest) = t.toList ++ rest := by
  cases ht : t.toList with
  | nil => exact absurd ht h.nonempty
  | cons c cs =>
    have hc := h.solid c (by rw [ht]; exact List.mem_cons_self)
    simp [Words.skipSpace, hc]

theorem IsWord.split {t : String} (h : IsWord max t) {rest : List Char} (hopen : Open rest) :
    (t.toList ++ rest).takeWhile (fun c => !isSpace c) = t.toList ∧
      (t.toList ++ rest).dropWhile (fun c => !isSpace c) = rest := by
  have hall : ∀ c ∈ t.toList, (!isSpace c) = true := fun c hc => by rw [h.solid c hc]; rfl
  rw [List.takeWhile_append_of_pos hall, List.dropWhile_append_of_pos hall]
  cases rest with
  | nil => simp
  | cons c cs => simp [hopen c cs rfl]

theorem yields_next (t : String) (ts : List String) : Yields max (next max) (t :: ts) t ts := by
  rintro _ (_ | @⟨sp, rest, _, _, hsp, ht, hopen, hrest⟩)
  refine ⟨rest, ?_, hrest⟩
  obtain ⟨htake, hdrop⟩ := ht.split hopen
  have hsize : ¬ max < t.utf8ByteSize := Nat.not_lt.2 ht.size
  simp only [next, List.append_assoc, skipSpace_append hsp, ht.skipSpace, htake, hdrop,
    String.ofList_toList, ht.nonempty, hsize, or_self, if_false]

theorem yields_next?_cons (t : String) (ts : List String) :
    Yields max (next? max) (t :: ts) (some t) ts := by
  intro cs h
  obtain ⟨cs', hnext, h'⟩ := yields_next t ts cs h
  refine ⟨cs', ?_, h'⟩
  rw [next?, hnext]

theorem yields_next?_nil : Yields max (next? max) [] none [] := by
  rintro cs (@⟨_, hcs⟩ | _)
  refine ⟨cs, ?_, .nil hcs⟩
  have hskip : skipSpace cs = [] := List.dropWhile_eq_nil_iff.2 hcs
  simp [next?, next, hskip]

theorem Spells.append {xs ys : List Char} {ts us : List String} (hx : Spells max xs ts)
    (hy : Spells max ys us) (hopen : Open ys) : Spells max (xs ++ ys) (ts ++ us) := by
  induction hx with
  | @nil cs hcs =>
    cases hy with
    | nil hys => exact .nil fun c hc => (List.mem_append.1 hc).elim (hcs c) (hys c)
    | @cons sp rest t us hsp ht hrest hus =>
      rw [List.nil_append, ← List.append_assoc, ← List.append_assoc]
      refine .cons (fun c hc => ?_) ht hrest hus
      exact (List.mem_append.1 hc).elim (hcs c) (hsp c)
  | @cons sp rest t ts hsp ht hrest _ ih =>
    rw [List.append_assoc, List.cons_append]
    refine .cons hsp ht ?_ ih
    rintro c cs hc
    cases rest with
    | nil => exact hopen c cs hc
    | cons d rest =>
      obtain ⟨rfl, -⟩ := List.cons.inj hc
      exact hrest d rest rfl

theorem Spells.word {t : String} (ht : IsWord max t) : Spells max t.toList [t] := by
  have h : Spells max ([] ++ t.toList ++ []) [t] :=
    .cons (by simp) ht (fun _ _ h => absurd h (by simp)) (.nil (by simp))
  simpa using h

/-- A word behind whitespace. -/
theorem Spells.space {sp cs : List Char} {ts : List String} (hsp : ∀ c ∈ sp, isSpace c = true)
    (h : Spells max cs ts) : Spells max (sp ++ cs) ts := by
  cases h with
  | nil hcs => exact .nil fun c hc => (List.mem_append.1 hc).elim (hsp c) (hcs c)
  | @cons sp' rest t ts hsp' ht hrest hts =>
    rw [← List.append_assoc, ← List.append_assoc]
    exact .cons (fun c hc => (List.mem_append.1 hc).elim (hsp c) (hsp' c)) ht hrest hts

theorem open_space {sp : List Char} (hne : sp ≠ []) (hsp : ∀ c ∈ sp, isSpace c = true)
    (cs : List Char) : Open (sp ++ cs) := by
  cases sp with
  | nil => exact absurd rfl hne
  | cons d sp =>
    rintro c rest hc
    obtain ⟨rfl, -⟩ := List.cons.inj hc
    exact hsp d List.mem_cons_self

def unwords : List String → String
  | [] => ""
  | [t] => t
  | t :: ts => t ++ " " ++ unwords ts

theorem Spells.snoc {xs ys sp : List Char} {ts us : List String} (hx : Spells max xs ts)
    (hne : sp ≠ []) (hsp : ∀ c ∈ sp, isSpace c = true) (hy : Spells max ys us) :
    Spells max (xs ++ (sp ++ ys)) (ts ++ us) :=
  hx.append (hy.space hsp) (open_space hne hsp ys)

theorem isSpace_of_mem_blank : ∀ c ∈ [' '], isSpace c = true := by
  simp [isSpace]

theorem spells_unwords {ts : List String} (h : ∀ t ∈ ts, IsWord max t) :
    Spells max (unwords ts).toList ts := by
  induction ts with
  | nil => exact .nil (by simp [unwords])
  | cons t ts ih =>
    have ht := Spells.word (h t List.mem_cons_self)
    cases ts with
    | nil => exact ht
    | cons u us =>
      have hus := ih fun t ht => h t (List.mem_cons_of_mem _ ht)
      rw [unwords, String.toList_append, String.toList_append, List.append_assoc]
      · exact ht.snoc (List.cons_ne_nil _ _) isSpace_of_mem_blank hus
      · simp

/-- Text of ASCII characters takes one byte a character. -/
theorem utf8ByteSize_ascii {cs : List Char} (h : ∀ c ∈ cs, c.toNat < 128) :
    (String.ofList cs).utf8ByteSize = cs.length := by
  rw [String.utf8ByteSize_ofList]
  induction cs with
  | nil => rfl
  | cons c cs ih =>
    have hc : c.utf8Size = 1 := by
      have := h c List.mem_cons_self
      rw [Char.utf8Size_eq_one_iff]
      exact UInt32.le_iff_toNat_le.2 (by change c.toNat ≤ 127; omega)
    rw [String.utf8Len_cons, ih fun d hd => h d (List.mem_cons_of_mem _ hd), hc, List.length_cons]

theorem isWord_ascii {cs : List Char} (hne : cs ≠ []) (hlen : cs.length ≤ max)
    (h : ∀ c ∈ cs, c.toNat < 128 ∧ isSpace c = false) : IsWord max (String.ofList cs) where
  nonempty := by rwa [String.toList_ofList]
  size := by rwa [utf8ByteSize_ascii fun c hc => (h c hc).1]
  solid := by
    rw [String.toList_ofList]
    exact fun c hc => (h c hc).2

end Words
