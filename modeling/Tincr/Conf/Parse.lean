import Tincr.Conf.Vars
import Tincr.Lib.Lines

/-!
The reader of a configuration file. A line is a comment, part of a PEM block, blank, or a variable and
its value; `readLine` says what one line is in its place, and the loop collects the entries. A file is
its text: the bytes of a line are its characters in UTF-8.
-/

namespace Tincr.Conf

open Lines

def MAX_LINE_LEN : ℕ := 4096
def MAX_ENTRIES : ℕ := 4096

def isBlank (c : Char) : Bool := c == '\t' || c == ' '

def isSeparator (c : Char) : Bool := isBlank c || c == '='

/-- Key and value of a line, neither end of it trimmed. -/
def splitKv (line : Text) : Text × Text :=
  let rest := (line.dropWhile fun c => !isSeparator c).dropWhile isBlank
  let rest := if rest.head? = some '=' then rest.tail else rest
  (line.takeWhile fun c => !isSeparator c, rest.dropWhile isBlank)

/-- `line` is the number of the line, counted from 1 and saturating. -/
structure Entry where
  varName : Text
  value : Text
  line : ℕ
deriving DecidableEq, Repr

structure ParseError where
  varName : Text
  reason : String
  line : ℕ
deriving DecidableEq, Repr

inductive ReadError
  | parse (e : ParseError)
  | lineTooLong (line : ℕ)
  | tooManyEntries
deriving DecidableEq, Repr

def parseLine (line : Text) (source : ℕ) : Option (Except ParseError Entry) :=
  let line := line.rdropWhile isBlank
  if line = [] then none
  else
    let (varName, value) := splitKv line
    if value = [] then some (.error ⟨varName, "no value", source⟩)
    else some (.ok ⟨varName, value, source⟩)

inductive Reading
  | tooLong
  | skip
  | pem (inside : Bool)
  | entry (e : Entry)
  | bad (e : ParseError)
deriving DecidableEq, Repr

def stripBom (first : Bool) (buf : Text) : Text :=
  if first ∧ buf.head? = some '\uFEFF' then buf.tail else buf

def chomp (l : Text) : Text := l.rdropWhile fun c => c == '\n' || c == '\r'

def utf8Len (l : Text) : ℕ := (l.map Char.utf8Size).sum

/-- Comments and blank lines are skipped before the PEM block is looked at. -/
def readLine (lineno : ℕ) (inPem : Bool) (buf : Text) : Reading :=
  let line := chomp (stripBom (lineno == 1) buf)
  if MAX_LINE_LEN < utf8Len line then .tooLong
  else if line = [] ∨ line.head? = some '#' then .skip
  else if inPem then .pem !("-----END".toList.isPrefixOf line)
  else if "-----BEGIN".toList.isPrefixOf line then .pem true
  else match parseLine line lineno with
    | none => .skip
    | some (.error e) => .bad e
    | some (.ok e) => .entry e

def nextLine (lineno : ℕ) : ℕ := min (lineno + 1) (2 ^ 32 - 1)

def readLoop (lineno : ℕ) (inPem : Bool) (entries : List Entry) : List Text → Except ReadError (List Entry)
  | [] => .ok entries
  | buf :: rest =>
    let lineno := nextLine lineno
    match readLine lineno inPem buf with
    | .tooLong => .error (.lineTooLong lineno)
    | .skip => readLoop lineno inPem entries rest
    | .pem inside => readLoop lineno inside entries rest
    | .bad e => .error (.parse e)
    | .entry e =>
      if MAX_ENTRIES ≤ entries.length then .error .tooManyEntries
      else readLoop lineno inPem (entries ++ [e]) rest

def parseFile (contents : Text) : Except ReadError (List Entry) :=
  readLoop 0 false [] (splitInclusive contents)

/-- `config_compare` for the entries of one file: the variable, then the line. -/
def compareKey (e : Entry) : Text ×ₗ ℕ := toLex (asciiFold e.varName, e.line)

/-- `Config::merge` of the entries of one file. -/
def merge (entries : List Entry) : List Entry :=
  entries.mergeSort fun a b => decide (compareKey a ≤ compareKey b)

def lookup (entries : List Entry) (key : Text) : List Entry :=
  (merge entries).filter fun e => asciiFold e.varName == asciiFold key

inductive View
  | tooLong
  | skip
  | pem (inside : Bool)
  | entry (key value : Text)
  | bad
deriving DecidableEq, Repr

def Reading.view : Reading → View
  | .tooLong => .tooLong
  | .skip => .skip
  | .pem inside => .pem inside
  | .entry e => .entry e.varName e.value
  | .bad _ => .bad

/-- What a line is if it is the first of its file or not. -/
def view (first inPem : Bool) (buf : Text) : View := (readLine (if first then 1 else 2) inPem buf).view

/-- The number of a line matters only for the byte-order mark. -/
theorem view_readLine (lineno : ℕ) (inPem : Bool) (buf : Text) :
    (readLine lineno inPem buf).view = view (lineno == 1) inPem buf := by
  have hfirst : ((if (lineno == 1) = true then 1 else 2 : ℕ) == 1) = (lineno == 1) := by
    cases lineno == 1 <;> rfl
  simp only [view, readLine, hfirst, parseLine]
  split_ifs <;> rfl

theorem readLine_entry_line {lineno : ℕ} {inPem : Bool} {buf : Text} {e : Entry}
    (h : readLine lineno inPem buf = .entry e) : e.line = lineno := by
  simp only [readLine, parseLine] at h
  split_ifs at h
  obtain rfl := Reading.entry.inj h
  rfl

def trimmed (first : Bool) (buf : Text) : Text := (chomp (stripBom first buf)).rdropWhile isBlank

theorem view_eq (first inPem : Bool) (buf : Text) : view first inPem buf =
    if MAX_LINE_LEN < utf8Len (chomp (stripBom first buf)) then .tooLong
    else if chomp (stripBom first buf) = [] ∨ (chomp (stripBom first buf)).head? = some '#' then .skip
    else if inPem then .pem !("-----END".toList.isPrefixOf (chomp (stripBom first buf)))
    else if "-----BEGIN".toList.isPrefixOf (chomp (stripBom first buf)) then .pem true
    else if trimmed first buf = [] then .skip
    else if (splitKv (trimmed first buf)).2 = [] then .bad
    else .entry (splitKv (trimmed first buf)).1 (splitKv (trimmed first buf)).2 := by
  have hfirst : ((if first = true then 1 else 2 : ℕ) == 1) = first := by cases first <;> rfl
  have htrim : (chomp (stripBom first buf)).rdropWhile isBlank = trimmed first buf := rfl
  simp only [view, readLine, hfirst, parseLine, htrim]
  split_ifs <;> rfl

theorem view_entry {first inPem : Bool} {buf k v : Text} (h : view first inPem buf = .entry k v) :
    k = (splitKv (trimmed first buf)).1 ∧ v = (splitKv (trimmed first buf)).2 ∧ v ≠ [] := by
  rw [view_eq] at h
  split_ifs at h with _ _ _ _ _ hv
  obtain ⟨rfl, rfl⟩ := View.entry.inj h
  exact ⟨rfl, rfl, hv⟩

/-- What is cut off behind a value does not change the key. -/
theorem splitKv_key_of_append {t s : Text} (h : (splitKv t).2 ≠ []) : (splitKv (t ++ s)).1 = (splitKv t).1 := by
  have hne : (t.takeWhile fun c => !isSeparator c).length ≠ t.length := by
    intro hlen
    have hall := (List.takeWhile_prefix fun c => !isSeparator c).eq_of_length hlen
    have hdrop : (t.dropWhile fun c => !isSeparator c) = [] := by
      rw [List.dropWhile_eq_nil_iff]
      exact List.takeWhile_eq_self_iff.1 hall
    simp [splitKv, hdrop] at h
  simp only [splitKv, List.takeWhile_append, if_neg hne]

theorem trimmed_newline_append (l : Text) : ∃ s, l = trimmed false (l ++ ['\n']) ++ s := by
  have hchomp : chomp (l ++ ['\n']) = chomp l := List.rdropWhile_concat_pos _ _ _ (by simp)
  obtain ⟨s, hs⟩ := (List.rdropWhile_prefix isBlank (chomp l)).trans (List.rdropWhile_prefix _ l)
  refine ⟨s, ?_⟩
  rw [trimmed, stripBom, if_neg (by simp), hchomp]
  exact hs.symm

/-- The key of an entry is what stands before the first separator of its line. -/
theorem entry_key {first inPem : Bool} {l k v : Text} (h : view first inPem (l ++ ['\n']) = .entry k v)
    (hstrip : stripBom first (l ++ ['\n']) = l ++ ['\n']) : k = (splitKv l).1 := by
  obtain ⟨rfl, rfl, hv⟩ := view_entry h
  have htrim : trimmed first (l ++ ['\n']) = trimmed false (l ++ ['\n']) := by
    rw [trimmed, trimmed, hstrip, stripBom, if_neg (by simp)]
  obtain ⟨s, hs⟩ := trimmed_newline_append l
  rw [htrim] at hv ⊢
  conv_rhs => rw [hs]
  exact (splitKv_key_of_append hv).symm

def View.after (inPem : Bool) : View → Bool
  | .pem inside => inside
  | _ => inPem

def View.pairs : View → List (Text × Text)
  | .entry key value => [(key, value)]
  | _ => []

@[simp] theorem View.pairs_entry (key value : Text) : (View.entry key value).pairs = [(key, value)] := rfl

@[simp] theorem View.after_entry (inPem : Bool) (key value : Text) : (View.entry key value).after inPem = inPem := rfl

def scan (first inPem : Bool) : List Text → List (Text × Text)
  | [] => []
  | buf :: rest => (view first inPem buf).pairs ++ scan false ((view first inPem buf).after inPem) rest

theorem mem_scan {first inPem : Bool} {lines : List Text} {p : Text × Text} (h : p ∈ scan first inPem lines) :
    ∃ pre l post inside, lines = pre ++ l :: post ∧ view (first && pre.isEmpty) inside l = .entry p.1 p.2 := by
  induction lines generalizing first inPem with
  | nil => cases h
  | cons l rest ih =>
    rcases List.mem_append.1 h with h | h
    · refine ⟨[], l, rest, inPem, rfl, ?_⟩
      cases hview : view first inPem l <;> simp [hview, View.pairs] at h
      simp [h, hview]
    · obtain ⟨pre, m, post, inside, rfl, hview⟩ := ih h
      exact ⟨l :: pre, m, post, inside, rfl, by simpa using hview⟩

def pemAfter (first inPem : Bool) : List Text → Bool
  | [] => inPem
  | buf :: rest => pemAfter false ((view first inPem buf).after inPem) rest

def AllViews (P : View → Prop) (first inPem : Bool) : List Text → Prop
  | [] => True
  | buf :: rest => P (view first inPem buf) ∧ AllViews P false ((view first inPem buf).after inPem) rest

def View.Fine (v : View) : Prop := v ≠ .bad ∧ v ≠ .tooLong

def Entry.pair (e : Entry) : Text × Text := (e.varName, e.value)

theorem nextLine_eq_one (n : ℕ) : (nextLine n == 1) = (n == 0) := by
  unfold nextLine
  rw [Bool.eq_iff_iff, beq_iff_eq, beq_iff_eq]
  omega

theorem nextLine_ne_zero (n : ℕ) : (nextLine n == 0) = false := by
  unfold nextLine
  rw [beq_eq_false_iff_ne]
  omega

section Loop

variable {inPem : Bool} {lines : List Text} {entries result : List Entry} {lineno : ℕ}

/-- What the loop has collected from lines it got through. -/
theorem readLoop_ok (h : readLoop lineno inPem entries lines = .ok result) :
    AllViews View.Fine (lineno == 0) inPem lines ∧
      result.map Entry.pair = entries.map Entry.pair ++ scan (lineno == 0) inPem lines := by
  induction lines generalizing lineno inPem entries with
  | nil =>
    obtain rfl := Except.ok.inj h
    simp [AllViews, scan]
  | cons buf rest ih =>
    have hview := view_readLine (nextLine lineno) inPem buf
    rw [nextLine_eq_one] at hview
    rw [readLoop] at h
    rw [AllViews, scan, ← hview]
    cases hread : readLine (nextLine lineno) inPem buf with
    | tooLong | bad e => simp [hread] at h
    | skip | pem inside =>
      rw [hread] at h
      have hrest := ih h
      rw [nextLine_ne_zero] at hrest
      exact ⟨⟨by simp [Reading.view, View.Fine], hrest.1⟩, hrest.2⟩
    | entry e =>
      rw [hread] at h
      dsimp only at h
      split_ifs at h
      have hrest := ih h
      rw [nextLine_ne_zero] at hrest
      refine ⟨⟨by simp [Reading.view, View.Fine], hrest.1⟩, hrest.2.trans ?_⟩
      simp [Reading.view, Entry.pair, View.pairs, View.after]

/-- The lines that are read to the end: none stops the reader, and they do not hold too many entries. -/
theorem readLoop_isOk_iff (hroom : entries.length ≤ MAX_ENTRIES) :
    (∃ result, readLoop lineno inPem entries lines = .ok result) ↔
      AllViews View.Fine (lineno == 0) inPem lines ∧
        entries.length + (scan (lineno == 0) inPem lines).length ≤ MAX_ENTRIES := by
  induction lines generalizing lineno inPem entries with
  | nil => simp [readLoop, AllViews, scan, hroom]
  | cons buf rest ih =>
    have hview := view_readLine (nextLine lineno) inPem buf
    rw [nextLine_eq_one] at hview
    rw [readLoop, AllViews, scan, ← hview]
    cases hread : readLine (nextLine lineno) inPem buf with
    | tooLong | bad e => simp [Reading.view, View.Fine]
    | skip =>
      have hrest := @ih inPem entries (nextLine lineno) hroom
      rw [nextLine_ne_zero] at hrest
      simpa [Reading.view, View.Fine, View.pairs, View.after] using hrest
    | pem inside =>
      have hrest := @ih inside entries (nextLine lineno) hroom
      rw [nextLine_ne_zero] at hrest
      simpa [Reading.view, View.Fine, View.pairs, View.after] using hrest
    | entry e =>
      dsimp only
      by_cases hfull : MAX_ENTRIES ≤ entries.length
      · rw [if_pos hfull]
        constructor
        · rintro ⟨_, h⟩
          cases h
        · rintro ⟨-, hlen⟩
          simp only [Reading.view, View.pairs, List.length_append, List.length_singleton] at hlen
          omega
      · rw [if_neg hfull]
        have hrest := @ih inPem (entries ++ [e]) (nextLine lineno) (by simp; omega)
        rw [nextLine_ne_zero] at hrest
        simpa [Reading.view, View.Fine, View.pairs, View.after, Nat.add_assoc, Nat.add_comm 1] using hrest

/-- A file without a bad line is read, unless it exceeds a limit. -/
theorem readLoop_of_good (h : AllViews (· ≠ .bad) (lineno == 0) inPem lines) :
    (∃ result, readLoop lineno inPem entries lines = .ok result) ∨
      readLoop lineno inPem entries lines = .error .tooManyEntries ∨
      ∃ n, readLoop lineno inPem entries lines = .error (.lineTooLong n) := by
  induction lines generalizing lineno inPem entries with
  | nil => exact .inl ⟨entries, rfl⟩
  | cons buf rest ih =>
    have hview := view_readLine (nextLine lineno) inPem buf
    rw [nextLine_eq_one] at hview
    rw [AllViews, ← hview, ← nextLine_ne_zero lineno] at h
    rw [readLoop]
    cases hread : readLine (nextLine lineno) inPem buf with
    | tooLong => exact .inr (.inr ⟨_, rfl⟩)
    | bad e => exact absurd (by rw [hread]; rfl) h.1
    | skip | pem inside =>
      rw [hread] at h
      exact ih h.2
    | entry e =>
      rw [hread] at h
      dsimp only
      split_ifs
      · exact .inr (.inl rfl)
      · exact ih h.2

/-- Entries are in the order of their lines. -/
theorem readLoop_sorted (h : readLoop lineno inPem entries lines = .ok result)
    (hsorted : entries.Pairwise (·.line ≤ ·.line)) (hle : ∀ e ∈ entries, e.line ≤ lineno)
    (hmax : lineno ≤ 2 ^ 32 - 1) : result.Pairwise (·.line ≤ ·.line) := by
  induction lines generalizing lineno inPem entries with
  | nil =>
    obtain rfl := Except.ok.inj h
    exact hsorted
  | cons buf rest ih =>
    have hstep : lineno ≤ nextLine lineno := by
      unfold nextLine
      omega
    have hmax' : nextLine lineno ≤ 2 ^ 32 - 1 := Nat.min_le_right _ _
    have hle' : ∀ e ∈ entries, e.line ≤ nextLine lineno := fun e he => (hle e he).trans hstep
    rw [readLoop] at h
    cases hread : readLine (nextLine lineno) inPem buf with
    | tooLong | bad e => simp [hread] at h
    | skip | pem inside =>
      rw [hread] at h
      exact ih h hsorted hle' hmax'
    | entry e =>
      rw [hread] at h
      dsimp only at h
      split_ifs at h
      have hline := readLine_entry_line hread
      refine ih h (List.pairwise_append.2 ⟨hsorted, by simp, ?_⟩) ?_ hmax'
      · simpa [hline] using hle'
      · simpa [or_imp, forall_and, hline] using hle'

end Loop

/-- Looking a variable up in the merged tree finds its entries in the order of the file. -/
theorem lookup_eq_filter {contents : Text} {entries : List Entry} (h : parseFile contents = .ok entries) (key : Text) :
    lookup entries key = entries.filter fun e => asciiFold e.varName == asciiFold key := by
  have hsorted := readLoop_sorted h List.Pairwise.nil (by simp) (Nat.zero_le _)
  have hpair : (entries.filter fun e => asciiFold e.varName == asciiFold key).Pairwise
      fun a b => decide (compareKey a ≤ compareKey b) = true := by
    refine (hsorted.filter _).imp_of_mem fun {a b} ha hb hle => decide_eq_true ?_
    have hka : asciiFold a.varName = asciiFold key := by simpa using (List.mem_filter.1 ha).2
    have hkb : asciiFold b.varName = asciiFold key := by simpa using (List.mem_filter.1 hb).2
    exact Prod.Lex.toLex_le_toLex.2 (.inr ⟨hka.trans hkb.symm, hle⟩)
  have hsub := (List.sublist_mergeSort
    (by simpa using fun a b c (hab : compareKey a ≤ compareKey b) (hbc : compareKey b ≤ compareKey c) => hab.trans hbc)
    (by simpa using fun a b => le_total (compareKey a) (compareKey b)) hpair List.filter_sublist).filter
      fun e => asciiFold e.varName == asciiFold key
  rw [List.filter_filter] at hsub
  simp only [Bool.and_self] at hsub
  refine (hsub.eq_of_length ?_).symm
  exact ((List.mergeSort_perm entries _).filter _).length_eq.symm

end Tincr.Conf
