import Tincr.Conf.JoinRead
import Tincr.Crypto.B64

/-!
The two files of our own that `tinc join` writes, line by line, and when the reader takes them. A line of the first
chunk is written again with the value the tokenizer found, and that may be nothing, or only carriage returns, or too
long; such a line makes the reader refuse the whole file.
-/

namespace Tincr.Conf

open Lines EStateM

/-- The variables of the first chunk that are written down. -/
def ownVars (name : Text) (force : Bool) : List Text → List (Var × Text)
  | [] => []
  | line :: rest =>
    match ownLine name force line with
    | .skip => ownVars name force rest
    | .boundary _ => []
    | .var var val => (var, val) :: ownVars name force rest

def linesFor (host : Bool) (vars : List (Var × Text)) : List Text :=
  (vars.filter fun p => p.1.flags.contains .HOST == host).map fun p => varLine p.1.name p.2

theorem linesFor_cons (host : Bool) (v : Var) (val : Text) (vars : List (Var × Text)) :
    linesFor host ((v, val) :: vars) =
      if v.flags.contains .HOST = host then varLine v.name val :: linesFor host vars else linesFor host vars := by
  unfold linesFor
  rw [List.filter_cons]
  by_cases h : v.flags.contains .HOST = host
  · simp [h]
  · simp [h]

theorem writeChunk1_files {name : Text} {force : Bool} {d : Disk} {lines : List Text} {conf host : Text}
    (hconf : d.files .tincConf = some conf) (hhost : d.files (.host name) = some host) :
    (writeChunk1 name force d lines).1.files .tincConf =
        some (conf ++ textOf (linesFor false (ownVars name force lines))) ∧
      (writeChunk1 name force d lines).1.files (.host name) =
        some (host ++ textOf (linesFor true (ownVars name force lines))) := by
  have hnil : ∀ t : Text, t ++ textOf (linesFor false []) = t ∧ t ++ textOf (linesFor true []) = t := fun t =>
    ⟨List.append_nil t, List.append_nil t⟩
  induction lines generalizing d conf host with
  | nil =>
    rw [writeChunk1, ownVars, (hnil conf).1, (hnil host).2]
    exact ⟨hconf, hhost⟩
  | cons line rest ih =>
    rw [writeChunk1, ownVars]
    cases ownLine name force line with
    | skip => exact ih hconf hhost
    | boundary v =>
      dsimp only
      rw [(hnil conf).1, (hnil host).2]
      exact ⟨hconf, hhost⟩
    | var v val =>
      dsimp only
      rw [linesFor_cons, linesFor_cons]
      cases hv : v.flags.contains .HOST with
      | true =>
        have hwrite : (d.writeLine (.host name) (varLine v.name val)).files (.host name) =
            some (host ++ (varLine v.name val ++ ['\n'])) := by simp [Disk.writeLine, hhost]
        have hkeep : (d.writeLine (.host name) (varLine v.name val)).files .tincConf = some conf := by
          simpa [Disk.writeLine] using hconf
        have hrest := ih hkeep hwrite
        simpa [textOf] using hrest
      | false =>
        have hwrite : (d.writeLine .tincConf (varLine v.name val)).files .tincConf =
            some (conf ++ (varLine v.name val ++ ['\n'])) := by simp [Disk.writeLine, hconf]
        have hkeep : (d.writeLine .tincConf (varLine v.name val)).files (.host name) = some host := by
          simpa [Disk.writeLine] using hhost
        have hrest := ih hwrite hkeep
        simpa [textOf] using hrest

def confLines (name : Text) (vars : List (Var × Text)) : List Text := varLine "Name".toList name :: linesFor false vars

def hostLines (vars : List (Var × Text)) (key : NodeKey) : List Text :=
  linesFor true vars ++ [varLine "Ed25519PublicKey".toList key.pubkeyB64]

def blobVars (data : ByteArray) (force : Bool) : List (Var × Text) :=
  match String.fromUTF8? data with
  | none => []
  | some text =>
    match parseBlobHeader (strLines text.toList) with
    | .error _ => []
    | .ok (name, lines) => ownVars name force lines

theorem finish_files (name : Text) (key : NodeKey) (d : Disk) {p : Path} (hpriv : p ≠ .ed25519Private)
    (hup : p ≠ .tincUp) : (finish name key d).files p =
      if p = .host name then (d.files p).map fun t => t ++ (varLine "Ed25519PublicKey".toList key.pubkeyB64 ++ ['\n'])
      else d.files p := by
  unfold finish
  dsimp only
  generalize varLine "Ed25519PublicKey".toList key.pubkeyB64 = line
  have hlast : ∀ d : Disk, (if (d.files .tincUp).isSome = true then d else d.put .tincUp tincUpPlaceholder).files p =
      d.files p := by
    intro d
    split_ifs
    · rfl
    · exact Function.update_of_ne hup _ _
  rw [hlast, Disk.writeLine, Disk.put]
  by_cases hp : p = .host name
  · subst hp
    simp
  · simp [hp, hpriv]

section Run

variable {data : ByteArray} {files : Files} {force : Bool} {key : NodeKey} {r : JoinResult} {d' : Disk}

theorem own_files (h : finalizeJoin data files force key = (.ok r, d')) :
    d'.files .tincConf = some (textOf (confLines r.name (blobVars data force))) ∧
      d'.files (.host r.name) = some (textOf (hostLines (blobVars data force) key)) := by
  obtain ⟨⟨text, lines, peers, hutf8, hheader, _, hrun, _, rfl, hpubkey⟩⟩ := finished_of_run h
  have hvars : blobVars data force = ownVars r.name force lines := by
    simp only [blobVars, hutf8, hheader]
  have hopen : (openFiles r.name text.toList ⟨files, []⟩).files .tincConf =
      some (varLine "Name".toList r.name ++ ['\n']) := by
    simp [openFiles, Disk.create, Disk.writeLine, Disk.put]
  have hopenHost : (openFiles r.name text.toList ⟨files, []⟩).files (.host r.name) = some [] := by
    simp [openFiles, Disk.create, Disk.writeLine, Disk.put]
  obtain ⟨hconf, hhost⟩ := @writeChunk1_files r.name force _ lines _ _ hopen hopenHost
  obtain ⟨hnames, hpeers⟩ := writeHostChunks_run hrun
  -- the chunks behind the first do not touch the file of our own name
  have hkept : peers.files (.host r.name) = some (textOf (linesFor true (ownVars r.name force lines))) := by
    rw [hpeers.files, lastBlock_eq_none]
    · exact hhost
    · rw [hnames]
      intro hmem
      simpa [eqIgnoreAsciiCase] using (hpeers.names _ hmem).2
  have hconf' := (hpeers.other .tincConf (by simp)).trans hconf
  rw [hvars, finish_files _ _ _ (by simp) (by simp), finish_files _ _ _ (by simp) (by simp), if_neg (by simp),
    if_pos rfl, hkept, hconf']
  exact ⟨rfl, by simp [hostLines, textOf]⟩

end Run

/-! ### How the reader takes such a line -/

theorem rdropWhile_append {α : Type*} (p : α → Bool) (a b : List α) :
    (a ++ b).rdropWhile p = if b.rdropWhile p = [] then a.rdropWhile p else a ++ b.rdropWhile p := by
  unfold List.rdropWhile
  rw [List.reverse_append, List.dropWhile_append]
  by_cases h : b.reverse.dropWhile p = []
  · simp [h]
  · simp [h]

/-- What the reader finds of a value: breaks and then blanks at its end are gone. -/
def seen (val : Text) : Text := (chomp val).rdropWhile isBlank

structure Token (val : Text) : Prop where
  newline : '\n' ∉ val
  leading : ∀ c, val.head? = some c → isBlank c = false

theorem seen_prefix (val : Text) : seen val <+: val :=
  (List.rdropWhile_prefix _ _).trans (List.rdropWhile_prefix _ _)

theorem seen_head {val : Text} (h : Token val) : ∀ c, (seen val).head? = some c → isBlank c = false := by
  intro c hc
  obtain ⟨rest, hrest⟩ := seen_prefix val
  refine h.leading c ?_
  rw [← hrest, List.head?_append, hc]
  rfl

theorem trimmed_varLine (name val : Text) : trimmed false (varLine name val ++ ['\n']) =
    if seen val = [] then name ++ [' ', '='] else name ++ [' ', '=', ' '] ++ seen val := by
  have hend : ∀ p : Char → Bool, p '=' = false → (name ++ [' ', '=']).rdropWhile p = name ++ [' ', '='] := by
    intro p hp
    exact List.rdropWhile_eq_self_iff.2 fun _ => by simp [hp]
  have hchomp : chomp (varLine name val ++ ['\n']) =
      if chomp val = [] then name ++ [' ', '=', ' '] else name ++ [' ', '=', ' '] ++ chomp val := by
    refine (List.rdropWhile_concat_pos _ _ _ (by decide)).trans ?_
    rw [varLine, rdropWhile_append]
    refine if_congr Iff.rfl ?_ rfl
    exact List.rdropWhile_eq_self_iff.2 fun _ => by simp
  have hblank : (name ++ [' ', '=', ' ']).rdropWhile isBlank = name ++ [' ', '='] := by
    rw [show name ++ [' ', '=', ' '] = (name ++ [' ', '=']) ++ [' '] by simp,
      List.rdropWhile_concat_pos _ _ _ (by decide), hend _ (by decide)]
  rw [trimmed, stripBom, if_neg (by simp), hchomp]
  by_cases hval : chomp val = []
  · rw [if_pos hval, hblank, seen, hval, if_pos (by rfl)]
  · rw [if_neg hval, rdropWhile_append, hblank]
    rfl

theorem splitKv_trimmed {name val : Text} (hname : IsName name) (hval : Token val) :
    splitKv (trimmed false (varLine name val ++ ['\n'])) = (name, seen val) := by
  have hsep : ∀ c ∈ name, (!isSeparator c) = true := fun c hc => by
    rw [isAlphanum_not_separator (hname.alphanum c hc)]
    rfl
  have hblank : isSeparator ' ' = true := rfl
  have hlead := seen_head hval
  rw [trimmed_varLine]
  generalize seen val = v at hlead ⊢
  cases v with
  | nil =>
    rw [if_pos rfl, splitKv, List.dropWhile_append_of_pos hsep, List.takeWhile_append_of_pos hsep]
    simp [hblank, isBlank]
  | cons c rest =>
    have hc : ¬c = '\t' ∧ ¬c = ' ' := by simpa [isBlank] using hlead c rfl
    rw [if_neg (by simp), splitKv, List.append_assoc, List.dropWhile_append_of_pos hsep,
      List.takeWhile_append_of_pos hsep]
    simp [isBlank, isSeparator, hc]

theorem view_varLine {name val : Text} (hname : IsName name) (hval : Token val) (first : Bool) :
    view first false (varLine name val ++ ['\n']) =
      if MAX_LINE_LEN < utf8Len (chomp (varLine name val)) then .tooLong
      else if seen val = [] then .bad else .entry name (seen val) := by
  have hchomp : chomp (varLine name val ++ ['\n']) = chomp (varLine name val) :=
    List.rdropWhile_concat_pos _ _ _ (by decide)
  rw [(plain_varLine hname val).view_eq, splitKv_trimmed hname hval, hchomp]
  rfl

/-- A value that starts with no blank is lost only where it is made of breaks. -/
theorem seen_eq_nil_iff {val : Text} (h : Token val) : seen val = [] ↔ ∀ c ∈ val, c = '\r' := by
  have hchomp : seen val = [] ↔ chomp val = [] := by
    constructor
    · intro hseen
      by_contra hne
      obtain ⟨c, rest, hc⟩ := List.exists_cons_of_ne_nil hne
      obtain ⟨tail, htail⟩ : chomp val <+: val := List.rdropWhile_prefix _ _
      have hblank : isBlank c = false := h.leading c (by rw [← htail, hc]; rfl)
      have hall := List.rdropWhile_eq_nil_iff.1 hseen c (by rw [hc]; exact List.mem_cons_self)
      rw [hblank] at hall
      exact Bool.false_ne_true hall
    · intro hnil
      rw [seen, hnil]
      rfl
  rw [hchomp, chomp, List.rdropWhile_eq_nil_iff]
  refine forall₂_congr fun c hc => ?_
  have hline : c ≠ '\n' := fun heq => h.newline (heq ▸ hc)
  simp [hline]

structure Taken (p : Text × Text) : Prop where
  value : ∃ c ∈ p.2, c ≠ '\r'
  fits : utf8Len (chomp (varLine p.1 p.2)) ≤ MAX_LINE_LEN

def pairLine (p : Text × Text) : Text := varLine p.1 p.2

section Pairs

variable {pairs : List (Text × Text)} {p : Text × Text} {first : Bool}

theorem view_pairLine (hname : IsName p.1) (hval : Token p.2) (h : Taken p) :
    view first false (pairLine p ++ ['\n']) = .entry p.1 (seen p.2) := by
  have hseen : seen p.2 ≠ [] := by
    rw [Ne, seen_eq_nil_iff hval]
    push Not
    exact h.value
  rw [pairLine, view_varLine hname hval, if_neg (Nat.not_lt.2 h.fits), if_neg hseen]

theorem fine_pairLine_iff (hname : IsName p.1) (hval : Token p.2) :
    (view first false (pairLine p ++ ['\n'])).Fine ↔ Taken p := by
  constructor
  · intro hfine
    rw [pairLine, view_varLine hname hval] at hfine
    split_ifs at hfine with hlong hseen
    · exact absurd rfl hfine.2
    · exact absurd rfl hfine.1
    · rw [seen_eq_nil_iff hval] at hseen
      push Not at hseen
      exact ⟨hseen, Nat.not_lt.1 hlong⟩
  · intro h
    rw [view_pairLine hname hval h]
    simp [View.Fine]

/-- The step of the two below: no such line opens a PEM block. -/
theorem after_pairLine (hname : IsName p.1) : (view first false (pairLine p ++ ['\n'])).after false = false :=
  (plain_varLine hname p.2).after first false

theorem allViews_pairs (h : ∀ p ∈ pairs, IsName p.1 ∧ Token p.2) :
    AllViews View.Fine first false ((pairs.map pairLine).map (· ++ ['\n'])) ↔ ∀ p ∈ pairs, Taken p := by
  induction pairs generalizing first with
  | nil => simp [AllViews]
  | cons p rest ih =>
    obtain ⟨hname, hval⟩ := h p List.mem_cons_self
    rw [List.map_cons, List.map_cons, AllViews, after_pairLine hname, fine_pairLine_iff hname hval,
      ih fun q hq => h q (List.mem_cons_of_mem _ hq), List.forall_mem_cons]

theorem scan_pairs (h : ∀ p ∈ pairs, IsName p.1 ∧ Token p.2) (htaken : ∀ p ∈ pairs, Taken p) :
    scan first false ((pairs.map pairLine).map (· ++ ['\n'])) = pairs.map fun p => (p.1, seen p.2) := by
  induction pairs generalizing first with
  | nil => rfl
  | cons p rest ih =>
    obtain ⟨hname, hval⟩ := h p List.mem_cons_self
    rw [List.map_cons, List.map_cons, scan, after_pairLine hname,
      view_pairLine hname hval (htaken p List.mem_cons_self),
      ih (fun q hq => h q (List.mem_cons_of_mem _ hq)) fun q hq => htaken q (List.mem_cons_of_mem _ hq)]
    rfl

theorem not_mem_pairLine (h : ∀ p ∈ pairs, IsName p.1 ∧ Token p.2) : ∀ l ∈ pairs.map pairLine, '\n' ∉ l := by
  intro l hl
  obtain ⟨p, hp, rfl⟩ := List.mem_map.1 hl
  exact not_mem_varLine (h p hp).1 (h p hp).2.newline

theorem parseFile_pairs_iff (h : ∀ p ∈ pairs, IsName p.1 ∧ Token p.2) :
    (∃ entries, parseFile (textOf (pairs.map pairLine)) = .ok entries) ↔
      (∀ p ∈ pairs, Taken p) ∧ pairs.length ≤ MAX_ENTRIES := by
  rw [parseFile, splitInclusive_textOf (not_mem_pairLine h), readLoop_isOk_iff (Nat.zero_le _)]
  rw [show ((0 : ℕ) == 0) = true from rfl, allViews_pairs h]
  refine and_congr_right fun htaken => ?_
  rw [scan_pairs h htaken, List.length_map, List.length_nil, Nat.zero_add]

/-- What the reader has then: the pairs in their order. -/
theorem entries_pairs (h : ∀ p ∈ pairs, IsName p.1 ∧ Token p.2) {entries : List Entry}
    (hparse : parseFile (textOf (pairs.map pairLine)) = .ok entries) :
    entries.map Entry.pair = pairs.map fun p => (p.1, seen p.2) := by
  have htaken := ((parseFile_pairs_iff h).1 ⟨entries, hparse⟩).1
  rw [parseFile, splitInclusive_textOf (not_mem_pairLine h)] at hparse
  exact (readLoop_ok hparse).2.trans (scan_pairs h htaken)

end Pairs

/-! ### The two files of a join -/

theorem splitKv_value_head (l : Text) : ∀ c, (splitKv l).2.head? = some c → isBlank c = false := by
  intro c hc
  have hhead : ∀ t : Text, (t.dropWhile isBlank).head? = some c → isBlank c = false := by
    intro t ht
    have hnot := List.head?_dropWhile_not isBlank t
    rw [ht] at hnot
    exact hnot
  exact hhead _ hc

theorem ownVars_token {name : Text} {force : Bool} {lines : List Text} (hlines : ∀ l ∈ lines, '\n' ∉ l) :
    ∀ p ∈ ownVars name force lines, p.1 ∈ VARS ∧ Token p.2 := by
  induction lines with
  | nil => simp [ownVars]
  | cons line rest ih =>
    have hrest := ih fun l hl => hlines l (List.mem_cons_of_mem _ hl)
    rw [ownVars]
    cases hline : ownLine name force line with
    | skip => exact hrest
    | boundary v => simp
    | var v val =>
      obtain ⟨hv, -, rfl⟩ := ownLine_value hline
      refine List.forall_mem_cons.2 ⟨⟨hv, fun hmem => ?_, splitKv_value_head line⟩, hrest⟩
      exact hlines line List.mem_cons_self ((splitKv_value_suffix line).subset hmem)

def pairsFor (host : Bool) (vars : List (Var × Text)) : List (Text × Text) :=
  (vars.filter fun p => p.1.flags.contains .HOST == host).map fun p => (p.1.name, p.2)

theorem linesFor_eq (host : Bool) (vars : List (Var × Text)) :
    linesFor host vars = (pairsFor host vars).map pairLine := by
  rw [linesFor, pairsFor, List.map_map]
  rfl

theorem pairsFor_token {host : Bool} {vars : List (Var × Text)} (h : ∀ p ∈ vars, p.1 ∈ VARS ∧ Token p.2) :
    ∀ p ∈ pairsFor host vars, IsName p.1 ∧ Token p.2 := by
  intro p hp
  obtain ⟨q, hq, rfl⟩ := List.mem_map.1 hp
  obtain ⟨hv, hval⟩ := h q (List.mem_of_mem_filter hq)
  exact ⟨isName_of_mem_vars hv, hval⟩

theorem token_of_valueOk {value : Text} (h : ValueOk value) : Token value :=
  ⟨fun hmem => (h.no_break _ hmem).1 rfl, h.no_leading⟩

theorem chomp_of_valueOk {value : Text} (h : ValueOk value) (pre : Text) : chomp (pre ++ value) = pre ++ value := by
  refine rdropWhile_eq_self (fun c hc => ?_) pre h.ne_nil
  simpa using h.no_break c (List.mem_of_getLast? hc)

theorem seen_of_valueOk {value : Text} (h : ValueOk value) : seen value = value := by
  rw [seen, show chomp value = value from chomp_of_valueOk h []]
  exact rdropWhile_eq_self h.no_trailing [] h.ne_nil

theorem taken_iff_of_valueOk {k value : Text} (h : ValueOk value) :
    Taken (k, value) ↔ utf8Len (varLine k value) ≤ MAX_LINE_LEN := by
  have hchomp : chomp (varLine k value) = varLine k value := chomp_of_valueOk h _
  constructor
  · intro htaken
    simpa only [hchomp] using htaken.fits
  · intro hlen
    obtain ⟨c, rest, hc⟩ := List.exists_cons_of_ne_nil h.ne_nil
    have hmem : c ∈ value := by simp [hc]
    exact ⟨⟨c, hmem, (h.no_break c hmem).2⟩, by simpa only [hchomp] using hlen⟩

theorem utf8Len_le (l : Text) : utf8Len l ≤ 4 * l.length := by
  induction l with
  | nil => rfl
  | cons c rest ih =>
    have hc := c.utf8Size_le_four
    simp only [utf8Len, List.map_cons, List.sum_cons, List.length_cons] at ih ⊢
    omega

def blobName (data : ByteArray) : Text :=
  match String.fromUTF8? data with
  | none => []
  | some text =>
    match parseBlobHeader (strLines text.toList) with
    | .error _ => []
    | .ok (name, _) => name

/-- What a blob must be for the reader to take the two files written from it. -/
structure Legible (data : ByteArray) (force : Bool) : Prop where
  name : utf8Len (varLine "Name".toList (blobName data)) ≤ MAX_LINE_LEN
  values : ∀ p ∈ blobVars data force, Taken (p.1.name, p.2)
  conf : (pairsFor false (blobVars data force)).length < MAX_ENTRIES
  host : (pairsFor true (blobVars data force)).length < MAX_ENTRIES

/-- The reader takes the two files, and finds our name first. -/
structure Readable (r : JoinResult) (d : Disk) : Prop where
  conf : ∃ text entries, d.files .tincConf = some text ∧ parseFile text = .ok entries ∧
    (lookup entries "Name".toList).head?.map Entry.value = some r.name
  host : ∃ text entries, d.files (.host r.name) = some text ∧ parseFile text = .ok entries

section Files

variable {name : Text} {vars : List (Var × Text)} {key : NodeKey}

theorem confLines_eq : confLines name vars = (("Name".toList, name) :: pairsFor false vars).map pairLine := by
  rw [confLines, linesFor_eq, List.map_cons]
  rfl

theorem hostLines_eq :
    hostLines vars key = (pairsFor true vars ++ [("Ed25519PublicKey".toList, key.pubkeyB64)]).map pairLine := by
  rw [hostLines, linesFor_eq, List.map_append]
  rfl

theorem conf_token (hid : checkId name = true) (hvars : ∀ p ∈ vars, p.1 ∈ VARS ∧ Token p.2) :
    ∀ p ∈ ("Name".toList, name) :: pairsFor false vars, IsName p.1 ∧ Token p.2 :=
  List.forall_mem_cons.2 ⟨⟨isName_Name, token_of_valueOk (valueOk_of_checkId hid)⟩, pairsFor_token hvars⟩

theorem parse_conf_iff (hid : checkId name = true) (hvars : ∀ p ∈ vars, p.1 ∈ VARS ∧ Token p.2) :
    (∃ entries, parseFile (textOf (confLines name vars)) = .ok entries) ↔
      utf8Len (varLine "Name".toList name) ≤ MAX_LINE_LEN ∧ (∀ p ∈ pairsFor false vars, Taken p) ∧
        (pairsFor false vars).length < MAX_ENTRIES := by
  rw [confLines_eq, parseFile_pairs_iff (conf_token hid hvars), List.forall_mem_cons,
    taken_iff_of_valueOk (valueOk_of_checkId hid), List.length_cons, and_assoc, Nat.succ_le_iff]

theorem name_of_conf (hid : checkId name = true) (hvars : ∀ p ∈ vars, p.1 ∈ VARS ∧ Token p.2) {entries : List Entry}
    (h : parseFile (textOf (confLines name vars)) = .ok entries) :
    (lookup entries "Name".toList).head?.map Entry.value = some name := by
  rw [lookup_eq_filter h]
  rw [confLines_eq] at h
  have hpairs := entries_pairs (conf_token hid hvars) h
  rw [List.map_cons] at hpairs
  obtain ⟨e, rest, rfl, he, -⟩ := List.map_eq_cons_iff.1 hpairs
  obtain ⟨hname, hvalue⟩ := Prod.mk.inj he
  rw [List.filter_cons_of_pos (by rw [hname]; exact beq_self_eq_true _), List.head?_cons, Option.map_some, hvalue,
    seen_of_valueOk (valueOk_of_checkId hid)]

theorem parse_host_iff (hkey : key.pubkeyB64.length = 43) (hvars : ∀ p ∈ vars, p.1 ∈ VARS ∧ Token p.2) :
    (∃ entries, parseFile (textOf (hostLines vars key)) = .ok entries) ↔
      (∀ p ∈ pairsFor true vars, Taken p) ∧ (pairsFor true vars).length < MAX_ENTRIES := by
  have hvalue : ValueOk key.pubkeyB64 := valueOk_of_all (by decide) key.ne_nil key.alphabet
  have hfits : utf8Len (varLine "Ed25519PublicKey".toList key.pubkeyB64) ≤ MAX_LINE_LEN := by
    refine (utf8Len_le _).trans ?_
    rw [varLine, List.length_append, List.length_append, hkey]
    decide
  have hlast : IsName "Ed25519PublicKey".toList ∧ Token key.pubkeyB64 :=
    ⟨isName_of_all (by decide), token_of_valueOk hvalue⟩
  rw [hostLines_eq, parseFile_pairs_iff (List.forall_mem_append.2 ⟨pairsFor_token hvars, by simpa using hlast⟩),
    List.forall_mem_append, List.length_append, List.length_singleton, Nat.succ_le_iff]
  refine and_congr_left fun _ => and_iff_left ?_
  simpa using (taken_iff_of_valueOk hvalue).2 hfits

end Files

theorem forall_pairsFor {vars : List (Var × Text)} {P : Text × Text → Prop} :
    ((∀ p ∈ pairsFor false vars, P p) ∧ ∀ p ∈ pairsFor true vars, P p) ↔ ∀ p ∈ vars, P (p.1.name, p.2) := by
  simp only [pairsFor, List.forall_mem_map, List.mem_filter, beq_iff_eq, and_imp]
  constructor
  · rintro ⟨hconf, hhost⟩ p hp
    cases hflag : p.1.flags.contains .HOST with
    | true => exact hhost p hp hflag
    | false => exact hconf p hp hflag
  · exact fun h => ⟨fun p hp _ => h p hp, fun p hp _ => h p hp⟩

/-- The public key of a join is the base64 of 32 bytes. -/
theorem own_readable_iff {data : ByteArray} {files : Files} {force : Bool} {key : NodeKey} {r : JoinResult} {d' : Disk}
    (hkey : key.pubkeyB64.length = 43) (h : finalizeJoin data files force key = (.ok r, d')) :
    Readable r d' ↔ Legible data force := by
  obtain ⟨hconf, hhost⟩ := own_files h
  obtain ⟨⟨text, lines, peers, hutf8, hheader, -⟩⟩ := finished_of_run h
  obtain ⟨hid, hsub⟩ := header_name hheader
  have hname : blobName data = r.name := by simp only [blobName, hutf8, hheader]
  have hvars : ∀ p ∈ blobVars data force, p.1 ∈ VARS ∧ Token p.2 := by
    simp only [blobVars, hutf8, hheader]
    exact ownVars_token fun l hl => not_mem_stripNewline (hsub hl)
  constructor
  · rintro ⟨⟨text, entries, hfile, hparse, -⟩, ⟨text', entries', hfile', hparse'⟩⟩
    rw [hconf, Option.some.injEq] at hfile
    rw [hhost, Option.some.injEq] at hfile'
    subst hfile hfile'
    obtain ⟨hlen, htaken, hroom⟩ := (parse_conf_iff hid hvars).1 ⟨entries, hparse⟩
    obtain ⟨htaken', hroom'⟩ := (parse_host_iff hkey hvars).1 ⟨entries', hparse'⟩
    exact ⟨hname ▸ hlen, forall_pairsFor.1 ⟨htaken, htaken'⟩, hroom, hroom'⟩
  · rintro ⟨hlen, htaken, hroom, hroom'⟩
    rw [hname] at hlen
    obtain ⟨htakenConf, htakenHost⟩ := forall_pairsFor.2 htaken
    obtain ⟨entries, hparse⟩ := (parse_conf_iff hid hvars).2 ⟨hlen, htakenConf, hroom⟩
    obtain ⟨entries', hparse'⟩ := (parse_host_iff hkey hvars).2 ⟨htakenHost, hroom'⟩
    exact ⟨⟨_, entries, hconf, hparse, name_of_conf hid hvars hparse⟩, ⟨_, entries', hhost, hparse'⟩⟩

def zeroKey : NodeKey := ⟨List.replicate 43 'A', [], by decide, fun c hc => by rw [List.eq_of_mem_replicate hc]; rfl⟩

theorem own_readable_iff_peaceful : ∃ r d', zeroKey.pubkeyB64.length = 43 ∧
    finalizeJoin peaceful.toUTF8 (fun _ => none) false zeroKey = (.ok r, d') ∧ Readable r d' := by
  have hval : ((finalizeJoinText peaceful.toList false zeroKey).run ⟨fun _ => none, []⟩).value? =
      some ⟨"alice".toList, zeroKey.pubkeyB64, ["bob".toList]⟩ := by decide +kernel
  have hjoin := finalizeJoin_text peaceful (fun _ => none) zeroKey (Result.eq_ok_of_value hval)
  have hvars : (blobVars peaceful.toUTF8 false).map (fun p => (p.1.name, p.2)) =
      [("Mode".toList, "switch".toList)] := by
    simp only [blobVars, fromUTF8_toUTF8]
    decide +kernel
  have hroom : ∀ host, (pairsFor host (blobVars peaceful.toUTF8 false)).length < MAX_ENTRIES := by
    intro host
    refine Nat.lt_of_le_of_lt (List.Sublist.length_le (List.filter_sublist.map _)) ?_
    rw [hvars]
    decide
  refine ⟨_, _, by decide, hjoin, (own_readable_iff (by decide) hjoin).2 ⟨?_, fun p hp => ?_, hroom _, hroom _⟩⟩
  · simp only [blobName, fromUTF8_toUTF8]
    decide +kernel
  · have hmem := List.mem_map_of_mem (f := fun p : Var × Text => (p.1.name, p.2)) hp
    rw [hvars, List.mem_singleton] at hmem
    rw [hmem]
    exact ⟨⟨'s', by decide, by decide⟩, by decide⟩

def valueless : String := "Name = alice\nMode\n"

/-- A variable without a value is written down and makes the reader refuse the file. -/
theorem not_readable_valueless : ∃ r d', finalizeJoin valueless.toUTF8 (fun _ => none) false zeroKey = (.ok r, d') ∧
    (∃ text, d'.files .tincConf = some text ∧ ∀ entries, parseFile text ≠ .ok entries) ∧ ¬Readable r d' := by
  have hval : ((finalizeJoinText valueless.toList false zeroKey).run ⟨fun _ => none, []⟩).value? =
      some ⟨"alice".toList, zeroKey.pubkeyB64, []⟩ := by decide +kernel
  have hfile : ((finalizeJoinText valueless.toList false zeroKey).run ⟨fun _ => none, []⟩).last.files .tincConf =
      some "Name = alice\nMode = \n".toList := by decide +kernel
  have hbad : ∀ entries, parseFile "Name = alice\nMode = \n".toList ≠ .ok entries := by
    have hnone : (parseFile "Name = alice\nMode = \n".toList).toOption.isSome = false := by decide +kernel
    intro entries h
    rw [h] at hnone
    exact Bool.noConfusion hnone
  refine ⟨_, _, finalizeJoin_text valueless (fun _ => none) zeroKey (Result.eq_ok_of_value hval),
    ⟨_, hfile, hbad⟩, ?_⟩
  rintro ⟨⟨text, entries, htext, hparse, -⟩, -⟩
  obtain rfl := Option.some.inj (hfile.symm.trans htext)
  exact hbad entries hparse

end Tincr.Conf
