import Tincr.Conf.JoinRead
import Tincr.Lib.Sorted

/-!
Host files in one text. The export writes a line with the name before each file and a separator between two; the import
finds the files again by these lines alone. The blank line before the separator becomes a part of the file before it.
-/

namespace Tincr.Cmd

open Function Conf Lines

/-- What `read_to_string` gives for each file of the directory, if it gives something, in the order of `read_dir`. -/
structure HostsDir where
  entries : List (Text × Option Text)
  nodup : (entries.map Prod.fst).Nodup

def isNameLine (line : Text) : Bool := eqIgnoreAsciiCase (splitKv line).1 "Name".toList

def exportOne (name content : Text) : Text :=
  textOf (varLine "Name".toList name :: (strLines content).filter fun line => !isNameLine line)

/-- The output, and whether some file could not be read. -/
def exportLoop (dir : HostsDir) (first : Bool) : List Text → Text × Bool
  | [] => ([], false)
  | name :: names =>
    let sep := if first then [] else textOf [[], SEPARATOR]
    let rest := exportLoop dir false names
    match (dir.entries.lookup name).join with
    | some content => (sep ++ exportOne name content ++ rest.1, rest.2)
    | none => (sep ++ rest.1, true)

def HostsDir.names (dir : HostsDir) : List Text :=
  ((dir.entries.map Prod.fst).filter fun name => checkId name).mergeSort fun a b => decide (a ≤ b)

def exportAll (dir : HostsDir) : Text × Except CmdError Unit :=
  let (out, anyError) := exportLoop dir true dir.names
  (out, if anyError then .error (.badInput "Some host files could not be exported") else .ok ())

def isWhitespace (c : Char) : Bool :=
  ('\t' ≤ c && c ≤ '\r') || c == ' ' || c == '\u0085' || c == '\u00a0' || c == '\u1680' ||
    ('\u2000' ≤ c && c ≤ '\u200a') || c == '\u2028' || c == '\u2029' || c == '\u202f' || c == '\u205f' || c == '\u3000'

/-- `split_whitespace().next()`, empty if there is none. -/
def firstWord (cs : Text) : Text := (cs.dropWhile isWhitespace).takeWhile fun c => !isWhitespace c

def namePrefix : Text := "Name".toList ++ [' ', '=', ' ']

abbrev Hosts := Text → Option Text

def Hosts.append (files : Hosts) (name line : Text) : Hosts :=
  update files name ((files name).map fun t => t ++ (line ++ ['\n']))

/-- `cur` is the file that is being written, `count` how many have been opened. -/
def importLoop (force : Bool) (files : Hosts) (cur : Option Text) (count : ℕ) : List Text → Except CmdError ℕ × Hosts
  | [] => (.ok count, files)
  | line :: rest =>
    match line.dropPrefix? namePrefix with
    | some tail =>
      let name := firstWord tail
      if checkId name = false then (.error (.badInput "Invalid Name in input!"), files)
      else if force = false ∧ (files name).isSome then importLoop force files none count rest
      else importLoop force (update files name (some [])) (some name) (count + 1) rest
    | none =>
      if line = SEPARATOR then importLoop force files cur count rest
      else match cur with
        | some name => importLoop force (files.append name line) cur count rest
        | none => importLoop force files cur count rest

def importHosts (force : Bool) (files : Hosts) (inp : Text) : Except CmdError ℕ × Hosts :=
  importLoop force files none 0 (strLines inp)

/-! ### Lines -/

/-- A line of a host file that neither side takes for something else. -/
structure Portable (l : Text) : Prop where
  newline : '\n' ∉ l
  carriage : '\r' ∉ l
  name : isNameLine l = false
  separator : l ≠ SEPARATOR

theorem stripNewline_concat {l : Text} (h : l.getLast? ≠ some '\r') : stripNewline (l ++ ['\n']) = l := by
  have hlast : (l ++ ['\n']).getLast? = some '\n' := by simp
  simp only [stripNewline, hlast, List.dropLast_concat, if_pos, if_neg h]

theorem strLines_textOf {lines : List Text} (h : ∀ l ∈ lines, '\n' ∉ l ∧ '\r' ∉ l) : strLines (textOf lines) = lines := by
  rw [strLines, splitInclusive_textOf fun l hl => (h l hl).1, List.map_map]
  conv_rhs => rw [← List.map_id lines]
  refine List.map_congr_left fun l hl => ?_
  exact stripNewline_concat fun hmem => (h l hl).2 (List.mem_of_getLast? hmem)

theorem textOf_append (a b : List Text) : textOf (a ++ b) = textOf a ++ textOf b := by
  simp [textOf]

theorem textOf_cons (l : Text) (ls : List Text) : textOf (l :: ls) = l ++ ['\n'] ++ textOf ls := by
  simp [textOf]

theorem isNameLine_varLine (value : Text) : isNameLine (varLine "Name".toList value) = true := by
  rw [isNameLine, splitKv_varLine isName_Name]
  decide

theorem dropPrefix_header (name : Text) : (varLine "Name".toList name).dropPrefix? namePrefix = some name :=
  List.dropPrefix?_eq_some_iff.2 ⟨namePrefix, rfl, beq_self_eq_true _⟩

theorem dropPrefix_portable {l : Text} (h : isNameLine l = false) : l.dropPrefix? namePrefix = none := by
  cases hdrop : l.dropPrefix? namePrefix with
  | none => rfl
  | some tail =>
    obtain ⟨pre, rfl, hpre⟩ := List.dropPrefix?_eq_some_iff.1 hdrop
    rw [eq_of_beq hpre] at h
    exact absurd (isNameLine_varLine tail) (by rw [varLine]; simp [namePrefix] at h; simp [h])

theorem not_isWhitespace_idChar {c : Char} (h : (c.isAlphanum || c == '_') = true) : isWhitespace c = false := by
  have hall : ∀ n : Fin 128, ((Char.ofNat n).isAlphanum || Char.ofNat n == '_') = true →
      isWhitespace (Char.ofNat n) = false := by decide
  have hc := hall ⟨c.toNat, lt_of_idChar h⟩
  rw [Char.ofNat_toNat] at hc
  exact hc h

variable {name : Text}

theorem firstWord_name (h : checkId name = true) : firstWord name = name := by
  simp only [checkId, Bool.and_eq_true, List.all_eq_true] at h
  have hsolid : ∀ c ∈ name, isWhitespace c = false := fun c hc => not_isWhitespace_idChar (h.2 c hc)
  have hdrop : name.dropWhile isWhitespace = name := by
    cases name with
    | nil => rfl
    | cons c cs => exact List.dropWhile_cons_of_neg (by simp [hsolid c List.mem_cons_self])
  rw [firstWord, hdrop, List.takeWhile_eq_self_iff]
  intro c hc
  simp [hsolid c hc]

/-! ### Importing what was exported -/

variable {force : Bool} {files : Hosts} {cur : Option Text} {count : ℕ} {rest : List Text}

theorem importLoop_header (hname : checkId name = true) (hnew : files name = none) :
    importLoop force files cur count (varLine "Name".toList name :: rest) =
      importLoop force (update files name (some [])) (some name) (count + 1) rest := by
  simp only [importLoop, dropPrefix_header, firstWord_name hname, hname, hnew, Bool.true_eq_false, Option.isSome_none,
    Bool.false_eq_true, and_false, if_false]

theorem importLoop_content {t : Text} {ls : List Text} (h : ∀ l ∈ ls, Portable l) :
    importLoop force (update files name (some t)) (some name) count (ls ++ rest) =
      importLoop force (update files name (some (t ++ textOf ls))) (some name) count rest := by
  induction ls generalizing t with
  | nil => simp [textOf]
  | cons l ls ih =>
    have hl : Portable l := h l List.mem_cons_self
    rw [List.cons_append, importLoop, dropPrefix_portable hl.name]
    simp only [if_neg hl.separator, Hosts.append, update_self, Option.map_some, update_idem]
    rw [ih fun m hm => h m (List.mem_cons_of_mem _ hm), textOf_cons]
    simp only [List.append_assoc]

theorem importLoop_separator : importLoop force files cur count (SEPARATOR :: rest) =
    importLoop force files cur count rest := by
  have hname : isNameLine SEPARATOR = false := by decide
  simp only [importLoop, dropPrefix_portable hname, if_true]

section Sections

variable (f : Text → List Text)

def sections (first : Bool) : List Text → List Text
  | [] => []
  | name :: names =>
    (if first then [] else [[], SEPARATOR]) ++ (varLine "Name".toList name :: f name) ++ sections false names

def imported : List Text → Hosts → Hosts
  | [], files => files
  | name :: names, files =>
    imported names (update files name (some (textOf (f name) ++ if names = [] then [] else ['\n'])))

variable {f}

theorem exportOne_eq (name : Text) {ls : List Text} (h : ∀ l ∈ ls, Portable l) :
    exportOne name (textOf ls) = textOf (varLine "Name".toList name :: ls) := by
  have hkeep : ls.filter (fun line => !isNameLine line) = ls :=
    List.filter_eq_self.2 fun l hl => by simp [(h l hl).name]
  rw [exportOne, strLines_textOf fun l hl => ⟨(h l hl).newline, (h l hl).carriage⟩, hkeep]

variable {names : List Text} {name : Text}

theorem exportLoop_eq {dir : HostsDir} (first : Bool)
    (hread : ∀ name ∈ names, (dir.entries.lookup name).join = some (textOf (f name)))
    (hlines : ∀ name ∈ names, ∀ l ∈ f name, Portable l) :
    exportLoop dir first names = (textOf (sections f first names), false) := by
  induction names generalizing first with
  | nil => rfl
  | cons name names ih =>
    have htail := ih false (fun n hn => hread n (List.mem_cons_of_mem _ hn))
      fun n hn => hlines n (List.mem_cons_of_mem _ hn)
    rw [exportLoop, hread name List.mem_cons_self, htail, sections, textOf_append, textOf_append]
    dsimp only
    rw [exportOne_eq name (hlines name List.mem_cons_self)]
    cases first <;> rfl

theorem portable_nil : Portable [] := ⟨by simp, by simp, by decide, by simp [SEPARATOR]⟩

/-- The rest of the export, behind a file that has been read up to `t`. -/
theorem importLoop_sections {cur t : Text} (hnodup : (cur :: names).Nodup)
    (hnames : ∀ name ∈ names, checkId name = true ∧ files name = none ∧ ∀ l ∈ f name, Portable l) :
    importLoop false (update files cur (some t)) (some cur) count (sections f false names) =
      (.ok (count + names.length),
        imported f names (update files cur (some (t ++ if names = [] then [] else ['\n'])))) := by
  induction names generalizing files cur t count with
  | nil => simp [sections, importLoop, imported]
  | cons name names ih =>
    obtain ⟨hid, hnew, hlines⟩ := hnames name List.mem_cons_self
    rw [List.nodup_cons] at hnodup
    have hne : name ≠ cur := fun heq => hnodup.1 (heq ▸ List.mem_cons_self)
    have hblank : textOf [[]] = ['\n'] := rfl
    have hsplit : sections f false (name :: names) =
        [[]] ++ SEPARATOR :: varLine "Name".toList name :: (f name ++ sections f false names) := by
      simp [sections]
    have hfresh : update files cur (some (t ++ ['\n'])) name = none := by
      rw [update_of_ne hne, hnew]
    rw [hsplit, importLoop_content (by simpa using portable_nil), hblank, importLoop_separator,
      importLoop_header hid hfresh, importLoop_content hlines, List.nil_append, ih hnodup.2 ?_]
    · simp only [imported, List.length_cons, reduceCtorEq, if_false]
      rw [Nat.add_assoc, Nat.add_comm 1]
    · intro n hn
      obtain ⟨hid', hnew', hlines'⟩ := hnames n (List.mem_cons_of_mem _ hn)
      refine ⟨hid', ?_, hlines'⟩
      rw [update_of_ne, hnew']
      rintro rfl
      exact hnodup.1 (List.mem_cons_of_mem _ hn)

theorem imported_of_notMem (h : name ∉ names) (files : Hosts) : imported f names files name = files name := by
  induction names generalizing files with
  | nil => rfl
  | cons n names ih =>
    rw [List.mem_cons, not_or] at h
    rw [imported, ih h.2, update_of_ne h.1]

theorem imported_of_mem (hnodup : names.Nodup) (h : name ∈ names) (files : Hosts) :
    imported f names files name =
      some (textOf (f name) ++ if names.getLast? = some name then [] else ['\n']) := by
  induction names generalizing files with
  | nil => cases h
  | cons n names ih =>
    rw [List.nodup_cons] at hnodup
    rw [imported]
    by_cases hn : name = n
    · subst hn
      have hlast : names = [] ↔ (name :: names).getLast? = some name := by
        cases names with
        | nil => simp
        | cons m names =>
          simp only [reduceCtorEq, false_iff, List.getLast?_cons_cons]
          exact fun heq => hnodup.1 (List.mem_of_getLast? heq)
      rw [imported_of_notMem hnodup.1, update_self]
      simp only [hlast]
    · have hmem : name ∈ names := (List.mem_cons.1 h).resolve_left hn
      obtain ⟨m, names, rfl⟩ := List.exists_cons_of_ne_nil (List.ne_nil_of_mem hmem)
      rw [ih hnodup.2 hmem, List.getLast?_cons_cons]

theorem importLoop_all (hnodup : names.Nodup)
    (hnames : ∀ name ∈ names, checkId name = true ∧ files name = none ∧ ∀ l ∈ f name, Portable l) :
    importLoop false files none 0 (sections f true names) = (.ok names.length, imported f names files) := by
  cases names with
  | nil => rfl
  | cons name names =>
    obtain ⟨hid, hnew, hlines⟩ := hnames name List.mem_cons_self
    have hrest := fun n hn => hnames n (List.mem_cons_of_mem _ hn)
    have hsplit : sections f true (name :: names) =
        varLine "Name".toList name :: (f name ++ sections f false names) := by simp [sections]
    rw [hsplit, importLoop_header hid hnew, importLoop_content hlines, List.nil_append,
      importLoop_sections hnodup hrest, imported, List.length_cons, Nat.add_comm, Nat.zero_add]

theorem not_mem_header (h : checkId name = true) {c : Char} (hc : isWhitespace c = true) (hchar : c ∉ namePrefix) :
    c ∉ varLine "Name".toList name := by
  simp only [checkId, Bool.and_eq_true, List.all_eq_true] at h
  refine List.not_mem_append hchar fun hmem => ?_
  rw [not_isWhitespace_idChar (h.2 c hmem)] at hc
  cases hc

theorem plain_sections (first : Bool) (hnames : ∀ name ∈ names, checkId name = true ∧ ∀ l ∈ f name, Portable l) :
    ∀ l ∈ sections f first names, '\n' ∉ l ∧ '\r' ∉ l := by
  induction names generalizing first with
  | nil => intro l hl; cases hl
  | cons name names ih =>
    obtain ⟨hid, hlines⟩ := hnames name List.mem_cons_self
    intro l hl
    rw [sections, List.mem_append, List.mem_append, List.mem_cons] at hl
    rcases hl with (hl | rfl | hl) | hl
    · have hseparator : '\n' ∉ SEPARATOR ∧ '\r' ∉ SEPARATOR := by decide
      split_ifs at hl
      · cases hl
      · rcases List.mem_cons.1 hl with rfl | hl
        · simp
        · rw [List.mem_singleton.1 hl]
          exact hseparator
    · exact ⟨not_mem_header hid (by decide) (by decide), not_mem_header hid (by decide) (by decide)⟩
    · exact ⟨(hlines l hl).newline, (hlines l hl).carriage⟩
    · exact ih false (fun n hn => hnames n (List.mem_cons_of_mem _ hn)) l hl

end Sections

/-! ### The directory -/

section Directory

variable {dir : HostsDir}

def linesOf (dir : HostsDir) (name : Text) : List Text := strLines ((dir.entries.lookup name).join.getD [])

theorem mem_names (hids : ∀ e ∈ dir.entries, checkId e.1 = true) {name : Text} :
    name ∈ dir.names ↔ name ∈ dir.entries.map Prod.fst := by
  rw [HostsDir.names, List.mem_mergeSort, List.mem_filter, and_iff_left_iff_imp]
  intro hmem
  obtain ⟨e, he, rfl⟩ := List.mem_map.1 hmem
  exact hids e he

theorem sorted_names (dir : HostsDir) : dir.names.Pairwise (· ≤ ·) := by
  have h := @List.pairwise_mergeSort _ (fun a b : Text => decide (a ≤ b)) (by simpa using fun a b c => le_trans)
    (by simpa using le_total) ((dir.entries.map Prod.fst).filter fun name => checkId name)
  simpa [HostsDir.names] using h

theorem nodup_names (dir : HostsDir) : dir.names.Nodup :=
  (List.mergeSort_perm _ _).nodup_iff.2 (dir.nodup.filter _)

theorem length_names (hids : ∀ e ∈ dir.entries, checkId e.1 = true) : dir.names.length = dir.entries.length := by
  have hall : (dir.entries.map Prod.fst).filter (fun name => checkId name) = dir.entries.map Prod.fst :=
    List.filter_eq_self.2 (List.forall_mem_map.2 hids)
  rw [HostsDir.names, List.length_mergeSort, hall, List.length_map]

/-- What is imported from the export of a directory. -/
theorem import_exportAll (hids : ∀ e ∈ dir.entries, checkId e.1 = true)
    (hfiles : ∀ e ∈ dir.entries, ∃ ls, e.2 = some (textOf ls) ∧ ∀ l ∈ ls, Portable l) :
    (exportAll dir).2 = .ok () ∧
      importHosts false (fun _ => none) (exportAll dir).1 = (.ok dir.entries.length, fun name =>
        (dir.entries.lookup name).join.map fun content =>
          if ∀ e ∈ dir.entries, e.1 ≤ name then content else content ++ ['\n']) := by
  have hentry : ∀ name ∈ dir.names, checkId name = true ∧
      (dir.entries.lookup name).join = some (textOf (linesOf dir name)) ∧ ∀ l ∈ linesOf dir name, Portable l := by
    intro name hname
    obtain ⟨e, he, rfl⟩ := List.mem_map.1 ((mem_names hids).1 hname)
    obtain ⟨ls, hls, hlines⟩ := hfiles e he
    have hcontent : (dir.entries.lookup e.1).join = some (textOf ls) := by
      rw [List.lookup_of_mem dir.nodup he, hls]
      rfl
    have hlinesOf : linesOf dir e.1 = ls := by
      rw [linesOf, hcontent]
      exact strLines_textOf fun l hl => ⟨(hlines l hl).newline, (hlines l hl).carriage⟩
    rw [hlinesOf]
    exact ⟨hids e he, hcontent, hlines⟩
  have hexport := exportLoop_eq true (fun name hname => (hentry name hname).2.1) fun name hname => (hentry name hname).2.2
  have hplain := plain_sections true fun name hname => ⟨(hentry name hname).1, (hentry name hname).2.2⟩
  have himport : importLoop false (fun _ => none) none 0 (sections (linesOf dir) true dir.names) =
      (.ok dir.names.length, imported (linesOf dir) dir.names fun _ => none) :=
    importLoop_all (nodup_names dir) fun name hname => ⟨(hentry name hname).1, rfl, (hentry name hname).2.2⟩
  rw [exportAll, hexport]
  refine ⟨rfl, ?_⟩
  rw [importHosts, strLines_textOf hplain, himport, length_names hids]
  refine congrArg _ (funext fun name => ?_)
  by_cases hname : name ∈ dir.names
  · have hlast : dir.names.getLast? = some name ↔ ∀ e ∈ dir.entries, e.1 ≤ name := by
      rw [List.getLast?_eq_some_iff_of_sorted (sorted_names dir) hname]
      simp only [mem_names hids, List.forall_mem_map]
    rw [imported_of_mem (nodup_names dir) hname, (hentry name hname).2.1, Option.map_some]
    simp only [hlast]
    split_ifs
    · rw [List.append_nil]
    · rfl
  · have hnone : dir.entries.lookup name = none := by
      rw [List.lookup_eq_none_iff]
      intro e he
      refine bne_iff_ne.2 ?_
      rintro rfl
      exact hname ((mem_names hids).2 (List.mem_map_of_mem he))
    rw [imported_of_notMem hname, hnone]
    rfl

end Directory

def twoHosts : HostsDir where
  entries := [("bob".toList, some (textOf ["Port = 655".toList])), ("alice".toList, some (textOf []))]
  nodup := by decide

theorem import_exportAll_two : (importHosts false (fun _ => none) (exportAll twoHosts).1).1 = .ok 2 ∧
    (importHosts false (fun _ => none) (exportAll twoHosts).1).2 "alice".toList = some ['\n'] ∧
    (importHosts false (fun _ => none) (exportAll twoHosts).1).2 "bob".toList = some (textOf ["Port = 655".toList]) := by
  have hport : Portable "Port = 655".toList :=
    ⟨by decide, by decide, by decide, by decide⟩
  have hfiles : ∀ e ∈ twoHosts.entries, ∃ ls, e.2 = some (textOf ls) ∧ ∀ l ∈ ls, Portable l := by
    intro e he
    rcases List.mem_cons.1 he with rfl | he
    · exact ⟨_, rfl, fun l hl => List.mem_singleton.1 hl ▸ hport⟩
    · rw [List.mem_singleton.1 he]
      exact ⟨_, rfl, by simp⟩
  obtain ⟨-, himport⟩ := import_exportAll (List.all_eq_true.1 (by decide)) hfiles
  rw [himport]
  exact ⟨rfl, by decide, by decide⟩

/-! ### What an import may write -/

section Confined

variable {old : Hosts}

/-- A file of a proper name that is new, unless `force` is given. -/
def MayWrite (force : Bool) (old : Hosts) (name : Text) : Prop := checkId name = true ∧ (old name = none ∨ force = true)

theorem confined_update (hfiles : ∀ n, files n = old n ∨ MayWrite force old n) (hname : MayWrite force old name)
    (content : Option Text) (n : Text) : update files name content n = old n ∨ MayWrite force old n := by
  rcases eq_or_ne n name with rfl | hne
  · exact .inr hname
  · rw [update_of_ne hne]
    exact hfiles n

theorem importLoop_confined {lines : List Text} (hfiles : ∀ n, files n = old n ∨ MayWrite force old n)
    (hcur : ∀ n ∈ cur, MayWrite force old n) (n : Text) :
    (importLoop force files cur count lines).2 n = old n ∨ MayWrite force old n := by
  induction lines generalizing files cur count with
  | nil => exact hfiles n
  | cons line rest ih =>
    unfold importLoop
    split
    · next tail _ =>
      dsimp only
      split_ifs with hid hold
      · exact hfiles n
      · exact ih hfiles (by simp)
      · have hname : MayWrite force old (firstWord tail) := by
          rcases hfiles (firstWord tail) with hsame | hmay
          · exact ⟨by simpa using hid, by simpa [imp_iff_or_not, hsame] using hold⟩
          · exact hmay
        exact ih (confined_update hfiles hname _) (by simpa using hname)
    · split_ifs
      · exact ih hfiles hcur
      · split
        · exact ih (confined_update hfiles (hcur _ rfl) _) hcur
        · exact ih hfiles hcur

/-- Whatever the input, and even where it makes the import fail: only files of proper names are written, and without
`force` only such as were not there. -/
theorem importHosts_confined (force : Bool) (files : Hosts) (inp name : Text) :
    (importHosts force files inp).2 name = files name ∨ MayWrite force files name :=
  importLoop_confined (fun _ => .inl rfl) (by simp) name

end Confined

end Tincr.Cmd
