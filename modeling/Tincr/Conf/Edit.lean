import Tincr.Conf.Parse

/-!
The editor of a configuration file against its reader. `run_edit` walks the lines with a tokenizer of its
own: it knows no PEM blocks and no byte-order mark, and it trims carriage returns and blanks in any order.
What the daemon reads afterwards is what the editor meant exactly when the two agree on the lines of the
variable.
-/

namespace Tincr.Conf

open Lines

inductive Action
  | get
  | set
  | add
  | del
deriving DecidableEq, Repr

structure Intent where
  action : Action
  varName : Text
  value : Text
  warnOnRemove : Bool

structure Removing where
  varName : Text
  oldValue : Text
deriving DecidableEq, Repr

inductive EditError
  | badInput (message : String)
  /-- `debug_assert_ne!(intent.action, Action::Get)` -/
  | getIsNoEdit
deriving DecidableEq, Repr

/-- Key and value of a line with whatever stands at its end; `none` for an empty key. -/
def splitLine (line : Text) : Option (Text × Text) :=
  let (key, val) := splitKv (line.rdropWhile fun c => c == '\t' || c == '\r' || c == '\n' || c == ' ')
  if key = [] then none else some (key, val)

/-- What the walk over the lines has written and noted. -/
structure Walk where
  out : List Text
  alreadySet : Bool
  removedAny : Bool
  addDup : Bool
  warnings : List Removing

def Walk.copy (w : Walk) (line : Text) : Walk := { w with out := w.out ++ [terminate line] }

/-- `writeln!(tf, "{} = {}", intent.variable, intent.value)`. -/
def Intent.newLine (intent : Intent) : Text := intent.varName ++ [' ', '=', ' '] ++ intent.value ++ ['\n']

def Walk.matchedLine (intent : Intent) (w : Walk) (line lineVal : Text) : Walk :=
  match intent.action with
  | .get => w
  | .del =>
    if intent.value = [] ∨ eqIgnoreAsciiCase lineVal intent.value then { w with removedAny := true }
    else w.copy line
  | .set =>
    let w :=
      if intent.warnOnRemove ∧ eqIgnoreAsciiCase lineVal intent.value = false then
        { w with warnings := w.warnings ++ [⟨intent.varName, lineVal⟩] }
      else w
    if w.alreadySet then w else { w with out := w.out ++ [intent.newLine], alreadySet := true }
  | .add =>
    let w := if eqIgnoreAsciiCase lineVal intent.value then { w with addDup := true } else w
    w.copy line

def Walk.line (intent : Intent) (w : Walk) (line : Text) : Walk :=
  match splitLine line with
  | some (key, val) =>
    if eqIgnoreAsciiCase key intent.varName then w.matchedLine intent line val else w.copy line
  | none => w.copy line

def Walk.needsAppend (w : Walk) : Action → Bool
  | .set => !w.alreadySet
  | .add => !w.addDup
  | .del | .get => false

def runEdit (contents : Text) (intent : Intent) : Except EditError (Text × List Removing) :=
  if intent.action = .get then .error .getIsNoEdit
  else
    let w := (splitInclusive contents).foldl (Walk.line intent) ⟨[], false, false, false, []⟩
    let out := if w.needsAppend intent.action then w.out ++ [intent.newLine] else w.out
    if intent.action = .del ∧ w.removedAny = false then .error (.badInput "No configuration variables deleted.")
    else .ok (out.flatten, w.warnings)

def matched (varName line : Text) : Bool :=
  match splitLine line with
  | some (key, _) => eqIgnoreAsciiCase key varName
  | none => false

def lineValue (line : Text) : Text := ((splitLine line).getD ([], [])).2

def setLines (intent : Intent) (already : Bool) : List Text → List Text
  | [] => if already then [] else [intent.newLine]
  | line :: rest =>
    if matched intent.varName line then
      if already then setLines intent true rest else intent.newLine :: setLines intent true rest
    else terminate line :: setLines intent already rest

section Walk

variable {intent : Intent}

theorem walk_set (h : intent.action = .set) (lines : List Text) (w : Walk) :
    (lines.foldl (Walk.line intent) w).out ++
        (if (lines.foldl (Walk.line intent) w).alreadySet then [] else [intent.newLine]) =
      w.out ++ setLines intent w.alreadySet lines := by
  induction lines generalizing w with
  | nil => rfl
  | cons line rest ih =>
    rw [List.foldl_cons, ih, setLines]
    unfold Walk.line matched
    rcases splitLine line with _ | ⟨key, val⟩
    · simp [Walk.copy]
    · by_cases hkey : eqIgnoreAsciiCase key intent.varName = true
      · cases ha : w.alreadySet <;> simp [hkey, Walk.matchedLine, h, ha, apply_ite]
      · simp [hkey, Walk.copy]

theorem walk_add (h : intent.action = .add) (lines : List Text) (w : Walk) :
    (lines.foldl (Walk.line intent) w).out = w.out ++ lines.map terminate ∧
      (lines.foldl (Walk.line intent) w).addDup = (w.addDup || lines.any fun l =>
        matched intent.varName l && eqIgnoreAsciiCase (lineValue l) intent.value) := by
  induction lines generalizing w with
  | nil => simp
  | cons line rest ih =>
    rw [List.foldl_cons, (ih _).1, (ih _).2, List.any_cons, List.map_cons]
    unfold Walk.line matched lineValue
    rcases splitLine line with _ | ⟨key, val⟩
    · simp [Walk.copy]
    · by_cases hkey : eqIgnoreAsciiCase key intent.varName = true
      · by_cases hval : eqIgnoreAsciiCase val intent.value = true <;>
          simp [hkey, hval, Walk.matchedLine, h, Walk.copy]
      · simp [hkey, Walk.copy]

theorem walk_del (h : intent.action = .del) (hval : intent.value = []) (lines : List Text) (w : Walk) :
    (lines.foldl (Walk.line intent) w).out =
        w.out ++ (lines.filter fun l => !matched intent.varName l).map terminate ∧
      (lines.foldl (Walk.line intent) w).removedAny = (w.removedAny || lines.any (matched intent.varName)) := by
  induction lines generalizing w with
  | nil => simp
  | cons line rest ih =>
    rw [List.foldl_cons, (ih _).1, (ih _).2, List.any_cons, List.filter_cons]
    unfold Walk.line matched
    rcases splitLine line with _ | ⟨key, val⟩
    · simp [Walk.copy]
    · by_cases hkey : eqIgnoreAsciiCase key intent.varName = true
      · simp [hkey, Walk.matchedLine, h, hval]
      · simp [hkey, Walk.copy]

section Written

variable {contents out : Text} {ws : List Removing}

theorem runEdit_set (h : intent.action = .set) (hrun : runEdit contents intent = .ok (out, ws)) :
    out = (setLines intent false (splitInclusive contents)).flatten := by
  have hwalk := walk_set h (splitInclusive contents) ⟨[], false, false, false, []⟩
  simp only [runEdit, h, reduceCtorEq, false_and, if_false, Walk.needsAppend] at hrun
  obtain ⟨rfl, -⟩ := Prod.mk.inj (Except.ok.inj hrun)
  rw [List.nil_append] at hwalk
  rw [← hwalk]
  cases ((splitInclusive contents).foldl (Walk.line intent) ⟨[], false, false, false, []⟩).alreadySet <;> simp

theorem runEdit_add (h : intent.action = .add) (hrun : runEdit contents intent = .ok (out, ws)) :
    out = ((splitInclusive contents).map terminate ++
      if (splitInclusive contents).any fun l => matched intent.varName l && eqIgnoreAsciiCase (lineValue l) intent.value
      then [] else [intent.newLine]).flatten := by
  have hwalk := walk_add h (splitInclusive contents) ⟨[], false, false, false, []⟩
  simp only [runEdit, h, reduceCtorEq, false_and, if_false, Walk.needsAppend] at hrun
  obtain ⟨rfl, -⟩ := Prod.mk.inj (Except.ok.inj hrun)
  rw [hwalk.1, hwalk.2, List.nil_append, Bool.false_or]
  split_ifs <;> simp_all

theorem runEdit_del (h : intent.action = .del) (hval : intent.value = [])
    (hrun : runEdit contents intent = .ok (out, ws)) :
    out = (((splitInclusive contents).filter fun l => !matched intent.varName l).map terminate).flatten := by
  have hwalk := walk_del h hval (splitInclusive contents) ⟨[], false, false, false, []⟩
  simp only [runEdit, h, reduceCtorEq, true_and, if_false, Walk.needsAppend] at hrun
  split_ifs at hrun
  obtain ⟨rfl, -⟩ := Prod.mk.inj (Except.ok.inj hrun)
  rw [hwalk.1, List.nil_append]

end Written

end Walk

section Line

variable {varName : Text} {first inPem : Bool} {l : Text}

/-- A line whose key is a name starts with a letter or a digit. -/
theorem head_of_key (hname : IsName varName) (h : eqIgnoreAsciiCase (splitKv l).1 varName = true) :
    ∃ c rest, l = c :: rest ∧ c.isAlphanum = true := by
  rw [eqIgnoreAsciiCase, beq_iff_eq] at h
  have hne : (splitKv l).1 ≠ [] := by
    intro hnil
    rw [hnil] at h
    exact hname.ne_nil (List.map_eq_nil_iff.1 h.symm)
  obtain ⟨c, key, hk⟩ := List.exists_cons_of_ne_nil hne
  have hpre : (splitKv l).1 <+: l := List.takeWhile_prefix _
  rw [hk] at hpre h
  obtain ⟨rest, rfl⟩ := hpre
  refine ⟨c, key ++ rest, rfl, isAlphanum_of_toLower (hname.folded _ ?_)⟩
  rw [← h]
  exact List.mem_cons_self

theorem head_of_matched (hname : IsName varName) (h : matched varName l = true) :
    ∃ c rest, l = c :: rest ∧ c.isAlphanum = true := by
  unfold matched splitLine at h
  dsimp only at h
  split_ifs at h
  obtain ⟨c, rest, hl, hc⟩ := head_of_key hname h
  have hpre := List.rdropWhile_prefix (fun c => c == '\t' || c == '\r' || c == '\n' || c == ' ') l
  rw [hl] at hpre
  obtain ⟨tail, rfl⟩ := hpre
  exact ⟨c, rest ++ tail, rfl, hc⟩

/-- What stands at the front of a line that starts with a letter or a digit. -/
structure Plain (l : Text) : Prop where
  strip : ∀ first, stripBom first l = l
  ne_nil : chomp l ≠ []
  no_comment : (chomp l).head? ≠ some '#'
  no_end : "-----END".toList.isPrefixOf (chomp l) = false
  no_begin : "-----BEGIN".toList.isPrefixOf (chomp l) = false
  trimmed : trimmed false l ≠ []

theorem plain_of_head {c : Char} {rest : Text} (hc : c.isAlphanum = true) : Plain (c :: rest) := by
  have hne : ∀ d : Char, d.isAlphanum = false → c ≠ d := by
    rintro d hd rfl
    simp [hc] at hd
  have hchomp : chomp (c :: rest) = c :: chomp rest :=
    rdropWhile_cons (by simp [hne '\n' (by decide), hne '\r' (by decide)]) rest
  have hblank : isBlank c = false := by simp [isBlank, hne '\t' (by decide), hne ' ' (by decide)]
  have hdash : ('-' == c) = false := by simp [Ne.symm (hne '-' (by decide))]
  refine ⟨fun first => ?_, ?_, ?_, ?_, ?_, ?_⟩
  · simp [stripBom, hne '\uFEFF' (by decide)]
  · simp [hchomp]
  · simp [hchomp, hne '#' (by decide)]
  · simp [hchomp, List.isPrefixOf, hdash]
  · simp [hchomp, List.isPrefixOf, hdash]
  · simp [Conf.trimmed, stripBom, hchomp, rdropWhile_cons hblank]

/-- A plain line is no part of the armour of a PEM block, and outside of one it is read as an entry. -/
theorem Plain.view_eq (h : Plain l) (first inPem : Bool) : view first inPem l =
    if MAX_LINE_LEN < utf8Len (chomp l) then .tooLong
    else if inPem then .pem true
    else if (splitKv (Conf.trimmed false l)).2 = [] then .bad
    else .entry (splitKv (Conf.trimmed false l)).1 (splitKv (Conf.trimmed false l)).2 := by
  have htrim : Conf.trimmed first l = Conf.trimmed false l := by
    rw [Conf.trimmed, Conf.trimmed, h.strip, h.strip]
  rw [Conf.view_eq, h.strip, htrim]
  simp only [h.ne_nil, h.no_comment, or_self, if_false, h.no_end, h.no_begin, Bool.false_eq_true, h.trimmed,
    Bool.not_false]

theorem Plain.after (h : Plain l) (first inPem : Bool) : (view first inPem l).after inPem = inPem := by
  rw [h.view_eq]
  cases inPem <;> split_ifs <;> first | rfl | contradiction

theorem plain_of_matched (hname : IsName varName) (h : matched varName l = true) : Plain l := by
  obtain ⟨c, rest, rfl, hc⟩ := head_of_matched hname h
  exact plain_of_head hc

theorem stripBom_cons (first : Bool) (c : Char) (l : Text) :
    stripBom first (c :: l) = if first ∧ c = '\uFEFF' then l else c :: l := by
  simp [stripBom]

theorem stripBom_newline (first : Bool) (l : Text) : stripBom first (l ++ ['\n']) = stripBom first l ++ ['\n'] := by
  cases l with
  | nil => simp [stripBom]
  | cons c l =>
    rw [List.cons_append, stripBom_cons, stripBom_cons]
    split_ifs <;> rfl

/-- The newline the editor adds to the last line changes nothing for the reader. -/
theorem view_terminate (first inPem : Bool) (l : Text) : Conf.view first inPem (terminate l) = Conf.view first inPem l := by
  have hchomp : chomp (stripBom first (terminate l)) = chomp (stripBom first l) := by
    unfold terminate
    split_ifs
    · rfl
    · rw [stripBom_newline]
      exact List.rdropWhile_concat_pos _ _ _ (by simp)
  rw [view_eq, view_eq, Conf.trimmed, Conf.trimmed, hchomp]

/-- A value that can stand in a line of its own. -/
structure ValueOk (value : Text) : Prop where
  ne_nil : value ≠ []
  no_break : ∀ c ∈ value, c ≠ '\n' ∧ c ≠ '\r'
  no_leading : ∀ c, value.head? = some c → isBlank c = false
  no_trailing : ∀ c, value.getLast? = some c → isBlank c = false

theorem rdropWhile_eq_self {p : Char → Bool} {v : Text} (h : ∀ c, v.getLast? = some c → p c = false) (pre : Text)
    (hv : v ≠ []) : (pre ++ v).rdropWhile p = pre ++ v := by
  refine List.rdropWhile_eq_self_iff.2 fun hne => ?_
  rw [List.getLast_append_of_ne_nil _ hv, h _ (List.getLast?_eq_some_getLast hv)]
  simp

theorem isAlphanum_not_separator {c : Char} (h : c.isAlphanum = true) : isSeparator c = false := by
  have hne : ∀ d : Char, d.isAlphanum = false → c ≠ d := by
    rintro d hd rfl
    simp [h] at hd
  simp [isSeparator, isBlank, hne '\t' (by decide), hne ' ' (by decide), hne '=' (by decide)]

section NewLine

variable {intent : Intent}

theorem trimmed_newLine (hvalue : ValueOk intent.value) :
    Conf.trimmed false intent.newLine = intent.varName ++ [' ', '=', ' '] ++ intent.value := by
  have hbreak : ∀ c, intent.value.getLast? = some c → (c == '\n' || c == '\r') = false := fun c hc => by
    simpa using hvalue.no_break c (List.mem_of_getLast? hc)
  have hchomp : chomp intent.newLine = intent.varName ++ [' ', '=', ' '] ++ intent.value := by
    rw [chomp, Intent.newLine, List.rdropWhile_concat_pos _ _ _ (by simp)]
    exact rdropWhile_eq_self hbreak _ hvalue.ne_nil
  rw [Conf.trimmed, stripBom, if_neg (by simp), hchomp]
  exact rdropWhile_eq_self hvalue.no_trailing _ hvalue.ne_nil

theorem splitKv_newLine (hname : IsName intent.varName) (hvalue : ValueOk intent.value) :
    splitKv (Conf.trimmed false intent.newLine) = (intent.varName, intent.value) := by
  have hsep : ∀ c ∈ intent.varName, (!isSeparator c) = true := fun c hc => by
    rw [isAlphanum_not_separator (hname.alphanum c hc)]
    rfl
  obtain ⟨v, vs, hv⟩ := List.exists_cons_of_ne_nil hvalue.ne_nil
  have hlead : isBlank v = false := hvalue.no_leading v (by rw [hv]; rfl)
  have hblank : isSeparator ' ' = true := rfl
  rw [trimmed_newLine hvalue, splitKv, List.append_assoc, List.dropWhile_append_of_pos hsep,
    List.takeWhile_append_of_pos hsep]
  simp only [hv, List.cons_append, List.nil_append, List.takeWhile_cons, List.dropWhile_cons, hblank, Bool.not_true,
    Bool.false_eq_true, if_false, List.append_nil]
  simpa [isBlank] using hlead

theorem plain_newLine (hname : IsName intent.varName) : Plain intent.newLine := by
  obtain ⟨c, name, hc⟩ := List.exists_cons_of_ne_nil hname.ne_nil
  rw [Intent.newLine, hc]
  exact plain_of_head (hname.alphanum c (by rw [hc]; exact List.mem_cons_self))

/-- The reader finds the variable and the value in the new line, unless it stands in a PEM block. -/
theorem view_newLine (hname : IsName intent.varName) (hvalue : ValueOk intent.value) (first inPem : Bool) :
    view first inPem intent.newLine =
      if MAX_LINE_LEN < utf8Len (chomp intent.newLine) then .tooLong
      else if inPem then .pem true else .entry intent.varName intent.value := by
  rw [(plain_newLine hname).view_eq, splitKv_newLine hname hvalue, if_neg hvalue.ne_nil]

theorem isLine_newLine (hname : IsName intent.varName) (hvalue : ValueOk intent.value) : IsLine intent.newLine := by
  refine ⟨intent.varName ++ [' ', '=', ' '] ++ intent.value, ?_, rfl⟩
  have hno : '\n' ∉ intent.varName := fun hmem => by simpa using hname.alphanum _ hmem
  have hno' : '\n' ∉ intent.value := fun hmem => (hvalue.no_break _ hmem).1 rfl
  simp [hno, hno']

end NewLine

end Line

end Tincr.Conf
