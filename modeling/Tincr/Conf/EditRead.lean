import Tincr.Conf.Edit

/-!
What the daemon reads from an edited file. The reader's entries on the lines that the editor does not take
for its variable stay where they are; what becomes of the variable is said by four things about the file
before the edit: entries of the variable the editor passes over, entries of other variables it takes for
its own, whether the new line stands where the reader sees it, and whether a deletion moves a byte-order
mark to the front.
-/

namespace Tincr.Conf

open Lines

/-- The entries of the lines in `keep`, each read in its place. -/
def scanOf (keep : Text → Bool) (first inPem : Bool) : List Text → List (Text × Text)
  | [] => []
  | l :: rest =>
    (if keep l then (view first inPem l).pairs else []) ++ scanOf keep false ((view first inPem l).after inPem) rest

def mine (varName : Text) (p : Text × Text) : Bool := asciiFold p.1 == asciiFold varName

def unmatched (varName line : Text) : Bool := !matched varName line

/-- Entries of the variable on lines that the editor passes over. -/
def unseen (varName : Text) (lines : List Text) : List (Text × Text) :=
  (scanOf (unmatched varName) true false lines).filter (mine varName)

/-- Entries of other variables on lines that the editor takes for its own. -/
def clobbered (varName : Text) (lines : List Text) : List (Text × Text) :=
  (scanOf (matched varName) true false lines).filter fun p => !mine varName p

/-- The line that `set` writes stands outside of a PEM block. -/
def writtenSeen (varName : Text) (first inPem : Bool) : List Text → Bool
  | [] => !inPem
  | l :: rest =>
    if matched varName l then !inPem else writtenSeen varName false ((view first inPem l).after inPem) rest

/-- With the lines of the variable gone, another line comes first and starts with a byte-order mark. -/
def shifts (varName : Text) : List Text → Bool
  | [] => false
  | l :: rest => matched varName l && (rest.find? (unmatched varName)).bind List.head? == some '\uFEFF'

section Scan

variable {varName : Text} {first inPem : Bool}

theorem scanOf_filter_length (keep : Text → Bool) (p : Text × Text → Bool) (first inPem : Bool) (lines : List Text) :
    ((scanOf keep first inPem lines).filter p).length + ((scanOf (fun l => !keep l) first inPem lines).filter p).length =
      ((scan first inPem lines).filter p).length := by
  induction lines generalizing first inPem with
  | nil => rfl
  | cons l rest ih =>
    have hrest := ih false ((view first inPem l).after inPem)
    simp only [scanOf, scan, List.filter_append, List.length_append]
    by_cases hkeep : keep l = true <;> simp [hkeep] <;> omega

theorem scanOf_sublist (keep : Text → Bool) (first inPem : Bool) (lines : List Text) :
    (scanOf keep first inPem lines).Sublist (scan first inPem lines) := by
  induction lines generalizing first inPem with
  | nil => exact List.Sublist.refl _
  | cons l rest ih =>
    rw [scanOf, scan]
    refine List.Sublist.append ?_ (ih _ _)
    split_ifs
    · exact List.Sublist.refl _
    · exact List.nil_sublist _

/-- The other variables' entries all stay if and only if none stands on a line of the variable. -/
theorem others_kept_iff (varName : Text) (lines : List Text) :
    (scanOf (unmatched varName) true false lines).filter (fun p => !mine varName p) =
      (scan true false lines).filter (fun p => !mine varName p) ↔ clobbered varName lines = [] := by
  have hlen := scanOf_filter_length (matched varName) (fun p => !mine varName p) true false lines
  have hsub := (scanOf_sublist (unmatched varName) true false lines).filter fun p => !mine varName p
  have hun : (fun l => !matched varName l) = unmatched varName := rfl
  rw [hun] at hlen
  rw [clobbered, ← List.length_eq_zero_iff]
  constructor
  · intro h
    rw [h] at hlen
    omega
  · intro h
    exact hsub.eq_of_length (by omega)

theorem AllViews.imp {P Q : View → Prop} (himp : ∀ v, P v → Q v) {lines : List Text}
    (h : AllViews P first inPem lines) : AllViews Q first inPem lines := by
  induction lines generalizing first inPem with
  | nil => exact h
  | cons l rest ih => exact ⟨himp _ h.1, ih h.2⟩

/-- Behind the first line, dropping the lines of the variable leaves the others as they were. -/
theorem scan_unmatched (hname : IsName varName) (lines : List Text) :
    scan false inPem ((lines.filter (unmatched varName)).map terminate) =
      scanOf (unmatched varName) false inPem lines := by
  induction lines generalizing inPem with
  | nil => rfl
  | cons l rest ih =>
    rw [List.filter_cons, scanOf]
    cases hm : matched varName l with
    | true =>
      have hafter := (plain_of_matched hname hm).after false inPem
      simp [unmatched, hm, hafter, ← ih]
    | false => simp [unmatched, hm, scan, view_terminate, ← ih]

theorem allViews_unmatched {P : View → Prop} (hname : IsName varName) {lines : List Text}
    (h : AllViews P false inPem lines) :
    AllViews P false inPem ((lines.filter (unmatched varName)).map terminate) := by
  induction lines generalizing inPem with
  | nil => exact h
  | cons l rest ih =>
    rw [List.filter_cons]
    cases hm : matched varName l with
    | true =>
      have hrest := ih h.2
      rw [(plain_of_matched hname hm).after] at hrest
      simpa [unmatched, hm] using hrest
    | false => simpa [unmatched, hm, AllViews, view_terminate] using ⟨h.1, ih h.2⟩

end Scan

section Set

variable {intent : Intent} {first inPem : Bool} {lines : List Text}

theorem setLines_true (lines : List Text) :
    setLines intent true lines = (lines.filter (unmatched intent.varName)).map terminate := by
  induction lines with
  | nil => rfl
  | cons l rest ih => cases hm : matched intent.varName l <;> simp [setLines, unmatched, hm, ih]

theorem isLine_setLines (hname : IsName intent.varName) (hvalue : ValueOk intent.value) {contents : Text}
    (h : lines ⊆ splitInclusive contents) (already : Bool) : ∀ l ∈ setLines intent already lines, IsLine l := by
  have hnew := isLine_newLine hname hvalue
  induction lines generalizing already with
  | nil => cases already <;> simp [setLines, hnew]
  | cons l rest ih =>
    have hl := isLine_terminate (h List.mem_cons_self)
    have hrest := ih fun x hx => h (List.mem_cons_of_mem _ hx)
    rw [setLines]
    split_ifs
    · exact hrest true
    · simpa using ⟨hnew, hrest true⟩
    · simpa using ⟨hl, hrest already⟩

theorem newLine_ne_bad (hname : IsName intent.varName) (hvalue : ValueOk intent.value) (first inPem : Bool) :
    view first inPem intent.newLine ≠ .bad := by
  rw [view_newLine hname hvalue]
  split_ifs <;> simp

theorem newLine_pairs (hname : IsName intent.varName) (hvalue : ValueOk intent.value)
    (h : (view first inPem intent.newLine).Fine) :
    (view first inPem intent.newLine).pairs = if inPem then [] else [(intent.varName, intent.value)] := by
  rw [view_newLine hname hvalue] at h ⊢
  by_cases hlong : MAX_LINE_LEN < utf8Len (chomp intent.newLine)
  · rw [if_pos hlong] at h
    exact absurd rfl h.2
  · rw [if_neg hlong]
    split_ifs <;> rfl

theorem allViews_setLines (hname : IsName intent.varName) (hvalue : ValueOk intent.value)
    (h : AllViews (· ≠ .bad) first inPem lines) :
    AllViews (· ≠ .bad) first inPem (setLines intent false lines) := by
  induction lines generalizing first inPem with
  | nil => exact ⟨newLine_ne_bad hname hvalue first inPem, trivial⟩
  | cons l rest ih =>
    cases hm : matched intent.varName l with
    | true =>
      have hrest := allViews_unmatched hname h.2
      rw [(plain_of_matched hname hm).after] at hrest
      simp only [setLines, hm, if_true, Bool.false_eq_true, if_false, setLines_true]
      refine ⟨newLine_ne_bad hname hvalue first inPem, ?_⟩
      rw [(plain_newLine hname).after]
      exact hrest
    | false =>
      simp only [setLines, hm, Bool.false_eq_true, if_false, AllViews, view_terminate]
      exact ⟨h.1, ih h.2⟩

/-- `set` puts its line, if the reader sees it there, between the entries of the other lines. -/
theorem scan_setLines (hname : IsName intent.varName) (hvalue : ValueOk intent.value)
    (hfine : AllViews View.Fine first inPem (setLines intent false lines)) :
    ∃ pre post, scanOf (unmatched intent.varName) first inPem lines = pre ++ post ∧
      scan first inPem (setLines intent false lines) = pre ++
        (if writtenSeen intent.varName first inPem lines then [(intent.varName, intent.value)] else []) ++ post := by
  induction lines generalizing first inPem with
  | nil =>
    refine ⟨[], [], rfl, ?_⟩
    have hnew := newLine_pairs hname hvalue hfine.1
    cases inPem <;> simpa [setLines, scan, writtenSeen] using hnew
  | cons l rest ih =>
    cases hm : matched intent.varName l with
    | true =>
      simp only [setLines, hm, if_true, Bool.false_eq_true, if_false] at hfine ⊢
      refine ⟨[], scanOf (unmatched intent.varName) false inPem rest, ?_, ?_⟩
      · simp [scanOf, unmatched, hm, (plain_of_matched hname hm).after]
      · rw [scan, newLine_pairs hname hvalue hfine.1, (plain_newLine hname).after, setLines_true,
          scan_unmatched hname]
        cases inPem <;> simp [writtenSeen, hm]
    | false =>
      simp only [setLines, hm, Bool.false_eq_true, if_false, AllViews, view_terminate] at hfine ⊢
      obtain ⟨pre, post, hscan, hset⟩ := ih hfine.2
      refine ⟨(view first inPem l).pairs ++ pre, post, ?_, ?_⟩
      · simp [scanOf, unmatched, hm, hscan]
      · simp [scan, view_terminate, hset, writtenSeen, hm]

end Set

/-- Lines behind those of the file are read in the state that the file ends in. -/
theorem terminate_append (lines tail : List Text) (first inPem : Bool) : ∃ first',
    scan first inPem (lines.map terminate ++ tail) =
        scan first inPem lines ++ scan first' (pemAfter first inPem lines) tail ∧
      ∀ P, AllViews P first inPem (lines.map terminate ++ tail) ↔
        AllViews P first inPem lines ∧ AllViews P first' (pemAfter first inPem lines) tail := by
  induction lines generalizing first inPem with
  | nil => exact ⟨first, rfl, fun P => by simp [AllViews, pemAfter]⟩
  | cons l rest ih =>
    obtain ⟨first', hscan, hviews⟩ := ih false ((view first inPem l).after inPem)
    refine ⟨first', ?_, fun P => ?_⟩
    · simp [scan, view_terminate, hscan, pemAfter]
    · simp [AllViews, view_terminate, hviews, pemAfter, and_assoc]

section Del

variable {varName : Text} {inPem : Bool} {lines : List Text}

/-- Only a byte-order mark makes a difference between the first line and another. -/
theorem view_first {l : Text} (h : l.head? ≠ some '\uFEFF') (inPem : Bool) : view true inPem l = view false inPem l := by
  have hstrip : stripBom true l = stripBom false l := by simp [stripBom, h]
  rw [view_eq, view_eq, trimmed, trimmed, hstrip]

theorem head_terminate {l : Text} (h : l.head? ≠ some '\uFEFF') : (terminate l).head? ≠ some '\uFEFF' := by
  cases l with
  | nil => simp [terminate]
  | cons c l =>
    unfold terminate
    split_ifs
    · exact h
    · simpa using h

theorem scan_first (h : lines.head?.bind List.head? ≠ some '\uFEFF') :
    scan true inPem (lines.map terminate) = scan false inPem (lines.map terminate) ∧
      ∀ P, AllViews P false inPem (lines.map terminate) → AllViews P true inPem (lines.map terminate) := by
  cases lines with
  | nil => exact ⟨rfl, fun _ => id⟩
  | cons l rest =>
    have hview := view_first (head_terminate h) inPem
    exact ⟨by simp [scan, hview], fun P hP => by simpa [AllViews, hview] using hP⟩

/-- Deleting keeps the other lines' entries unless it moves a byte-order mark to the front. -/
theorem scan_del (hname : IsName varName) (hshift : shifts varName lines = false) :
    scan true false ((lines.filter (unmatched varName)).map terminate) =
        scanOf (unmatched varName) true false lines ∧
      ∀ P, AllViews P true false lines → AllViews P true false ((lines.filter (unmatched varName)).map terminate) := by
  cases lines with
  | nil => exact ⟨rfl, fun _ => id⟩
  | cons l rest =>
    cases hm : matched varName l with
    | false =>
      have hu : unmatched varName l = true := by simp [unmatched, hm]
      rw [List.filter_cons_of_pos hu, List.map_cons]
      refine ⟨by simp [hu, scan, scanOf, view_terminate, scan_unmatched hname], fun P hP => ?_⟩
      rw [AllViews, view_terminate]
      exact ⟨hP.1, allViews_unmatched hname hP.2⟩
    | true =>
      have hu : unmatched varName l = false := by simp [unmatched, hm]
      have hafter := (plain_of_matched hname hm).after true false
      have hhead : (rest.filter (unmatched varName)).head?.bind List.head? ≠ some '\uFEFF' := by
        rw [List.head?_filter]
        simpa [shifts, hm] using hshift
      rw [List.filter_cons_of_neg (by simp [hu])]
      refine ⟨?_, fun P hP => (scan_first hhead).2 P ?_⟩
      · simp [(scan_first hhead).1, scan_unmatched hname, scanOf, hu, hafter]
      · have hrest := allViews_unmatched hname hP.2
        rwa [hafter] at hrest

theorem view_in_block (l : Text) : (view false true l).pairs = [] ∧
    ((view false true l).after true = true ∨ (view false false l).after false = false) := by
  rw [view_eq, view_eq]
  have hdiff : "-----END".toList.isPrefixOf (chomp (stripBom false l)) = true →
      ¬ "-----BEGIN".toList.isPrefixOf (chomp (stripBom false l)) = true := by
    intro hend hbegin
    rw [List.isPrefixOf_iff_prefix] at hend hbegin
    exact absurd (List.prefix_of_prefix_length_le hend hbegin (by decide)) (by decide)
  simp only [if_true, Bool.false_eq_true, if_false]
  cases hend : "-----END".toList.isPrefixOf (chomp (stripBom false l)) with
  | false => split_ifs <;> simp [View.pairs, View.after]
  | true =>
    rw [if_neg (hdiff hend)]
    split_ifs <;> simp [View.pairs, View.after]

/-- Lines read from within a PEM block give the last of the entries they give outside of one. -/
theorem scanOf_suffix (keep : Text → Bool) (lines : List Text) :
    scanOf keep false true lines <:+ scanOf keep false false lines := by
  induction lines with
  | nil => exact List.suffix_refl _
  | cons l rest ih =>
    obtain ⟨hnone, hafter⟩ := view_in_block l
    simp only [scanOf, hnone, ite_self, List.nil_append]
    refine List.IsSuffix.trans ?_ (List.suffix_append _ _)
    rcases hafter with hafter | hafter
    · rw [hafter]
      cases (view false false l).after false
      · exact ih
      · exact List.suffix_refl _
    · rw [hafter]
      cases (view false true l).after true
      · exact List.suffix_refl _
      · exact ih

theorem splitKv_cons {c : Char} (h : isSeparator c = false) (l : Text) :
    splitKv (c :: l) = (c :: (splitKv l).1, (splitKv l).2) := by
  simp [splitKv, h]

/-- The mark is part of a variable's name where it is not the first thing in the file. -/
theorem view_mark {r : Text} (hfine : (view false false ('\uFEFF' :: r)).Fine) :
    ∃ v, view false false ('\uFEFF' :: r) = .entry ('\uFEFF' :: (splitKv (trimmed true ('\uFEFF' :: r))).1) v := by
  have hchomp : chomp ('\uFEFF' :: r) = '\uFEFF' :: chomp r := rdropWhile_cons (by decide) r
  have htrim : trimmed false ('\uFEFF' :: r) = '\uFEFF' :: trimmed true ('\uFEFF' :: r) := by
    simp only [trimmed, stripBom_cons, Bool.false_eq_true, false_and, if_false, true_and, if_true, hchomp]
    exact rdropWhile_cons (by decide) _
  have hbegin : "-----BEGIN".toList.isPrefixOf ('\uFEFF' :: chomp r) = false := by simp [List.isPrefixOf]
  rw [view_eq] at hfine ⊢
  simp only [stripBom_cons, Bool.false_eq_true, false_and, if_false, hchomp, htrim, reduceCtorEq, List.head?_cons,
    Option.some.injEq, show ('\uFEFF' = '#') = False by decide, or_self, hbegin,
    splitKv_cons (show isSeparator '\uFEFF' = false by decide)] at hfine ⊢
  split_ifs at hfine ⊢
  · exact absurd rfl hfine.2
  · exact absurd rfl hfine.1
  · exact ⟨_, rfl⟩

/-- The line with the mark comes behind lines of the variable, outside of a PEM block. -/
theorem shifts_cases (hname : IsName varName) (hfine : AllViews View.Fine true false lines)
    (h : shifts varName lines = true) : ∃ r post,
      lines.filter (unmatched varName) = ('\uFEFF' :: r) :: post.filter (unmatched varName) ∧
      (view false false ('\uFEFF' :: r)).Fine ∧
      scanOf (unmatched varName) true false lines = (view false false ('\uFEFF' :: r)).pairs ++
        scanOf (unmatched varName) false ((view false false ('\uFEFF' :: r)).after false) post := by
  cases lines with
  | nil => cases h
  | cons l rest =>
    rw [shifts, Bool.and_eq_true, beq_iff_eq] at h
    obtain ⟨hm, hbom⟩ := h
    have hu : unmatched varName l = false := by simp [unmatched, hm]
    have hafter := (plain_of_matched hname hm).after true false
    have hrest := hfine.2
    rw [List.filter_cons_of_neg (by simp [hu])]
    simp only [hafter, scanOf, hu, Bool.false_eq_true, if_false, List.nil_append] at hrest ⊢
    clear hfine hafter
    induction rest with
    | nil => cases hbom
    | cons m rest ih =>
      cases hmm : unmatched varName m with
      | true =>
        rw [List.find?_cons_of_pos hmm, Option.bind_some] at hbom
        obtain ⟨c, r, rfl⟩ := List.exists_cons_of_ne_nil (show m ≠ [] by rintro rfl; cases hbom)
        obtain rfl := Option.some.inj hbom
        refine ⟨r, rest, List.filter_cons_of_pos hmm, hrest.1, ?_⟩
        rw [scanOf, if_pos hmm]
      | false =>
        have hmatch : matched varName m = true := by simpa [unmatched] using hmm
        have hstay := (plain_of_matched hname hmatch).after false false
        rw [List.find?_cons_of_neg (by simp [hmm])] at hbom
        rw [List.filter_cons_of_neg (by simp [hmm]), scanOf, hstay, if_neg (by simp [hmm]), List.nil_append]
        refine ih hbom ?_
        have := hrest.2
        rwa [hstay] at this

theorem scan_del_shift (hname : IsName varName) (hfine : AllViews View.Fine true false lines)
    (h : shifts varName lines = true) :
    (scan true false ((lines.filter (unmatched varName)).map terminate)).filter (fun p => !mine varName p) ≠
      (scan true false lines).filter fun p => !mine varName p := by
  intro heq
  obtain ⟨r, post, hlines, hmark, hold⟩ := shifts_cases hname hfine h
  obtain ⟨v, hentry⟩ := view_mark hmark
  have hsub := (scanOf_sublist (unmatched varName) true false lines).filter fun p => !mine varName p
  rw [← heq, hold, hlines, List.map_cons, scan, view_terminate, scan_unmatched hname, hentry] at hsub
  have hother : mine varName ('\uFEFF' :: (splitKv (trimmed true ('\uFEFF' :: r))).1, v) = false := by
    rw [mine, beq_eq_false_iff_ne]
    intro hfold
    exact absurd (hname.folded '\uFEFF' (by rw [← hfold]; exact List.mem_cons_self)) (by decide)
  have hle : ∀ inPem, ((scanOf (unmatched varName) false inPem post).filter fun p => !mine varName p).length ≤
      ((scanOf (unmatched varName) false false post).filter fun p => !mine varName p).length := by
    intro inPem
    cases inPem with
    | false => exact le_rfl
    | true => exact ((scanOf_suffix _ _).sublist.filter _).length_le
  have hrest := hle ((view true false ('\uFEFF' :: r)).after false)
  simp only [View.pairs_entry, View.after_entry, List.singleton_append, List.filter_append, List.filter_cons, hother,
    Bool.not_false, if_true] at hsub
  have hlen := hsub.length_le
  rw [List.length_cons, List.length_append] at hlen
  cases hview : view true false ('\uFEFF' :: r) with
  | entry key val =>
    rw [hview] at hsub hlen hrest
    have hsame := hsub.eq_of_length (by
      have : (([(key, val)] : List (Text × Text)).filter fun p => !mine varName p).length ≤ 1 :=
        List.length_filter_le _ _
      simp only [View.pairs_entry, List.length_cons, List.length_append] at hlen this ⊢
      omega)
    cases hkey : mine varName (key, val) with
    | true =>
      simp only [View.pairs_entry, List.filter_cons, hkey, List.filter_nil, Bool.not_true, Bool.false_eq_true, if_false,
        List.length_nil] at hlen
      omega
    | false =>
      simp only [View.pairs_entry, List.filter_cons, hkey, List.filter_nil, Bool.not_false, if_true] at hsame
      have hname := (Prod.mk.inj (List.cons.inj hsame).1).1
      rw [(view_entry hview).1] at hname
      exact absurd (congrArg List.length hname) (by simp)
  | _ =>
    rw [hview] at hlen hrest
    simp only [View.pairs, List.filter_nil, List.length_nil] at hlen
    omega

end Del

/-- What the edit is meant to do to the entries of the file. -/
def EditMeant (intent : Intent) (before after : List Entry) : Prop :=
  (after.filter fun e => !mine intent.varName e.pair).map Entry.pair =
      (before.filter fun e => !mine intent.varName e.pair).map Entry.pair ∧
    match intent.action with
    | .get => True
    | .set => (lookup after intent.varName).map Entry.value = [intent.value]
    | .add => (lookup after intent.varName).map Entry.value = (lookup before intent.varName).map Entry.value ++
        if (lookup before intent.varName).any fun e => eqIgnoreAsciiCase e.value intent.value then []
        else [intent.value]
    | .del => lookup after intent.varName = []

/-- The editor's lines of the variable are, as far as the edit goes, those of the reader. -/
def EditorSees (contents : Text) (intent : Intent) : Prop :=
  let lines := splitInclusive contents
  match intent.action with
  | .get => True
  | .set => clobbered intent.varName lines = [] ∧
      (unseen intent.varName lines).map Prod.snd ++
        (if writtenSeen intent.varName true false lines then [intent.value] else []) = [intent.value]
  | .add => ((lines.any fun l => matched intent.varName l && eqIgnoreAsciiCase (lineValue l) intent.value) = true ∨
        pemAfter true false lines = true) ↔
      ∃ p ∈ scan true false lines, mine intent.varName p = true ∧ eqIgnoreAsciiCase p.2 intent.value = true
  | .del => clobbered intent.varName lines = [] ∧ unseen intent.varName lines = [] ∧
      shifts intent.varName lines = false

/-- The values the edits are asked for: none for a deletion. -/
def Intent.ValueFits (intent : Intent) : Prop := if intent.action = .del then intent.value = [] else ValueOk intent.value

def WithinLimits (contents : Text) : Prop :=
  parseFile contents ≠ .error .tooManyEntries ∧ ∀ n, parseFile contents ≠ .error (.lineTooLong n)

theorem withinLimits_of_ok {contents : Text} {entries : List Entry} (h : parseFile contents = .ok entries) :
    WithinLimits contents := ⟨by rw [h]; simp, fun n => by rw [h]; simp⟩

theorem read_back {lines : List Text} (hlines : ∀ l ∈ lines, IsLine l)
    (hgood : AllViews (· ≠ .bad) true false lines) (hlimits : WithinLimits lines.flatten) :
    ∃ entries, parseFile lines.flatten = .ok entries ∧ AllViews View.Fine true false lines ∧
      entries.map Entry.pair = scan true false lines := by
  have hparse : parseFile lines.flatten = readLoop 0 false [] lines := by
    rw [parseFile, splitInclusive_flatten hlines]
  rcases @readLoop_of_good false lines [] 0 hgood with ⟨entries, hok⟩ | hmany | ⟨n, hlong⟩
  · obtain ⟨hfine, hpairs⟩ := readLoop_ok hok
    exact ⟨entries, hparse.trans hok, hfine, hpairs⟩
  · exact absurd (hparse.trans hmany) hlimits.1
  · exact absurd (hparse.trans hlong) (hlimits.2 n)

section Meant

variable {contents : Text} {entries : List Entry} {pairs : List (Text × Text)}

theorem others_of_pairs (hpairs : entries.map Entry.pair = pairs) (varName : Text) :
    (entries.filter fun e => !mine varName e.pair).map Entry.pair = pairs.filter fun p => !mine varName p := by
  rw [← hpairs, List.filter_map]
  rfl

theorem lookup_of_pairs (h : parseFile contents = .ok entries) (hpairs : entries.map Entry.pair = pairs)
    (varName : Text) : (lookup entries varName).map Entry.value = (pairs.filter (mine varName)).map Prod.snd := by
  rw [lookup_eq_filter h, ← hpairs, List.filter_map, List.map_map]
  rfl

end Meant

section Edits

variable {intent : Intent} {contents out : Text} {entries : List Entry}
  (hname : IsName intent.varName) (hread : parseFile contents = .ok entries) (hlimits : WithinLimits out)
include hname hread hlimits

theorem set_meant_iff (haction : intent.action = .set) (hvalue : ValueOk intent.value)
    (hout : out = (setLines intent false (splitInclusive contents)).flatten) :
    (∃ after, parseFile out = .ok after ∧ EditMeant intent entries after) ↔ EditorSees contents intent := by
  subst hout
  obtain ⟨hfine, hpairs⟩ := readLoop_ok hread
  have hgood := allViews_setLines hname hvalue (hfine.imp fun _ hv => hv.1)
  obtain ⟨after, hafter, hfine', hpairs'⟩ :=
    read_back (isLine_setLines hname hvalue (List.Subset.refl _) false) hgood hlimits
  obtain ⟨pre, post, hkept, hscan⟩ := scan_setLines hname hvalue hfine'
  have hmine : mine intent.varName (intent.varName, intent.value) = true := by simp [mine]
  have hothers : (scan true false (setLines intent false (splitInclusive contents))).filter
      (fun p => !mine intent.varName p) =
        (scanOf (unmatched intent.varName) true false (splitInclusive contents)).filter
          fun p => !mine intent.varName p := by
    rw [hscan, hkept]
    split_ifs <;> simp [hmine]
  -- the place of the new entry does not matter for a list of one
  have hperm : (((scan true false (setLines intent false (splitInclusive contents))).filter
      (mine intent.varName)).map Prod.snd).Perm
        ((unseen intent.varName (splitInclusive contents)).map Prod.snd ++
          if writtenSeen intent.varName true false (splitInclusive contents) then [intent.value] else []) := by
    rw [hscan, unseen, hkept]
    split_ifs
    · simp only [List.filter_append, List.filter_cons_of_pos hmine, List.filter_nil, List.map_append, List.map_cons,
        List.map_nil, List.append_assoc]
      exact List.Perm.append_left _ (List.perm_append_singleton _ _).symm
    · simp
  have hmeant : EditMeant intent entries after ↔ EditorSees contents intent := by
    simp only [EditMeant, EditorSees, haction, others_of_pairs hpairs', others_of_pairs hpairs,
      lookup_of_pairs hafter hpairs', hothers]
    refine and_congr ?_ ?_
    · simpa [scan] using others_kept_iff intent.varName (splitInclusive contents)
    · rw [← List.perm_singleton, ← List.perm_singleton]
      exact ⟨fun h => hperm.symm.trans h, fun h => hperm.trans h⟩
  rw [← hmeant, hafter]
  simp

theorem add_meant_iff (haction : intent.action = .add) (hvalue : ValueOk intent.value)
    (hout : out = ((splitInclusive contents).map terminate ++
      if (splitInclusive contents).any fun l => matched intent.varName l && eqIgnoreAsciiCase (lineValue l) intent.value
      then [] else [intent.newLine]).flatten) :
    (∃ after, parseFile out = .ok after ∧ EditMeant intent entries after) ↔ EditorSees contents intent := by
  generalize hdup : ((splitInclusive contents).any fun l =>
    matched intent.varName l && eqIgnoreAsciiCase (lineValue l) intent.value) = dup at hout
  subst hout
  obtain ⟨hfine, hpairs⟩ := readLoop_ok hread
  obtain ⟨first, hscan, hviews⟩ :=
    terminate_append (splitInclusive contents) (if dup then [] else [intent.newLine]) true false
  have hlines : ∀ l ∈ (splitInclusive contents).map terminate ++ (if dup then [] else [intent.newLine]), IsLine l := by
    intro l hl
    rcases List.mem_append.1 hl with hl | hl
    · obtain ⟨l, hmem, rfl⟩ := List.mem_map.1 hl
      exact isLine_terminate hmem
    · cases dup <;> simp at hl
      rw [hl]
      exact isLine_newLine hname hvalue
  have htail : AllViews (· ≠ .bad) first (pemAfter true false (splitInclusive contents))
      (if dup then [] else [intent.newLine]) := by
    cases dup
    · exact ⟨newLine_ne_bad hname hvalue _ _, trivial⟩
    · trivial
  have hgood := (hviews (· ≠ .bad)).2 ⟨hfine.imp fun _ hv => hv.1, htail⟩
  obtain ⟨after, hafter, hfine', hpairs'⟩ := read_back hlines hgood hlimits
  have hmine : mine intent.varName (intent.varName, intent.value) = true := by simp [mine]
  have hnew : scan first (pemAfter true false (splitInclusive contents)) (if dup then [] else [intent.newLine]) =
      if dup = true ∨ pemAfter true false (splitInclusive contents) = true then []
      else [(intent.varName, intent.value)] := by
    cases dup with
    | true => simp [scan]
    | false =>
      have hpart := newLine_pairs hname hvalue ((hviews View.Fine).1 hfine').2.1
      simpa [scan] using hpart
  rw [hnew] at hscan
  have hothers : (after.filter fun e => !mine intent.varName e.pair).map Entry.pair =
      (entries.filter fun e => !mine intent.varName e.pair).map Entry.pair := by
    rw [others_of_pairs hpairs', others_of_pairs hpairs, hscan]
    split_ifs <;> simp [hmine]
  have hpresent : ((lookup entries intent.varName).any fun e => eqIgnoreAsciiCase e.value intent.value) = true ↔
      ∃ p ∈ scan true false (splitInclusive contents),
        mine intent.varName p = true ∧ eqIgnoreAsciiCase p.2 intent.value = true := by
    have hvalues := lookup_of_pairs hread hpairs intent.varName
    have hmap := congrArg (List.any · (eqIgnoreAsciiCase · intent.value)) hvalues
    simp only [List.any_map] at hmap
    rw [show (fun e : Entry => eqIgnoreAsciiCase e.value intent.value) =
      (eqIgnoreAsciiCase · intent.value) ∘ Entry.value from rfl, hmap]
    simp
  have hmeant : EditMeant intent entries after ↔ EditorSees contents intent := by
    simp only [EditMeant, EditorSees, haction, hothers, true_and, hdup, ← hpresent, lookup_of_pairs hafter hpairs',
      lookup_of_pairs hread hpairs, hscan, List.filter_append, List.map_append]
    change _ ++ _ = (List.filter _ (scan true false _)).map _ ++ _ ↔ _
    rw [List.append_right_inj]
    split_ifs with hno hyes hyes <;> simp [hno, hyes, hmine]
  rw [← hmeant, hafter]
  simp

theorem del_meant_iff (haction : intent.action = .del)
    (hout : out = (((splitInclusive contents).filter (unmatched intent.varName)).map terminate).flatten) :
    (∃ after, parseFile out = .ok after ∧ EditMeant intent entries after) ↔ EditorSees contents intent := by
  subst hout
  obtain ⟨hfine, hpairs⟩ := readLoop_ok hread
  have hlines : ∀ l ∈ ((splitInclusive contents).filter (unmatched intent.varName)).map terminate, IsLine l := by
    intro l hl
    obtain ⟨l, hmem, rfl⟩ := List.mem_map.1 hl
    exact isLine_terminate (List.mem_of_mem_filter hmem)
  have hkept := others_kept_iff intent.varName (splitInclusive contents)
  cases hshift : shifts intent.varName (splitInclusive contents) with
  | false =>
    obtain ⟨hscan, hviews⟩ := scan_del hname hshift
    obtain ⟨after, hafter, -, hpairs'⟩ :=
      read_back hlines (hviews _ (hfine.imp fun _ hv => hv.1)) hlimits
    rw [hscan] at hpairs'
    have hmeant : EditMeant intent entries after ↔ EditorSees contents intent := by
      simp only [EditMeant, EditorSees, haction, others_of_pairs hpairs', others_of_pairs hpairs, hshift, and_true]
      refine and_congr hkept ?_
      rw [← List.map_eq_nil_iff, lookup_of_pairs hafter hpairs', List.map_eq_nil_iff, unseen]
    rw [← hmeant, hafter]
    simp
  | true =>
    simp only [EditorSees, haction, hshift, Bool.true_eq_false, and_false, iff_false]
    rintro ⟨after, hafter, hmeant⟩
    have hpairs' : after.map Entry.pair =
        scan true false (((splitInclusive contents).filter (unmatched intent.varName)).map terminate) := by
      rw [parseFile, splitInclusive_flatten hlines] at hafter
      exact (readLoop_ok hafter).2
    have hothers := hmeant.1
    rw [others_of_pairs hpairs', others_of_pairs hpairs] at hothers
    exact scan_del_shift hname hfine hshift hothers

end Edits

/-- The daemon reads from the edited file what the edit was meant to do if and only if the editor sees the
variable's lines as the reader does. -/
theorem runEdit_meant_iff {intent : Intent} {contents out : Text} {ws : List Removing} {entries : List Entry}
    (hread : parseFile contents = .ok entries) (hvar : ∃ v ∈ VARS, v.name = intent.varName)
    (hvalue : intent.ValueFits) (hrun : runEdit contents intent = .ok (out, ws)) (hlimits : WithinLimits out) :
    (∃ after, parseFile out = .ok after ∧ EditMeant intent entries after) ↔ EditorSees contents intent := by
  obtain ⟨v, hv, hname⟩ := hvar
  have hname : IsName intent.varName := hname ▸ isName_of_mem_vars hv
  unfold Intent.ValueFits at hvalue
  cases haction : intent.action with
  | get => simp [runEdit, haction] at hrun
  | set =>
    rw [haction, if_neg (by decide)] at hvalue
    exact set_meant_iff hname hread hlimits haction hvalue (runEdit_set haction hrun)
  | add =>
    rw [haction, if_neg (by decide)] at hvalue
    exact add_meant_iff hname hread hlimits haction hvalue (runEdit_add haction hrun)
  | del =>
    rw [haction, if_pos rfl] at hvalue
    exact del_meant_iff hname hread hlimits haction (runEdit_del haction hvalue hrun)

def setPort : Intent := ⟨.set, "Port".toList, "655".toList, false⟩

def portFile : Text := "Name = a\nPort = 1".toList

theorem setPort_var : ∃ v ∈ VARS, v.name = setPort.varName := by
  have hany : (VARS.any fun v => v.name == setPort.varName) = true := by decide
  simpa using hany

theorem setPort_valueFits : setPort.ValueFits := by
  rw [Intent.ValueFits, if_neg (by decide)]
  refine ⟨by decide, by simp [setPort], fun c hc => ?_, fun c hc => ?_⟩
  · obtain rfl : '6' = c := by simpa [setPort] using hc
    decide
  · obtain rfl : '5' = c := by simpa [setPort] using hc
    decide

theorem runEdit_meant_iff_portFile : (parseFile portFile).toOption.isSome = true ∧
    runEdit portFile setPort = .ok ("Name = a\nPort = 655\n".toList, []) ∧
    ∃ after, parseFile "Name = a\nPort = 655\n".toList = .ok after ∧
      EditMeant setPort [⟨"Name".toList, "a".toList, 1⟩, ⟨"Port".toList, "1".toList, 2⟩] after := by
  have hread : parseFile portFile = .ok [⟨"Name".toList, "a".toList, 1⟩, ⟨"Port".toList, "1".toList, 2⟩] := by
    decide
  have hrun : runEdit portFile setPort = .ok ("Name = a\nPort = 655\n".toList, []) := by decide
  have hnew : parseFile "Name = a\nPort = 655\n".toList =
      .ok [⟨"Name".toList, "a".toList, 1⟩, ⟨"Port".toList, "655".toList, 2⟩] := by decide
  have hsees : EditorSees portFile setPort := by
    constructor <;> decide
  refine ⟨by rw [hread]; rfl, hrun, ?_⟩
  exact (runEdit_meant_iff hread setPort_var setPort_valueFits hrun (withinLimits_of_ok hnew)).2 hsees

/-- The reader strips a byte-order mark, the editor does not: the old entry stays beside the new one. -/
theorem not_meant_marked : (∃ v ∈ VARS, v.name = setPort.varName) ∧ setPort.ValueFits ∧
    parseFile "\uFEFFPort = 1\n".toList = .ok [⟨"Port".toList, "1".toList, 1⟩] ∧
    runEdit "\uFEFFPort = 1\n".toList setPort = .ok ("\uFEFFPort = 1\nPort = 655\n".toList, []) ∧
    ∃ after, parseFile "\uFEFFPort = 1\nPort = 655\n".toList = .ok after ∧
      (lookup after setPort.varName).map Entry.value = ["1".toList, "655".toList] := by
  have hafter : parseFile "\uFEFFPort = 1\nPort = 655\n".toList =
      .ok [⟨"Port".toList, "1".toList, 1⟩, ⟨"Port".toList, "655".toList, 2⟩] := by decide
  refine ⟨setPort_var, setPort_valueFits, by decide, by decide, _, hafter, ?_⟩
  rw [lookup_of_pairs hafter rfl]
  decide

end Tincr.Conf
