import Mathlib

/-!
Lines of a text. `splitInclusive` cuts a text behind every newline, so the last line may lack one; a list
of lines that all end in their only newline is what the flattened text splits into again.
-/

namespace Lines

/-- A list cut behind every `nl`. -/
def cutAfter {α : Type*} [DecidableEq α] (nl : α) : List α → List (List α)
  | [] => []
  | c :: cs =>
    if c = nl then [c] :: cutAfter nl cs
    else match cutAfter nl cs with
      | [] => [[c]]
      | l :: ls => (c :: l) :: ls

theorem cutAfter_append {α : Type*} [DecidableEq α] {nl : α} {body : List α} (h : nl ∉ body) (cs : List α) :
    cutAfter nl (body ++ nl :: cs) = (body ++ [nl]) :: cutAfter nl cs := by
  induction body with
  | nil => simp [cutAfter]
  | cons c body ih =>
    simp only [List.mem_cons, not_or] at h
    rw [List.cons_append, cutAfter, if_neg (Ne.symm h.1), ih h.2]
    rfl

def splitInclusive : List Char → List (List Char)
  | [] => []
  | c :: cs =>
    if c = '\n' then [c] :: splitInclusive cs
    else match splitInclusive cs with
      | [] => [[c]]
      | l :: ls => (c :: l) :: ls

theorem splitInclusive_eq (cs : List Char) : splitInclusive cs = cutAfter '\n' cs := by
  induction cs with
  | nil => rfl
  | cons c cs ih =>
    rw [splitInclusive, cutAfter, ih]
    cases cutAfter '\n' cs <;> rfl

/-- A newline at the end and nowhere else. -/
def IsLine (l : List Char) : Prop := ∃ body, '\n' ∉ body ∧ l = body ++ ['\n']

theorem splitInclusive_append {body : List Char} (h : '\n' ∉ body) (cs : List Char) :
    splitInclusive (body ++ '\n' :: cs) = (body ++ ['\n']) :: splitInclusive cs := by
  rw [splitInclusive_eq, splitInclusive_eq, cutAfter_append h]

theorem splitInclusive_flatten {ls : List (List Char)} (h : ∀ l ∈ ls, IsLine l) : splitInclusive ls.flatten = ls := by
  induction ls with
  | nil => rfl
  | cons l ls ih =>
    obtain ⟨body, hbody, rfl⟩ := h l List.mem_cons_self
    rw [List.flatten_cons, List.append_assoc, List.singleton_append, splitInclusive_append hbody,
      ih fun l hl => h l (List.mem_cons_of_mem _ hl)]

/-- How a text is cut: every line ends in its only newline, but the last may have none. -/
def Cut : List (List Char) → Prop
  | [] => True
  | l :: ls => (IsLine l ∧ Cut ls) ∨ (l ≠ [] ∧ '\n' ∉ l ∧ ls = [])

theorem cut_splitInclusive (cs : List Char) : Cut (splitInclusive cs) := by
  induction cs with
  | nil => exact trivial
  | cons c cs ih =>
    rw [splitInclusive]
    split_ifs with hc
    · exact .inl ⟨⟨[], by simp, by simp [hc]⟩, ih⟩
    · cases hs : splitInclusive cs with
      | nil => exact .inr ⟨by simp, by simpa using Ne.symm hc, rfl⟩
      | cons l ls =>
        rw [hs] at ih
        rcases ih with ⟨⟨body, hbody, rfl⟩, hls⟩ | ⟨-, hno, rfl⟩
        · exact .inl ⟨⟨c :: body, by simpa using ⟨Ne.symm hc, hbody⟩, by simp⟩, hls⟩
        · exact .inr ⟨by simp, by simpa using ⟨Ne.symm hc, hno⟩, rfl⟩

theorem splitInclusive_of_cut {ls : List (List Char)} (h : Cut ls) : splitInclusive ls.flatten = ls := by
  induction ls with
  | nil => rfl
  | cons l ls ih =>
    rcases h with ⟨⟨body, hbody, rfl⟩, hls⟩ | ⟨hne, hno, rfl⟩
    · rw [List.flatten_cons, List.append_assoc, List.singleton_append, splitInclusive_append hbody, ih hls]
    · rw [List.flatten_cons, List.flatten_nil, List.append_nil]
      clear ih
      induction l with
      | nil => exact absurd rfl hne
      | cons c l ih =>
        simp only [List.mem_cons, not_or] at hno
        rw [splitInclusive, if_neg (Ne.symm hno.1)]
        cases l with
        | nil => rfl
        | cons d l => rw [ih (by simp) hno.2]

theorem Cut.map {ls : List (List Char)} (h : Cut ls) {f : List Char → List Char} (hline : ∀ l, IsLine l → IsLine (f l))
    (hlast : ∀ l, l ≠ [] → '\n' ∉ l → IsLine (f l) ∨ (f l ≠ [] ∧ '\n' ∉ f l)) : Cut (ls.map f) := by
  induction ls with
  | nil => exact trivial
  | cons l ls ih =>
    rcases h with ⟨hl, hls⟩ | ⟨hne, hno, rfl⟩
    · exact .inl ⟨hline l hl, ih hls⟩
    · rcases hlast l hne hno with hl | ⟨hne', hno'⟩
      · exact .inl ⟨hl, trivial⟩
      · exact .inr ⟨hne', hno', rfl⟩

/-- A line of a text ends in its only newline, or has none. -/
theorem mem_splitInclusive {cs l : List Char} (h : l ∈ splitInclusive cs) : IsLine l ∨ '\n' ∉ l := by
  have hcut := cut_splitInclusive cs
  generalize splitInclusive cs = ls at h hcut
  induction ls with
  | nil => cases h
  | cons l' ls ih =>
    rcases hcut with ⟨hl, hls⟩ | ⟨-, hno, rfl⟩
    · rcases List.mem_cons.1 h with rfl | h
      · exact .inl hl
      · exact ih h hls
    · exact .inr (List.mem_singleton.1 h ▸ hno)

/-- What is kept at the front is not trimmed away from the end. -/
theorem rdropWhile_cons {α : Type*} {p : α → Bool} {a : α} (h : p a = false) (l : List α) :
    (a :: l).rdropWhile p = a :: l.rdropWhile p := by
  induction l using List.reverseRecOn with
  | nil => simp [List.rdropWhile, h]
  | append_singleton l b ih =>
    rw [← List.cons_append]
    cases hb : p b with
    | true => rw [List.rdropWhile_concat_pos _ _ _ hb, List.rdropWhile_concat_pos _ _ _ hb, ih]
    | false =>
      rw [List.rdropWhile_concat_neg _ _ _ (by simp [hb]), List.rdropWhile_concat_neg _ _ _ (by simp [hb]),
        List.cons_append]

def terminate (l : List Char) : List Char := if l.getLast? = some '\n' then l else l ++ ['\n']

theorem isLine_terminate {cs l : List Char} (h : l ∈ splitInclusive cs) : IsLine (terminate l) := by
  rcases mem_splitInclusive h with hl | hno
  · obtain ⟨body, hbody, rfl⟩ := hl
    exact ⟨body, hbody, by simp [terminate]⟩
  · have hlast : l.getLast? ≠ some '\n' := fun he => hno (List.mem_of_getLast? he)
    exact ⟨l, hno, by simp [terminate, hlast]⟩

end Lines
