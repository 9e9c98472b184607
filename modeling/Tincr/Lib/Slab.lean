import Mathlib

/-!
A slab: a list of cells, empty or filled, with a stack of the empty ones. An index stays valid as long
as its cell is filled; a freed cell is handed out again, last freed first. That the stack holds exactly
the empty cells, each once, is part of the type.
-/

structure Slab (α : Type) where
  cells : List (Option α)
  free : List ℕ
  free_nodup : free.Nodup
  mem_free : ∀ i, i ∈ free ↔ cells[i]? = some none

namespace Slab

variable {α : Type}

def empty : Slab α := ⟨[], [], List.nodup_nil, by simp⟩

def get (s : Slab α) (i : ℕ) : Option α := (s.cells[i]?).join

variable {s : Slab α} {i j : ℕ} {a : α}

theorem get_eq_some : s.get i = some a ↔ s.cells[i]? = some (some a) := by
  simp [get, Option.join_eq_some_iff]

theorem lt_length_of_get (h : s.get i = some a) : i < s.cells.length := by
  rw [get_eq_some] at h
  exact (List.getElem?_eq_some_iff.mp h).1

theorem not_mem_free_of_get (h : s.get i = some a) : i ∉ s.free := by
  rw [s.mem_free, get_eq_some.mp h]
  simp

def modify (s : Slab α) (i : ℕ) (f : α → α) : Slab α where
  cells := s.cells.modify i (·.map f)
  free := s.free
  free_nodup := s.free_nodup
  mem_free j := by
    rw [s.mem_free, List.getElem?_modify]
    by_cases h : i = j
    · simp [h, Option.map_eq_some_iff]
    · simp [h]

@[simp] theorem get_modify (s : Slab α) (i j : ℕ) (f : α → α) :
    (s.modify i f).get j = if i = j then (s.get j).map f else s.get j := by
  simp only [get, modify, List.getElem?_modify]
  by_cases h : i = j
  · subst h
    cases s.cells[i]? <;> simp
  · simp [h]

theorem of_get_modify {f : α → α} {b : α} (h : (s.modify i f).get j = some b) :
    ∃ a, s.get j = some a ∧ (i = j ∧ b = f a ∨ i ≠ j ∧ b = a) := by
  rw [get_modify] at h
  split_ifs at h with hij
  · obtain ⟨a, ha, rfl⟩ := Option.map_eq_some_iff.1 h
    exact ⟨a, ha, .inl ⟨hij, rfl⟩⟩
  · exact ⟨b, h, .inr ⟨hij, rfl⟩⟩

/-- What a change does not touch can be read before it. -/
theorem exists_get_modify {f : α → α} {p : α → Prop} (hp : ∀ a, p (f a) ↔ p a) :
    (∃ a, (s.modify i f).get j = some a ∧ p a) ↔ ∃ a, s.get j = some a ∧ p a := by
  rw [get_modify]
  split_ifs
  · simp [Option.map_eq_some_iff, hp]
  · rfl

theorem modify_modify (s : Slab α) (i : ℕ) (f g : α → α) : (s.modify i f).modify i g = s.modify i (g ∘ f) := by
  simp only [modify, mk.injEq, and_true]
  rw [List.modify_modify_eq]
  congr 1
  funext a
  exact Option.map_map g f a

@[simp] theorem length_modify (s : Slab α) (i : ℕ) (f : α → α) :
    (s.modify i f).cells.length = s.cells.length := by
  simp [modify]

def erase (s : Slab α) (i : ℕ) : Slab α :=
  if h : (s.get i).isSome then {
    cells := s.cells.set i none
    free := i :: s.free
    free_nodup := by
      obtain ⟨a, ha⟩ := Option.isSome_iff_exists.mp h
      exact List.nodup_cons.mpr ⟨not_mem_free_of_get ha, s.free_nodup⟩
    mem_free := by
      intro j
      obtain ⟨a, ha⟩ := Option.isSome_iff_exists.mp h
      have hlt := lt_length_of_get ha
      rw [List.mem_cons, s.mem_free, List.getElem?_set]
      by_cases hij : i = j
      · subst hij
        simp [hlt]
      · simp [hij, Ne.symm hij] }
  else s

@[simp] theorem get_erase (s : Slab α) (i j : ℕ) :
    (s.erase i).get j = if i = j then none else s.get j := by
  unfold erase
  split_ifs with h hij hij
  · subst hij
    simp only [get, List.getElem?_set, if_true]
    split_ifs <;> rfl
  · simp only [get, List.getElem?_set, if_neg hij]
  · subst hij
    simpa using h
  · rfl

@[simp] theorem length_erase (s : Slab α) (i : ℕ) : (s.erase i).cells.length = s.cells.length := by
  unfold erase
  split_ifs <;> simp

/-- The index the next insertion uses: the last freed cell, or a new one at the end. -/
def next (s : Slab α) : ℕ := s.free.headD s.cells.length

def insert (s : Slab α) (a : α) : Slab α :=
  match h : s.free with
  | i :: rest => {
      cells := s.cells.set i (some a)
      free := rest
      free_nodup := (List.nodup_cons.mp (h ▸ s.free_nodup)).2
      mem_free := by
        intro j
        have hmem := s.mem_free j
        have hi := (List.nodup_cons.mp (h ▸ s.free_nodup)).1
        rw [h, List.mem_cons] at hmem
        rw [List.getElem?_set]
        by_cases hij : i = j
        · subst hij
          by_cases hlt : i < s.cells.length <;> simp [hi, hlt]
        · simp [hij, ← hmem, Ne.symm hij] }
  | [] => {
      cells := s.cells ++ [some a]
      free := []
      free_nodup := List.nodup_nil
      mem_free := by
        intro j
        have hmem := s.mem_free j
        rw [h] at hmem
        rcases Nat.lt_trichotomy j s.cells.length with hlt | heq | hgt
        · rw [List.getElem?_append_left hlt]
          exact hmem
        · simp [heq]
        · simp [List.getElem?_append_right hgt.le, Nat.sub_ne_zero_of_lt hgt] }

theorem get_next (s : Slab α) : s.get s.next = none := by
  unfold next get
  cases h : s.free with
  | nil => simp
  | cons i rest =>
    have hi : s.cells[i]? = some none := (s.mem_free i).mp (by simp [h])
    simp [hi]

@[simp] theorem get_insert (s : Slab α) (a : α) (j : ℕ) :
    (s.insert a).get j = if s.next = j then some a else s.get j := by
  unfold insert
  split
  case h_1 i rest h =>
    have hi : s.cells[i]? = some none := (s.mem_free i).mp (by simp [h])
    have hlt : i < s.cells.length := (List.getElem?_eq_some_iff.mp hi).1
    have hnext : s.next = i := by simp [next, h]
    simp only [get, List.getElem?_set, hnext]
    by_cases hij : i = j
    · simp [hij, hij ▸ hlt]
    · simp [hij]
  case h_2 h =>
    have hnext : s.next = s.cells.length := by simp [next, h]
    simp only [get, hnext]
    rcases Nat.lt_trichotomy j s.cells.length with hlt | heq | hgt
    · rw [List.getElem?_append_left hlt, if_neg (by omega)]
    · simp [heq]
    · rw [if_neg (by omega), List.getElem?_eq_none (by simp; omega), List.getElem?_eq_none (by omega)]

theorem length_insert (s : Slab α) (a : α) :
    (s.insert a).cells.length = if s.free = [] then s.cells.length + 1 else s.cells.length := by
  unfold insert
  split
  case h_1 i rest h => simp [h]
  case h_2 h => simp [h]

theorem get_insert_of_ne {b : α} (h : s.get j = some b) : (s.insert a).get j = some b := by
  rw [get_insert, if_neg, h]
  rintro rfl
  rw [get_next] at h
  cases h

end Slab
