import Mathlib

/-!
A map as the list of its entries in order of the key. The first entry has the least key; an insertion replaces the
entry of its key.
-/

@[ext]
structure OrderedMap (κ ν : Type) [LinearOrder κ] where
  entries : List (κ × ν)
  sorted : entries.Pairwise fun a b => a.1 < b.1

namespace OrderedMap

variable {κ ν : Type} [LinearOrder κ]

def empty : OrderedMap κ ν := ⟨[], List.Pairwise.nil⟩

instance : Membership (κ × ν) (OrderedMap κ ν) := ⟨fun m e => e ∈ m.entries⟩

def first (m : OrderedMap κ ν) : Option (κ × ν) := m.entries.head?

def remove (m : OrderedMap κ ν) (k : κ) : OrderedMap κ ν where
  entries := m.entries.filter fun e => e.1 ≠ k
  sorted := m.sorted.sublist List.filter_sublist

def insert (m : OrderedMap κ ν) (k : κ) (v : ν) : OrderedMap κ ν where
  entries := (m.entries.filter fun e => e.1 < k) ++ (k, v) :: m.entries.filter fun e => k < e.1
  sorted := by
    rw [List.pairwise_append, List.pairwise_cons]
    refine ⟨m.sorted.sublist List.filter_sublist, ⟨fun e he => ?_, m.sorted.sublist List.filter_sublist⟩, ?_⟩
    · exact of_decide_eq_true (List.mem_filter.1 he).2
    · intro a ha b hb
      have hak : a.1 < k := of_decide_eq_true (List.mem_filter.1 ha).2
      rcases List.mem_cons.1 hb with rfl | hb
      · exact hak
      · exact hak.trans (of_decide_eq_true (List.mem_filter.1 hb).2)

variable {m : OrderedMap κ ν} {k : κ} {v : ν} {e e' : κ × ν}

theorem mem_def : e ∈ m ↔ e ∈ m.entries := Iff.rfl

@[simp] theorem not_mem_empty : e ∉ (empty : OrderedMap κ ν) := List.not_mem_nil

theorem mem_remove : e ∈ m.remove k ↔ e ∈ m ∧ e.1 ≠ k := by
  simp [mem_def, remove]

theorem mem_insert : e ∈ m.insert k v ↔ e = (k, v) ∨ e ∈ m ∧ e.1 ≠ k := by
  simp only [mem_def, insert, List.mem_append, List.mem_cons, List.mem_filter, decide_eq_true_eq]
  rcases lt_trichotomy e.1 k with h | h | h
  · simp [h, h.ne, h.not_gt, or_comm]
  · simp [h]
  · simp [h, h.ne', h.not_gt]

/-- An entry is found by its key. -/
theorem eq_of_fst_eq (he : e ∈ m) (he' : e' ∈ m) (h : e.1 = e'.1) : e = e' := by
  have hkeys : (m.entries.map Prod.fst).Nodup := List.pairwise_map.2 (m.sorted.imp fun hlt => hlt.ne)
  exact List.inj_on_of_nodup_map hkeys he he' h

theorem nodup (m : OrderedMap κ ν) : m.entries.Nodup := m.sorted.imp fun h heq => h.ne (congrArg Prod.fst heq)

theorem first_eq_none : m.first = none ↔ ∀ e, e ∉ m := by
  rw [first, List.head?_eq_none_iff, List.eq_nil_iff_forall_not_mem]
  rfl

theorem le_of_first (h : m.first = some e) (he' : e' ∈ m) : e.1 ≤ e'.1 := by
  obtain ⟨rest, hrest⟩ := List.head?_eq_some_iff.1 h
  have hsorted := m.sorted
  rw [hrest, List.pairwise_cons] at hsorted
  rw [mem_def, hrest] at he'
  rcases List.mem_cons.1 he' with rfl | he'
  · exact le_rfl
  · exact (hsorted.1 e' he').le

theorem remove_head {rest : List (κ × ν)} (h : m.entries = e :: rest) : (m.remove e.1).entries = rest := by
  have hsorted := m.sorted
  rw [h, List.pairwise_cons] at hsorted
  simp only [remove, h]
  rw [List.filter_cons_of_neg (by simp), List.filter_eq_self]
  exact fun e' he' => decide_eq_true (hsorted.1 e' he').ne'

theorem perm_insert (h : ∀ e ∈ m, e.1 ≠ k) : (m.insert k v).entries.Perm ((k, v) :: m.entries) := by
  refine (List.perm_ext_iff_of_nodup (nodup _) ?_).2 fun e => ?_
  · refine List.nodup_cons.2 ⟨fun hmem => h _ hmem rfl, m.nodup⟩
  · rw [← mem_def, mem_insert, List.mem_cons]
    exact or_congr_right (and_iff_left_of_imp fun he => h e he)

end OrderedMap
