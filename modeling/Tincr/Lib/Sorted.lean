import Mathlib

/-!
A list kept in strict order of a key: an element goes in at the partition point of its key, and is found
again by its key alone. Where keys are not repeated a pair is found by its key in any order.
-/

namespace List

variable {α β : Type} [LinearOrder β] {f : α → β} {l : List α} {a : α}

theorem insertIdx_takeWhile (p : α → Bool) (l : List α) (a : α) :
    l.insertIdx (l.takeWhile p).length a = l.takeWhile p ++ a :: l.dropWhile p := by
  induction l with
  | nil => rfl
  | cons b l ih =>
    by_cases hb : p b
    · simp [hb, ih]
    · simp [hb]

theorem takeWhile_congr {p q : α → Bool} {l : List α} (h : ∀ a ∈ l, p a = q a) : l.takeWhile p = l.takeWhile q := by
  induction l with
  | nil => rfl
  | cons a l ih =>
    rw [takeWhile_cons, takeWhile_cons, h a mem_cons_self, ih fun b hb => h b (mem_cons_of_mem _ hb)]

/-- What comes after the partition point is larger than what lies before it. -/
theorem lt_of_mem_dropWhile {k : β} (h : l.Pairwise (f · < f ·)) (hne : ∀ b ∈ l, f b ≠ k) :
    ∀ b ∈ l.dropWhile (f · < k), k < f b := by
  induction l with
  | nil => simp
  | cons c l ih =>
    obtain ⟨hc, hl⟩ := List.pairwise_cons.1 h
    by_cases hck : f c < k
    · simpa [hck] using ih hl fun b hb => hne b (mem_cons_of_mem _ hb)
    · have hkc : k < f c := lt_of_le_of_ne (not_lt.1 hck) (hne c mem_cons_self).symm
      simp only [dropWhile_cons, hck, decide_false, Bool.false_eq_true, if_false, mem_cons, forall_eq_or_imp]
      exact ⟨hkc, fun b hb => hkc.trans (hc b hb)⟩

theorem pairwise_insertIdx_takeWhile (h : l.Pairwise (f · < f ·)) (hne : ∀ b ∈ l, f b ≠ f a) :
    (l.insertIdx (l.takeWhile (f · < f a)).length a).Pairwise (f · < f ·) := by
  have hsplit := List.takeWhile_append_dropWhile (p := (f · < f a)) (l := l)
  rw [← hsplit, List.pairwise_append] at h
  have hafter := lt_of_mem_dropWhile (hsplit ▸ List.pairwise_append.2 h) hne
  rw [insertIdx_takeWhile, List.pairwise_append, List.pairwise_cons]
  refine ⟨h.1, ⟨hafter, h.2.1⟩, fun b hb c hc => ?_⟩
  have hba : f b < f a := by simpa using List.mem_takeWhile_imp hb
  rcases List.mem_cons.1 hc with rfl | hc
  · exact hba
  · exact hba.trans (hafter c hc)

theorem mem_insertIdx_takeWhile {p : α → Bool} {b : α} :
    b ∈ l.insertIdx (l.takeWhile p).length a ↔ b = a ∨ b ∈ l :=
  List.mem_insertIdx (List.takeWhile_sublist p).length_le

/-- An element is the only one with its key, so a search for the key finds it. -/
theorem findIdx?_key [BEq α] [LawfulBEq α] (h : l.Pairwise (f · < f ·)) (ha : a ∈ l) :
    ∃ i, l.findIdx? (f · == f a) = some i ∧ l.eraseIdx i = l.erase a := by
  induction l with
  | nil => cases ha
  | cons c l ih =>
    obtain ⟨hc, hl⟩ := List.pairwise_cons.1 h
    rcases List.mem_cons.1 ha with rfl | ha
    · exact ⟨0, by simp [findIdx?_cons], by simp⟩
    · obtain ⟨i, hi, he⟩ := ih hl ha
      have hne : f c ≠ f a := (hc a ha).ne
      have hca : c ≠ a := fun hca => hne (hca ▸ rfl)
      refine ⟨i + 1, by simp [findIdx?_cons, hne, hi], ?_⟩
      rw [eraseIdx_cons_succ, he, erase_cons_tail (by simpa using hca)]

theorem pair_sublist_of_lt {b : α} (h : l.Pairwise (f · < f ·)) (ha : a ∈ l) (hb : b ∈ l) (hab : f a < f b) :
    [a, b].Sublist l := by
  induction l with
  | nil => cases ha
  | cons c l ih =>
    obtain ⟨hc, hl⟩ := List.pairwise_cons.1 h
    rcases List.mem_cons.1 ha with rfl | ha'
    · rcases List.mem_cons.1 hb with rfl | hb'
      · exact absurd hab (lt_irrefl _)
      · exact (List.singleton_sublist.2 hb').cons_cons a
    · rcases List.mem_cons.1 hb with rfl | hb'
      · exact absurd hab (hc a ha').not_gt
      · exact (ih hl ha' hb').cons c

theorem lookup_of_mem {κ ν : Type*} [BEq κ] [LawfulBEq κ] {l : List (κ × ν)} (h : (l.map Prod.fst).Nodup)
    {e : κ × ν} (he : e ∈ l) : l.lookup e.1 = some e.2 := by
  obtain ⟨before, after, rfl⟩ := append_of_mem he
  rw [map_append, map_cons, nodup_append] at h
  refine lookup_eq_some_iff.2 ⟨before, after, rfl, fun p hp => bne_iff_ne.2 fun heq => ?_⟩
  exact h.2.2 p.1 (mem_map_of_mem hp) e.1 mem_cons_self heq.symm

theorem getLast?_eq_some_iff_of_sorted {l : List β} (h : l.Pairwise (· ≤ ·)) {a : β} (ha : a ∈ l) :
    l.getLast? = some a ↔ ∀ b ∈ l, b ≤ a := by
  obtain ⟨front, last, rfl⟩ : ∃ front last, l = front ++ [last] := by
    rcases eq_nil_or_concat l with rfl | ⟨front, last, rfl⟩
    · cases ha
    · exact ⟨front, last, by simp⟩
  have hlast : ∀ b ∈ front ++ [last], b ≤ last := by
    rw [pairwise_append] at h
    intro b hb
    rcases mem_append.1 hb with hb | hb
    · exact h.2.2 b hb last (mem_singleton_self last)
    · exact (mem_singleton.1 hb).le
  rw [getLast?_concat, Option.some_inj]
  constructor
  · rintro rfl
    exact hlast
  · intro hmax
    exact le_antisymm (hmax last (by simp)) (hlast a ha)

end List
