import Mathlib

/-!
Files written one after another, with a record of those that were made: a run that fails removes what is recorded.
An operation that fails may have written part of its text. A file that is recorded as soon as it is open is removed
in any case; one that is recorded only when it is whole stays behind if its writing fails.
-/

namespace Rollback

open Function

inductive Op (π α : Type*)
  /-- Nothing that touches a file. -/
  | pass
  /-- Opened empty and recorded at once. -/
  | create (p : π)
  | append (p : π) (text : List α)
  /-- Opened empty, written, and then recorded. -/
  | put (p : π) (text : List α)

abbrev Files (π α : Type*) := π → Option (List α)

variable {π α : Type*} [DecidableEq π]

def Op.apply (f : Files π α) : Op π α → Files π α
  | .pass => f
  | .create p => update f p (some [])
  | .append p text => update f p ((f p).map fun t => t ++ text)
  | .put p text => update f p (some text)

/-- What an operation does that fails: nothing, or so many characters of its text are written. -/
def Op.cut (kept : Option ℕ) (f : Files π α) : Op π α → Files π α
  | .pass | .create _ => f
  | .append p text => update f p ((f p).map fun t => t ++ text.take (kept.getD 0))
  | .put p text =>
    match kept with
    | none => f
    | some k => update f p (some (text.take k))

def Op.made : Op π α → List π
  | .create p | .put p _ => [p]
  | _ => []

def applyAll (f : Files π α) (ops : List (Op π α)) : Files π α := ops.foldl Op.apply f

def made (ops : List (Op π α)) : List π := ops.flatMap Op.made

def undo (record : List π) (f : Files π α) : Files π α := fun p => if p ∈ record then none else f p

/-- Text is added only to recorded files, and a file is put only if it is not recorded. -/
def Op.Sound (record : List π) : Op π α → Prop
  | .append p _ => p ∈ record
  | .put p _ => p ∉ record
  | _ => True

def Sound (record : List π) : List (Op π α) → Prop
  | [] => True
  | op :: ops => op.Sound record ∧ Sound (record ++ op.made) ops

variable {f : Files π α} {record : List π} {op : Op π α} {ops done : List (Op π α)} {p : π}

omit [DecidableEq π] in
theorem sound_append {record : List π} {a b : List (Op π α)} :
    Sound record (a ++ b) ↔ Sound record a ∧ Sound (record ++ made a) b := by
  induction a generalizing record with
  | nil => simp [Sound, made]
  | cons op a ih => simp [Sound, made, ih, and_assoc]

theorem applyAll_append (f : Files π α) (a b : List (Op π α)) : applyAll f (a ++ b) = applyAll (applyAll f a) b :=
  List.foldl_append

omit [DecidableEq π] in
theorem made_append (a b : List (Op π α)) : made (a ++ b) = made a ++ made b := List.flatMap_append

theorem Op.apply_frame (h : op.Sound record) (hp : p ∉ record ++ op.made) : op.apply f p = f p := by
  rw [List.mem_append, not_or] at hp
  cases op with
  | pass => rfl
  | create q | put q text => exact update_of_ne (List.ne_of_not_mem_cons hp.2) _ _
  | append q text =>
    have hq : q ∈ record := h
    exact update_of_ne (fun heq : p = q => hp.1 (heq ▸ hq)) _ _

/-- What is not recorded is as before. -/
theorem applyAll_frame (h : Sound record ops) (hp : p ∉ record ++ made ops) : applyAll f ops p = f p := by
  induction ops generalizing f record with
  | nil => rfl
  | cons op ops ih =>
    rw [made, List.flatMap_cons, ← List.append_assoc] at hp
    have hop : p ∉ record ++ op.made := fun hmem => hp (List.mem_append_left _ hmem)
    exact (ih h.2 hp).trans (Op.apply_frame h.1 hop)

theorem Op.cut_frame (h : op.Sound record) (hp : p ∉ record) (kept : Option ℕ) : op.cut kept f p = f p ∨
    ∃ text k, op = .put p text ∧ kept = some k ∧ op.cut kept f p = some (text.take k) := by
  cases op with
  | pass | create q => exact .inl rfl
  | append q text =>
    have hq : q ∈ record := h
    exact .inl (update_of_ne (fun heq : p = q => hp (heq ▸ hq)) _ _)
  | put q text =>
    cases kept with
    | none => exact .inl rfl
    | some k =>
      by_cases hq : p = q
      · subst hq
        exact .inr ⟨text, k, rfl, rfl, update_self _ _ _⟩
      · exact .inl (update_of_ne hq _ _)

/-- A run that fails at `op` leaves the files alone if it recorded no old one, and `op` left no part of a new one. -/
theorem undo_eq_iff (h : Sound [] (done ++ [op])) (kept : Option ℕ) :
    undo (made done) (op.cut kept (applyAll f done)) = f ↔
      (∀ p ∈ made done, f p = none) ∧
        ∀ p text k, op = .put p text → kept = some k → f p = some (text.take k) := by
  obtain ⟨hdone, hop, -⟩ := sound_append.1 h
  rw [List.nil_append] at hop
  constructor
  · intro heq
    have hat : ∀ p, undo (made done) (op.cut kept (applyAll f done)) p = f p := congrFun heq
    refine ⟨fun p hp => ?_, ?_⟩
    · rw [← hat p, undo, if_pos hp]
    · rintro p text k rfl rfl
      rw [← hat p, undo, if_neg hop]
      exact update_self _ _ _
  · rintro ⟨hnone, hput⟩
    funext p
    rw [undo]
    split_ifs with hp
    · exact (hnone p hp).symm
    · rcases Op.cut_frame (f := applyAll f done) hop hp kept with hsame | ⟨text, k, rfl, rfl, hpart⟩
      · exact hsame.trans (applyAll_frame hdone hp)
      · exact hpart.trans (hput p text k rfl rfl).symm

end Rollback
