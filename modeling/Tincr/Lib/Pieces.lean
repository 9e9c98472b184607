import Mathlib

/-!
Data that travels in pieces. A piece says what it belongs to, where its data starts and whether more
follows. Two pieces join when the second starts where the first ends. Joining is associative, so a run
of pieces may be replaced by what it joins to, and back, without a change to the whole.
-/

namespace Pieces

structure Piece (κ α : Type) where
  key : κ
  offset : ℕ
  data : List α
  more : Bool
deriving DecidableEq, Repr

variable {κ α : Type} [DecidableEq κ]

def join (a b : Piece κ α) : Option (Piece κ α) :=
  if a.key = b.key ∧ a.more = true ∧ a.offset + a.data.length = b.offset then
    some ⟨a.key, a.offset, a.data ++ b.data, b.more⟩
  else none

def reassemble : List (Piece κ α) → Option (Piece κ α)
  | [] => none
  | [a] => some a
  | a :: b :: rest => (reassemble (b :: rest)).bind (join a)

variable {a b p : Piece κ α} {xs ys zs : List (Piece κ α)}

theorem reassemble_cons (a : Piece κ α) (h : xs ≠ []) : reassemble (a :: xs) = (reassemble xs).bind (join a) := by
  cases xs with
  | nil => exact absurd rfl h
  | cons b rest => rfl

theorem join_assoc (h : join a b = some p) (c : Piece κ α) : (join b c).bind (join a) = join p c := by
  unfold join at h
  split_ifs at h with hab
  obtain ⟨hkey, hmore, hoff⟩ := hab
  obtain rfl := Option.some.inj h
  unfold join
  by_cases hbc : b.key = c.key ∧ b.more = true ∧ b.offset + b.data.length = c.offset
  · obtain ⟨hkey', hmore', hoff'⟩ := hbc
    rw [if_pos ⟨hkey', hmore', hoff'⟩, Option.bind_some, if_pos ⟨hkey, hmore, hoff⟩, if_pos]
    · simp only [List.append_assoc]
    · refine ⟨hkey.trans hkey', hmore', ?_⟩
      dsimp only
      rw [List.length_append]
      omega
  · rw [if_neg hbc, Option.bind_none, if_neg]
    rintro ⟨hkey', hmore', hoff'⟩
    refine hbc ⟨hkey.symm.trans hkey', hmore', ?_⟩
    dsimp only at hoff'
    rw [List.length_append] at hoff'
    omega

theorem reassemble_append (h : reassemble ys = some p) (zs : List (Piece κ α)) :
    reassemble (ys ++ zs) = reassemble (p :: zs) := by
  cases zs with
  | nil => rw [List.append_nil, h, reassemble]
  | cons z zs =>
    induction ys generalizing p with
    | nil => simp [reassemble] at h
    | cons a ys ih =>
      cases ys with
      | nil =>
        obtain rfl := Option.some.inj h
        rfl
      | cons b ys =>
        rw [reassemble_cons _ (by simp)] at h
        obtain ⟨q, hq, hjoin⟩ := Option.bind_eq_some_iff.1 h
        have hrest : z :: zs ≠ [] := by simp
        rw [List.cons_append, reassemble_cons a (by simp), ih hq, reassemble_cons q hrest,
          reassemble_cons p hrest, Option.bind_assoc]
        exact congrArg _ (funext fun c => join_assoc hjoin c)

/-- A run anywhere is replaced by what it joins to. -/
theorem reassemble_replace (h : reassemble ys = some p) (xs zs : List (Piece κ α)) :
    reassemble (xs ++ ys ++ zs) = reassemble (xs ++ p :: zs) := by
  induction xs with
  | nil => exact reassemble_append h zs
  | cons a xs ih =>
    have hne : ys ≠ [] := by
      rintro rfl
      simp [reassemble] at h
    rw [List.cons_append, List.cons_append, List.cons_append, reassemble_cons _ (by simp [hne]), ih,
      reassemble_cons _ (by simp)]

/-- Pieces that each start where the ones before end, with more to follow after all but the last. -/
theorem reassemble_of_tiles {key : κ} {start : ℕ} {more : Bool} (hne : xs ≠ [])
    (h : ∀ pre p post, xs = pre ++ p :: post → p.key = key ∧ p.offset = start + (pre.flatMap Piece.data).length ∧
      p.more = (if post = [] then more else true)) :
    reassemble xs = some ⟨key, start, xs.flatMap Piece.data, more⟩ := by
  induction xs generalizing start with
  | nil => exact absurd rfl hne
  | cons a xs ih =>
    obtain ⟨hkey, hoff, hmore⟩ := h [] a xs rfl
    rw [List.flatMap_nil, List.length_nil, Nat.add_zero] at hoff
    cases xs with
    | nil =>
      rw [if_pos rfl] at hmore
      rw [reassemble, ← hkey, ← hoff, ← hmore]
      simp
    | cons b xs =>
      rw [if_neg (by simp)] at hmore
      have hrest : reassemble (b :: xs) = some ⟨key, start + a.data.length, (b :: xs).flatMap Piece.data, more⟩ := by
        refine ih (by simp) fun pre p post hsplit => ?_
        have hp := h (a :: pre) p post (by rw [hsplit, List.cons_append])
        rwa [List.flatMap_cons, List.length_append, ← Nat.add_assoc] at hp
      rw [reassemble_cons a (by simp), hrest, Option.bind_some, join, if_pos ⟨hkey, hmore, by rw [hoff]⟩, hkey, hoff,
        List.flatMap_cons (x := a)]

/-! ### Equal lengths -/

variable {ls : List (List α)} {l x : List α} {g k : ℕ}

theorem length_flatten_concat (hfull : ∀ l ∈ ls, l.length = g) :
    (ls ++ [l]).flatten.length = ls.length * g + l.length := by
  induction ls with
  | nil => simp
  | cons a ls ih =>
    have ha : a.length = g := hfull a List.mem_cons_self
    rw [List.cons_append, List.flatten_cons, List.length_append, ih fun l hl => hfull l (List.mem_cons_of_mem _ hl),
      List.length_cons, Nat.add_mul, ha]
    omega

/-- Where only the last is shorter, each is read back at its multiple of the length. -/
theorem slice_flatten_concat (hfull : ∀ l ∈ ls, l.length = g) (hlast : l.length ≤ g)
    (h : (ls ++ [l])[k]? = some x) : ((ls ++ [l]).flatten.drop (k * g)).take g = x := by
  induction ls generalizing k with
  | nil =>
    cases k with
    | zero =>
      obtain rfl : l = x := by simpa using h
      simpa using List.take_of_length_le hlast
    | succ k => simp at h
  | cons a ls ih =>
    have ha : a.length = g := hfull a List.mem_cons_self
    rw [List.cons_append] at h ⊢
    rw [List.flatten_cons]
    cases k with
    | zero =>
      obtain rfl : a = x := by simpa using h
      rw [Nat.zero_mul, List.drop_zero, List.take_left' ha]
    | succ k =>
      rw [List.getElem?_cons_succ] at h
      rw [Nat.add_mul, Nat.one_mul, Nat.add_comm, ← List.drop_drop, List.drop_left' ha]
      exact ih (fun l hl => hfull l (List.mem_cons_of_mem _ hl)) h

end Pieces
