import Tincr.Lib.Patch

/-!
Programs whose machine operations stop instead of misbehaving: arithmetic that leaves its width, an
index or a slice outside its buffer, a division by zero. `Returns x Q` says that `x` meets none of
them and that its result satisfies `Q`, so a sequence is taken apart by `returns_bind` and each
operation by the one condition under which it goes through.
-/

/-- Why a program stopped. `diverges` is a loop that used up the rounds it was given. -/
inductive Fault
  | overflow
  | divByZero
  | index
  | slice
  | diverges
deriving DecidableEq, Repr

abbrev Checked := Except Fault

namespace Checked

variable {α β : Type}

def Returns (x : Checked α) (Q : α → Prop) : Prop :=
  ∃ a, x = .ok a ∧ Q a

variable {x y : Checked α} {Q Q' : α → Prop}

theorem Returns.mono (h : Returns x Q) (hQ : ∀ a, Q a → Q' a) : Returns x Q' := by
  obtain ⟨a, hx, ha⟩ := h
  exact ⟨a, hx, hQ a ha⟩

/-- If `x` returns, what holds of its result is settled by what is known of it. -/
theorem Returns.iff_of {c : Prop} (h : Returns x Q) (hQ : ∀ a, Q a → (Q' a ↔ c)) : Returns x Q' ↔ c := by
  obtain ⟨a, rfl, ha⟩ := h
  rw [← hQ a ha]
  simp [Returns]

variable {bs : List α} {a : α} {b bound hi i lo : ℕ}

@[simp] theorem returns_ok : Returns (.ok a) Q ↔ Q a := by
  simp [Returns]

@[simp] theorem returns_pure : Returns (pure a) Q ↔ Q a := returns_ok

@[simp] theorem returns_error {e : Fault} : Returns (.error e : Checked α) Q ↔ False := by
  simp [Returns]

@[simp] theorem returns_bind {f : α → Checked β} {Q : β → Prop} :
    Returns (x >>= f) Q ↔ Returns x fun a => Returns (f a) Q := by
  cases x with
  | ok a | error e => simp [bind, Except.bind]

@[simp] theorem returns_map {f : α → β} {Q : β → Prop} :
    Returns (f <$> x) Q ↔ Returns x fun a => Q (f a) := by
  cases x with
  | ok a | error e => simp [Functor.map, Except.map]

@[simp] theorem returns_ite {c : Prop} [Decidable c] :
    Returns (if c then x else y) Q ↔ (c → Returns x Q) ∧ (¬ c → Returns y Q) := by
  split_ifs with h <;> simp [h]

abbrev usizeBound : ℕ := 2 ^ 64

def add (bound a b : ℕ) : Checked ℕ := if a + b < bound then .ok (a + b) else .error .overflow

def mul (bound a b : ℕ) : Checked ℕ := if a * b < bound then .ok (a * b) else .error .overflow

def sub (a b : ℕ) : Checked ℕ := if b ≤ a then .ok (a - b) else .error .overflow

def div (a b : ℕ) : Checked ℕ := if b = 0 then .error .divByZero else .ok (a / b)

def offset (xs : List ℕ) : Checked ℕ := xs.foldlM (add usizeBound) 0

def load (bs : List α) (i : ℕ) : Checked α :=
  match bs[i]? with
  | some b => .ok b
  | none => .error .index

def store (bs : List α) (i : ℕ) (b : α) : Checked (List α) :=
  if i < bs.length then .ok (bs.set i b) else .error .index

def slice (bs : List α) (lo hi : ℕ) : Checked (List α) :=
  if lo ≤ hi ∧ hi ≤ bs.length then .ok ((bs.take hi).drop lo) else .error .slice

/-- Copies `src` over the bytes at `lo..hi`, which must be as many. -/
def copyTo (bs : List α) (lo hi : ℕ) (src : List α) : Checked (List α) :=
  if lo ≤ hi ∧ hi ≤ bs.length ∧ src.length = hi - lo then .ok (Buffer.patch bs lo src)
  else .error .slice

@[simp] theorem returns_add {a : ℕ} {Q : ℕ → Prop} : Returns (add bound a b) Q ↔ a + b < bound ∧ Q (a + b) := by
  unfold add; split_ifs with h <;> simp [h]

@[simp] theorem returns_mul {a : ℕ} {Q : ℕ → Prop} : Returns (mul bound a b) Q ↔ a * b < bound ∧ Q (a * b) := by
  unfold mul; split_ifs with h <;> simp [h]

@[simp] theorem returns_sub {a : ℕ} {Q : ℕ → Prop} : Returns (sub a b) Q ↔ b ≤ a ∧ Q (a - b) := by
  unfold sub; split_ifs with h <;> simp [h]

@[simp] theorem returns_div {a : ℕ} {Q : ℕ → Prop} : Returns (div a b) Q ↔ b ≠ 0 ∧ Q (a / b) := by
  unfold div; split_ifs with h <;> simp [h]

@[simp] theorem returns_load : Returns (load bs i) Q ↔ ∃ h : i < bs.length, Q bs[i] := by
  unfold load
  split
  case h_1 b hb =>
    obtain ⟨hi, rfl⟩ := List.getElem?_eq_some_iff.1 hb
    simp [hi]
  case h_2 hb =>
    have hi := List.getElem?_eq_none_iff.1 hb
    simp [Nat.not_lt.2 hi]

@[simp] theorem returns_store {b : α} {Q : List α → Prop} :
    Returns (store bs i b) Q ↔ i < bs.length ∧ Q (bs.set i b) := by
  unfold store; split_ifs with h <;> simp [h]

@[simp] theorem returns_slice {Q : List α → Prop} :
    Returns (slice bs lo hi) Q ↔ (lo ≤ hi ∧ hi ≤ bs.length) ∧ Q ((bs.take hi).drop lo) := by
  unfold slice; split_ifs with h <;> simp [h]

@[simp] theorem returns_copyTo {src : List α} {Q : List α → Prop} :
    Returns (copyTo bs lo hi src) Q ↔
      (lo ≤ hi ∧ hi ≤ bs.length ∧ src.length = hi - lo) ∧ Q (Buffer.patch bs lo src) := by
  unfold copyTo; split_ifs with h <;> simp [h]

theorem returns_foldlM_add {Q : ℕ → Prop} (xs : List ℕ) (a : ℕ) :
    Returns (xs.foldlM (add bound) a) Q ↔ (xs ≠ [] → a + xs.sum < bound) ∧ Q (a + xs.sum) := by
  induction xs generalizing a with
  | nil => simp
  | cons x xs ih =>
    simp only [List.foldlM_cons, returns_bind, returns_add, ih, List.sum_cons, ne_eq,
      reduceCtorEq, not_false_eq_true, forall_const, Nat.add_assoc]
    rcases eq_or_ne xs [] with rfl | hne
    · simp
    · simp only [hne, not_false_eq_true, forall_const]
      constructor
      · rintro ⟨-, h, hQ⟩; exact ⟨h, hQ⟩
      · rintro ⟨h, hQ⟩; exact ⟨by omega, h, hQ⟩

theorem Returns.eq_ok (h : Returns x fun b => b = a) : x = .ok a := by
  obtain ⟨b, hx, rfl⟩ := h
  exact hx

theorem load_eq (h : i < bs.length) : load bs i = .ok bs[i] :=
  Returns.eq_ok (returns_load.2 ⟨h, rfl⟩)

theorem load_some (h : bs[i]? = some a) : load bs i = .ok a := by
  rw [load, h]

theorem store_eq (h : i < bs.length) (b : α) : store bs i b = .ok (bs.set i b) :=
  if_pos h

theorem slice_eq (hlo : lo ≤ hi) (hhi : hi ≤ bs.length) : slice bs lo hi = .ok ((bs.drop lo).take (hi - lo)) := by
  rw [slice, if_pos ⟨hlo, hhi⟩, List.drop_take]

theorem sub_eq {a : ℕ} (h : b ≤ a) : sub a b = .ok (a - b) :=
  Returns.eq_ok (returns_sub.2 ⟨h, rfl⟩)

theorem ok_bind {f : α → Checked β} : ((.ok a : Checked α) >>= f) = f a := rfl

@[simp] theorem returns_offset {xs : List ℕ} {Q : ℕ → Prop} :
    Returns (offset xs) Q ↔ xs.sum < usizeBound ∧ Q xs.sum := by
  rw [offset, returns_foldlM_add, Nat.zero_add]
  rcases eq_or_ne xs [] with rfl | hne
  · simp [usizeBound]
  · simp [hne]

theorem offset_eq {xs : List ℕ} {n : ℕ} (hn : xs.sum = n) (h : n < 2 ^ 64) : offset xs = .ok n :=
  Returns.eq_ok (returns_offset.2 ⟨hn ▸ h, hn⟩)

theorem bind_eq_ok {f : α → Checked β} {r : β} : x >>= f = .ok r ↔ ∃ a, x = .ok a ∧ f a = .ok r := by
  cases x with
  | error e => simp [bind, Except.bind]
  | ok a => simp [ok_bind]

/-- The result of a program on closed inputs, by evaluation. -/
theorem returns_of_any {p : α → Bool} (h : x.toOption.any p = true) : Returns x fun a => p a = true := by
  cases x with
  | error e => simp [Except.toOption] at h
  | ok a => exact ⟨a, rfl, by simpa [Except.toOption] using h⟩

/-! ### Runs -/

variable {σ : Type} {f : σ → α → Checked σ} {I : σ → Prop} {s s' : σ}

/-- What every step keeps holds at the end of a run. -/
theorem foldlM_invariant (hstep : ∀ s a s', I s → f s a = .ok s' → I s') (l : List α) (hI : I s)
    (h : l.foldlM f s = .ok s') : I s' := by
  induction l generalizing s with
  | nil =>
    obtain rfl := Except.ok.inj h
    exact hI
  | cons a l ih =>
    rw [List.foldlM_cons, bind_eq_ok] at h
    obtain ⟨s₁, hs₁, h⟩ := h
    exact ih (hstep s a s₁ hI hs₁) h

/-- A run goes through when every step does from where the steps before it lead. -/
theorem foldlM_returns {J : List α → σ → Prop} (l : List α) (h0 : J [] s)
    (hstep : ∀ done a s, a ∈ l → J done s → Returns (f s a) (J (done ++ [a]))) : Returns (l.foldlM f s) (J l) := by
  induction l using List.reverseRecOn with
  | nil => exact ⟨s, rfl, h0⟩
  | append_singleton l a ih =>
    have hrun := ih fun done a s ha hJ => hstep done a s (List.mem_append_left _ ha) hJ
    rw [List.foldlM_append, returns_bind]
    refine hrun.mono fun s₁ hJ => ?_
    rw [List.foldlM_cons, returns_bind]
    refine (hstep l a s₁ (List.mem_append_right _ List.mem_cons_self) hJ).mono fun s₂ hJ₂ => ?_
    rw [List.foldlM_nil]
    exact returns_pure.2 hJ₂

end Checked
