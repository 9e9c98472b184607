import Mathlib

/-!
Postconditions for programs in `EStateM`, a state that survives a failure. `Post x Q E s` says that the
run of `x` from `s` ends in `Q` if it returns and in `E` if it fails. A sequence is taken apart by
`post_bind`, and a weaker postcondition follows by `Post.mono`.
-/

namespace EStateM

variable {ε σ α β : Type}

theorem run_ite {c : Prop} [Decidable c] (x y : EStateM ε σ α) (s : σ) :
    (if c then x else y).run s = if c then x.run s else y.run s := by
  split <;> rfl

theorem run_bind_ok {x : EStateM ε σ α} {f : α → EStateM ε σ β} {s s' : σ} {a : α}
    (h : x.run s = .ok a s') : (x >>= f).run s = (f a).run s' := by
  rw [run_bind, h]

def Result.last : Result ε σ α → σ
  | .ok _ s => s
  | .error _ s => s

def Result.isOk : Result ε σ α → Bool
  | .ok _ _ => true
  | .error _ _ => false

theorem Result.eq_ok_last {r : Result ε σ Unit} (h : r.isOk = true) : r = .ok () r.last := by
  cases r with
  | ok a s => rfl
  | error e s => simp [isOk] at h

def Result.fault? : Result ε σ α → Option ε
  | .ok _ _ => none
  | .error e _ => some e

theorem Result.eq_error_last {r : Result ε σ α} {e : ε} (h : r.fault? = some e) : r = .error e r.last := by
  cases r with
  | ok a s => simp [fault?] at h
  | error e' s =>
    obtain rfl := Option.some.inj h
    rfl

def Result.value? : Result ε σ α → Option α
  | .ok a _ => some a
  | .error _ _ => none

theorem Result.eq_ok_of_value {r : Result ε σ α} {a : α} (h : r.value? = some a) : r = .ok a r.last := by
  cases r with
  | ok a' s =>
    obtain rfl := Option.some.inj h
    rfl
  | error e s => simp [value?] at h

def Post (x : EStateM ε σ α) (Q : α → σ → Prop) (E : ε → σ → Prop) (s : σ) : Prop :=
  match x.run s with
  | .ok a s' => Q a s'
  | .error e s' => E e s'

variable {x : EStateM ε σ α} {Q Q' : α → σ → Prop} {E E' : ε → σ → Prop} {s s' : σ}

theorem post_of_ok {a : α} (h : x.run s = .ok a s') : Post x Q E s ↔ Q a s' := by
  rw [Post, h]

theorem post_of_error {e : ε} (h : x.run s = .error e s') : Post x Q E s ↔ E e s' := by
  rw [Post, h]

theorem post_bind {f : α → EStateM ε σ β} {Q : β → σ → Prop} :
    Post (x >>= f) Q E s ↔ Post x (fun a s' => Post (f a) Q E s') E s := by
  simp only [Post, run_bind]
  cases x.run s <;> rfl

theorem post_ite {c : Prop} [Decidable c] {y : EStateM ε σ α} :
    Post (if c then x else y) Q E s ↔ (c → Post x Q E s) ∧ (¬ c → Post y Q E s) := by
  split_ifs with h <;> simp [h]

theorem Post.mono (h : Post x Q E s) (hQ : ∀ a s', Q a s' → Q' a s') (hE : ∀ e s', E e s' → E' e s') :
    Post x Q' E' s := by
  unfold Post at h ⊢
  cases hx : x.run s with
  | ok a s' => rw [hx] at h; exact hQ a s' h
  | error e s' => rw [hx] at h; exact hE e s' h

end EStateM
