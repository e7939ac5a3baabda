import Ferroly.Lib.Utf8

/-!
# Computations that may fault

A program over a state `σ` either ends with a value and a new state, returns an error of its own, or panics. A loop whose
number of turns is bounded by fuel has a fourth outcome, `diverge`, when the fuel runs out.
-/

namespace Ferroly

/-- How a run ends without a value: the program's own error, a panic, or a loop out of fuel. -/
inductive Fault (ε : Type) where
  | error (e : ε)
  | panic
  | diverge
  deriving DecidableEq, Repr

section

variable {ε α β : Type} {r : Except ε α} {b : β}

theorem map_eq_ok {f : α → β} : r.map f = .ok b ↔ ∃ a, r = .ok a ∧ f a = b := by
  cases r <;> simp [Except.map]

theorem except_bind_eq_ok {f : α → Except ε β} : (r >>= f) = .ok b ↔ ∃ a, r = .ok a ∧ f a = .ok b := by
  cases r <;> simp [bind, Except.bind]

end

/-- A program over a state `σ` with errors `ε` and values `α`. -/
def Run (σ ε α : Type) : Type := σ → Except (Fault ε) (α × σ)

namespace Run

variable {σ ε α β : Type}

instance : Monad (Run σ ε) where
  pure a := fun s => .ok (a, s)
  bind p f := fun s =>
    match p s with
    | .ok (a, s') => f a s'
    | .error e => .error e

/-- Return an error. -/
def fail (e : ε) : Run σ ε α := fun _ => .error (.error e)

/-- Panic. -/
def panic : Run σ ε α := fun _ => .error .panic

/-- Out of fuel. -/
def diverge : Run σ ε α := fun _ => .error .diverge

/-- The state. -/
def get : Run σ ε σ := fun s => .ok (s, s)

/-- Replace the state. -/
def set (s : σ) : Run σ ε Unit := fun _ => .ok ((), s)

/-- A computation that does not touch the state. -/
def lift (r : Except ε α) : Run σ ε α := fun s =>
  match r with
  | .ok a => .ok (a, s)
  | .error e => .error (.error e)

@[simp] theorem pure_apply (a : α) (s : σ) : (pure a : Run σ ε α) s = .ok (a, s) := rfl

@[simp] theorem fail_apply (e : ε) (s : σ) : (fail e : Run σ ε α) s = .error (.error e) := rfl

@[simp] theorem get_apply (s : σ) : (get : Run σ ε σ) s = .ok (s, s) := rfl

@[simp] theorem set_apply (s t : σ) : (set t : Run σ ε Unit) s = .ok ((), t) := rfl

@[simp] theorem lift_ok (a : α) (s : σ) : (lift (.ok a) : Run σ ε α) s = .ok (a, s) := rfl

@[simp] theorem lift_error (e : ε) (s : σ) : (lift (.error e) : Run σ ε α) s = .error (.error e) := rfl

theorem lift_eq_ok {r : Except ε α} {s s' : σ} {a : α} : (lift r : Run σ ε α) s = .ok (a, s') ↔ r = .ok a ∧ s = s' := by
  cases r <;> simp

@[simp] theorem ite_apply (c : Prop) [Decidable c] (p q : Run σ ε α) (s : σ) : (if c then p else q) s = if c then p s else q s := by
  split <;> rfl

theorem bind_apply (p : Run σ ε α) (f : α → Run σ ε β) (s : σ) : (p >>= f) s = match p s with
      | .ok (a, s') => f a s'
      | .error e => .error e := rfl

variable {p : Run σ ε α} {f : α → Run σ ε β}

/-- A first step that succeeds hands its value and state to the rest. -/
theorem bind_of_ok {s s' : σ} {a : α} (h : p s = .ok (a, s')) : (p >>= f) s = f a s' := by
  rw [bind_apply, h]

/-- A first step that faults ends the run. -/
theorem bind_of_error {s : σ} {e : Fault ε} (h : p s = .error e) : (p >>= f) s = .error e := by
  rw [bind_apply, h]

/-- A first step that succeeds under a condition and faults otherwise. -/
theorem bind_of_ite {s s' : σ} {a : α} {e : Fault ε} {c : Prop} [Decidable c] (h : p s = if c then .ok (a, s') else .error e)
    : (p >>= f) s = if c then f a s' else .error e := by
  rw [bind_apply, h]
  by_cases hc : c
  · simp only [if_pos hc]
  · simp only [if_neg hc]

theorem bind_assoc {γ : Type} (p : Run σ ε α) (f : α → Run σ ε β) (g : β → Run σ ε γ) :
    ((p >>= f) >>= g) = (p >>= fun a => f a >>= g) := by
  funext s
  simp only [bind_apply]
  cases p s with
  | error e => rfl
  | ok r => rfl

theorem pure_bind (a : α) (f : α → Run σ ε β) : (pure a >>= f : Run σ ε β) = f a := rfl

/-- A sequence of two steps succeeds exactly when both do. -/
theorem bind_eq_ok {s : σ} {r : β × σ} : (p >>= f) s = .ok r ↔ ∃ a s', p s = .ok (a, s') ∧ f a s' = .ok r := by
  rw [bind_apply]
  cases hp : p s with
  | error e => simp
  | ok as =>
    obtain ⟨a, s'⟩ := as
    simp

end Run

end Ferroly
