import Ferroly.Lib.Conn

/-!
# Ghost state

A task over a larger state refines one over a part of it when it does the same there: what it notes down beside that part does not
change what happens. Refinement goes through the ways tasks are put together.
-/

namespace Ferroly.Task

variable {σ τ ε δ α β : Type}

/-- `q` does on the part `g` of its state what `p` does. -/
def Refines (g : τ → σ) (q : Task τ ε α) (p : Task σ ε α) : Prop := ∀ t, (q t).1 = (p (g t)).1 ∧ g (q t).2 = (p (g t)).2

namespace Refines

variable {g : τ → σ}

variable {q : Task τ ε α} {p : Task σ ε α}

/-- The refined task as a whole. -/
theorem run_eq (h : Refines g q p) (t : τ) : p (g t) = ((q t).1, g (q t).2) :=
  Prod.ext (h t).1.symm (h t).2.symm

theorem pure (a : α) : Refines g (Pure.pure a : Task τ ε α) (Pure.pure a) := fun _ => ⟨rfl, rfl⟩

theorem fail (e : ε) : Refines g (Task.fail e : Task τ ε α) (Task.fail e) := fun _ => ⟨rfl, rfl⟩

theorem diverge : Refines g (Task.diverge : Task τ ε α) Task.diverge := fun _ => ⟨rfl, rfl⟩

theorem bind {q' : α → Task τ ε β} {p' : α → Task σ ε β} (h : Refines g q p) (h' : ∀ a, Refines g (q' a) (p' a))
    : Refines g (q >>= q') (p >>= p') := by
  intro t
  rw [bind_apply, bind_apply, h.run_eq t]
  rcases q t with ⟨e | a, t'⟩
  · exact ⟨rfl, rfl⟩
  · exact h' a t'

/-- A look at the larger state alone. -/
theorem get_bind {q : τ → Task τ ε α} (h : ∀ t, Refines g (q t) p) : Refines g (Task.get >>= q) p :=
  fun t => h t t

/-- A look at the state on both sides. -/
theorem get_get {q : τ → Task τ ε α} {p : σ → Task σ ε α} (h : ∀ t, Refines g (q t) (p (g t))) :
    Refines g (Task.get >>= q) (Task.get >>= p) := fun t => h t t

/-- A change of the larger state alone. -/
theorem modify_bind {f : τ → τ} {q : Unit → Task τ ε α} (hf : ∀ t, g (f t) = g t) (h : Refines g (q ()) p) :
    Refines g (Task.modify f >>= q) p := by
  intro t
  rw [← hf t]
  exact h (f t)

theorem ite {c : Prop} [Decidable c] {q' : Task τ ε α} {p' : Task σ ε α} (h : Refines g q p) (h' : Refines g q' p') :
    Refines g (if c then q else q') (if c then p else p') := by
  split
  · exact h
  · exact h'

theorem attempt (h : Refines g q p) : Refines g (q.attempt : Task τ δ (Except ε α)) (p.attempt : Task σ δ (Except ε α)) := by
  intro t
  unfold Task.attempt
  rw [h.run_eq t]
  rcases q t with ⟨(e | _ | _) | a, t'⟩ <;> exact ⟨rfl, rfl⟩

theorem timeout {e : ε} (h : Refines g q p) : Refines g (q.timeout e) (p.timeout e) := by
  intro t
  unfold Task.timeout
  rw [h.run_eq t]
  rcases q t with ⟨(e | _ | _) | a, t'⟩ <;> exact ⟨rfl, rfl⟩

end Refines

end Ferroly.Task
