import Ferroly.Lib.Run

/-!
# Runs that neither panic nor diverge

A run is safe for a state when it ends with an error of its own, or with a value and a state that satisfy a postcondition. The
rules below follow the shape of a program.
-/

namespace Ferroly.Run

variable {σ ε α β : Type}

/-- From this state the run returns: an error of its own, or a value and a state as required. -/
def Safe (p : Run σ ε α) (s : σ) (post : α → σ → Prop) : Prop :=
  match p s with
  | .ok (a, s') => post a s'
  | .error (.error _) => True
  | .error _ => False

variable {p : Run σ ε α} {post : α → σ → Prop}

theorem Safe.of_ok {s s' : σ} {a : α} (h : p s = .ok (a, s')) (hpost : post a s') : p.Safe s post := by
  rw [Safe, h]
  exact hpost

variable {s : σ}

theorem Safe.pure {a : α} (h : post a s) : (pure a : Run σ ε α).Safe s post := h

theorem Safe.fail {e : ε} : (fail e : Run σ ε α).Safe s post := trivial

theorem Safe.mono {post' : α → σ → Prop} (h : p.Safe s post) (himp : ∀ a s', post a s' → post' a s') : p.Safe s post' := by
  unfold Safe at h ⊢
  rcases hp : p s with (e | _ | _) | ⟨a, s'⟩
  all_goals rw [hp] at h
  · trivial
  · exact h
  · exact h
  · exact himp a s' h

variable {f : α → Run σ ε β}

/-- The rest runs from where the first step left off. -/
theorem Safe.bind {mid : α → σ → Prop} {post : β → σ → Prop} (h : p.Safe s mid) (hf : ∀ a s', mid a s' → (f a).Safe s' post)
    : (p >>= f).Safe s post := by
  unfold Safe at h ⊢
  rw [bind_apply]
  rcases hp : p s with (e | _ | _) | ⟨a, s'⟩
  all_goals rw [hp] at h
  · trivial
  · exact h
  · exact h
  · exact hf a s' h

/-- A step known to succeed. -/
theorem Safe.bind_ok {s' : σ} {a : α} {post : β → σ → Prop} (hp : p s = .ok (a, s')) (h : (f a).Safe s' post)
    : (p >>= f).Safe s post := by
  unfold Safe
  rw [bind_of_ok hp]
  exact h

theorem Safe.ite {c : Prop} [Decidable c] {q : Run σ ε α} (hp : c → p.Safe s post) (hq : ¬c → q.Safe s post)
    : (if c then p else q).Safe s post := by
  split
  next hc => exact hp hc
  next hc => exact hq hc

/-- How a safe run ends. -/
theorem Safe.returns (h : p.Safe s post) : (∃ a s', p s = .ok (a, s') ∧ post a s') ∨ ∃ e, p s = .error (.error e) := by
  unfold Safe at h
  split at h
  next a s' heq => exact .inl ⟨a, s', heq, h⟩
  next e heq => exact .inr ⟨e, heq⟩
  · cases h

end Ferroly.Run
