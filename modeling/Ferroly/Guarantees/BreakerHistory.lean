import Ferroly.Lemmas.Breaker
import Mathlib.Data.List.Induction

/-!
# A breaker and its history

After any calls the counters of a breaker are below their thresholds, and no call raises one beyond a `u32`.
-/

namespace Ferroly.Clients

namespace CircuitBreaker

variable {cfg : CircuitBreakerConfig} {s s' : CircuitBreaker} {c : BreakerCall}

theorem after_concat (calls : List BreakerCall) (c : BreakerCall) : after cfg (calls ++ [c]) = (after cfg calls).call cfg c := by
  rw [after, List.foldl_append]
  rfl

/-! ## The counters -/

/-- What holds of a breaker in each of its states. -/
def Valid (cfg : CircuitBreakerConfig) (s : CircuitBreaker) : Prop :=
  match s.circuit with
  | .opened => s.openedAt.isSome = true
  | .closed => s.failures < cfg.failureThreshold ∧ s.openedAt = none
  | .halfOpen => (1 ≤ cfg.maxHalfOpen → s.halfOpenInFlight ≤ cfg.maxHalfOpen) ∧ s.successes < cfg.successThreshold

theorem Valid.step (hf : 1 ≤ cfg.failureThreshold) (hs : 1 ≤ cfg.successThreshold) (h : s.Valid cfg)
    (hstep : Step cfg s c s') : s'.Valid cfg := by
  unfold Valid at h
  cases hstep with
  | pass hc | early hc _ | full hc _ | stray hc =>
    exact h
  | probe => exact ⟨id, hs⟩
  | trial hc hroom =>
    rw [hc] at h
    simpa [hc] using ⟨fun _ => hroom, h.2⟩
  | fine hc =>
    rw [hc] at h
    simpa [hc] using ⟨hf, h.2⟩
  | failed hc hfew =>
    rw [hc] at h
    simpa [hc] using ⟨hfew, h.2⟩
  | trip | reopen => rfl
  | won hc hfew =>
    rw [hc] at h
    simpa [Valid, hc] using ⟨fun hm => Nat.le_trans (h.1 hm) (Nat.le_succ _), hfew⟩
  | close => exact ⟨hf, rfl⟩
  | refresh hc => simp [Valid, hc]

theorem valid_after (hf : 1 ≤ cfg.failureThreshold) (hs : 1 ≤ cfg.successThreshold) (calls : List BreakerCall) :
    (after cfg calls).Valid cfg := by
  induction calls using List.reverseRecOn with
  | nil => exact ⟨hf, rfl⟩
  | append_singleton calls c ih =>
    rw [after_concat]
    exact ih.step hf hs (step_call cfg _ c)

theorem Valid.fits (hf : cfg.failureThreshold < 2 ^ 32) (hs : cfg.successThreshold < 2 ^ 32) (hm : cfg.maxHalfOpen < 2 ^ 32)
    (h : s.Valid cfg) (c : BreakerCall) : s.fits cfg c = true := by
  obtain ⟨circuit, failures, successes, inFlight, openedAt⟩ := s
  cases c with
  | canExecute now =>
    simp only [CircuitBreaker.fits, Bool.or_eq_true, decide_eq_true_eq]
    omega
  | onExecution success now =>
    cases circuit <;> cases success <;> simp only [CircuitBreaker.fits, Valid, decide_eq_true_eq] at h ⊢ <;> omega

end CircuitBreaker

/-! ## Results -/

open CircuitBreaker

/-- For every configuration with positive thresholds, after any calls at any times: an open breaker has its opening time, a closed one has
counted fewer failures than trip it and has none, a half-open one has no more trials in flight than it may and fewer successes than close
it, and no call raises a counter beyond a `u32`. Where a counter is lowered, the subtraction saturates. -/
theorem breaker_invariant (cfg : CircuitBreakerConfig) (hf : 1 ≤ cfg.failureThreshold ∧ cfg.failureThreshold < 2 ^ 32)
    (hs : 1 ≤ cfg.successThreshold ∧ cfg.successThreshold < 2 ^ 32) (hm : 1 ≤ cfg.maxHalfOpen ∧ cfg.maxHalfOpen < 2 ^ 32)
    (calls : List BreakerCall) :
    (match (after cfg calls).circuit with
      | .opened => (after cfg calls).openedAt.isSome = true
      | .closed => (after cfg calls).failures < cfg.failureThreshold ∧ (after cfg calls).openedAt = none
      | .halfOpen => (after cfg calls).halfOpenInFlight ≤ cfg.maxHalfOpen ∧ (after cfg calls).successes < cfg.successThreshold) ∧
    ∀ c, (after cfg calls).fits cfg c = true := by
  have hvalid := valid_after hf.1 hs.1 calls
  refine ⟨?_, hvalid.fits hf.2 hs.2 hm.2⟩
  unfold Valid at hvalid
  split
  · next h => simpa [h] using hvalid
  · next h => simpa [h] using hvalid
  · next h => simpa [h, hm.1] using hvalid

theorem breaker_invariant_default : (after .default [.onExecution false 0]).failures < 5 :=
  (breaker_invariant .default (by decide) (by decide) (by decide) [.onExecution false 0]).1.1

end Ferroly.Clients
