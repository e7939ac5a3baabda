import Ferroly.Clients.Breaker

/-!
# What a call of a breaker does

The steps of a breaker as a relation, which every call follows; what holds of a breaker over its calls is proved from these.
-/

namespace Ferroly.Clients.CircuitBreaker

variable (cfg : CircuitBreakerConfig) (s : CircuitBreaker)

/-- The steps of a breaker, one for each branch of its calls. -/
inductive Step : BreakerCall → CircuitBreaker → Prop where
  | pass {now : Nat} (h : s.circuit = .closed) : Step (.canExecute now) s
  | early {now : Nat} (h : s.circuit = .opened) (hearly : (s.openedAt.map (now - ·)).getD 0 < cfg.timeout) : Step (.canExecute now) s
  | probe {now : Nat} (h : s.circuit = .opened) (hlate : cfg.timeout ≤ (s.openedAt.map (now - ·)).getD 0) :
    Step (.canExecute now) { s with circuit := .halfOpen, successes := 0, halfOpenInFlight := 1 }
  | trial {now : Nat} (h : s.circuit = .halfOpen) (hroom : s.halfOpenInFlight < cfg.maxHalfOpen) :
    Step (.canExecute now) { s with halfOpenInFlight := s.halfOpenInFlight + 1 }
  | full {now : Nat} (h : s.circuit = .halfOpen) (hfull : cfg.maxHalfOpen ≤ s.halfOpenInFlight) : Step (.canExecute now) s
  | fine {now : Nat} (h : s.circuit = .closed) : Step (.onExecution true now) { s with failures := 0 }
  | failed {now : Nat} (h : s.circuit = .closed) (hfew : s.failures + 1 < cfg.failureThreshold) :
    Step (.onExecution false now) { s with failures := s.failures + 1 }
  | trip {now : Nat} (h : s.circuit = .closed) (hmany : cfg.failureThreshold ≤ s.failures + 1) :
    Step (.onExecution false now) ⟨.opened, 0, 0, 0, some now⟩
  | reopen {now : Nat} (h : s.circuit = .halfOpen) : Step (.onExecution false now) ⟨.opened, 0, 0, 0, some now⟩
  | won {now : Nat} (h : s.circuit = .halfOpen) (hfew : s.successes + 1 < cfg.successThreshold) :
    Step (.onExecution true now) { s with halfOpenInFlight := s.halfOpenInFlight - 1, successes := s.successes + 1 }
  | close {now : Nat} (h : s.circuit = .halfOpen) (hmany : cfg.successThreshold ≤ s.successes + 1) :
    Step (.onExecution true now) ⟨.closed, 0, 0, s.halfOpenInFlight - 1, none⟩
  | stray {now : Nat} (h : s.circuit = .opened) : Step (.onExecution true now) s
  | refresh {now : Nat} (h : s.circuit = .opened) : Step (.onExecution false now) { s with openedAt := some now }

/-- What the breaker answers: it is closed; it is open and an episode begins; it is half-open and there is room; or it rejects. -/
theorem canExecute_cases (now : Nat) : s.circuit = .closed ∧ s.canExecute cfg now = (.ok (), s) ∨
      s.circuit = .opened ∧ cfg.timeout ≤ (s.openedAt.map (now - ·)).getD 0 ∧
        s.canExecute cfg now = (.ok (), { s with circuit := .halfOpen, successes := 0, halfOpenInFlight := 1 }) ∨
      s.circuit = .halfOpen ∧ s.halfOpenInFlight < cfg.maxHalfOpen ∧
        s.canExecute cfg now = (.ok (), { s with halfOpenInFlight := s.halfOpenInFlight + 1 }) ∨
      (s.circuit = .opened ∧ (s.openedAt.map (now - ·)).getD 0 < cfg.timeout ∨
        s.circuit = .halfOpen ∧ cfg.maxHalfOpen ≤ s.halfOpenInFlight) ∧ s.canExecute cfg now = (.error ⟨⟩, s) := by
  unfold canExecute
  cases hcircuit : s.circuit with
  | closed => exact .inl ⟨rfl, rfl⟩
  | opened =>
    dsimp only
    split
    · next hlate => exact .inr (.inl ⟨rfl, hlate, rfl⟩)
    · next hearly => exact .inr (.inr (.inr ⟨.inl ⟨rfl, Nat.lt_of_not_le hearly⟩, rfl⟩))
  | halfOpen =>
    dsimp only
    split
    · next hroom => exact .inr (.inr (.inl ⟨rfl, hroom, rfl⟩))
    · next hfull => exact .inr (.inr (.inr ⟨.inr ⟨rfl, Nat.le_of_not_lt hfull⟩, rfl⟩))

/-- Every call is one of the steps. -/
theorem step_call (c : BreakerCall) : Step cfg s c (s.call cfg c) := by
  obtain ⟨circuit, failures, successes, inFlight, openedAt⟩ := s
  cases c with
  | canExecute now =>
    rw [call]
    obtain ⟨hc, heq⟩ | ⟨hc, hlate, heq⟩ | ⟨hc, hroom, heq⟩ | ⟨⟨hc, hearly⟩ | ⟨hc, hfull⟩, heq⟩ := canExecute_cases cfg _ now
    all_goals rw [heq]
    · exact .pass hc
    · exact .probe hc hlate
    · exact .trial hc hroom
    · exact .early hc hearly
    · exact .full hc hfull
  | onExecution success now =>
    cases circuit with
    | closed =>
      cases success with
      | true => exact .fine rfl
      | false =>
        simp only [call, onExecution, Bool.false_eq_true, if_false]
        split
        · next hmany => exact .trip rfl hmany
        · next hfew => exact .failed rfl (Nat.lt_of_not_le hfew)
    | opened =>
      cases success with
      | true => exact .stray rfl
      | false => exact .refresh rfl
    | halfOpen =>
      cases success with
      | false => exact .reopen rfl
      | true =>
        simp only [call, onExecution, if_true]
        split
        · next hmany => exact .close rfl hmany
        · next hfew => exact .won rfl (Nat.lt_of_not_le hfew)

end Ferroly.Clients.CircuitBreaker
