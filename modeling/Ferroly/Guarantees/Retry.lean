import Ferroly.Clients.Retry
import Mathlib.Data.List.Count
import Mathlib.Data.List.Range

/-!
# Retries

An operation is run until its first outcome that is not retried, with the waits of the policy in between.
-/

namespace Ferroly.Clients

open List

/-! ## Waits -/

section Backoff

variable {policy : RetryPolicy}

/-- The wait before a retry: doubled each time up to a `u32`, and no longer than the cap. -/
theorem backoffFor_eq (h : policy.exponential = true) (i : Nat) : policy.backoffFor i =
      min (min (policy.wait * min (2 ^ i) (2 ^ 32 - 1)) MAX_DURATION) (policy.maxBackoff.getD MAX_DURATION) := by
  unfold RetryPolicy.backoffFor
  rw [h]
  rcases policy.maxBackoff with _ | cap
  · simp
  · simp only [Bool.not_true, Bool.false_eq_true, if_false, Option.getD_some]
    split <;> omega

theorem backoffFor_mono (i j : Nat) (hij : i ≤ j) : policy.backoffFor i ≤ policy.backoffFor j := by
  rcases h : policy.exponential with _ | _
  · simp [RetryPolicy.backoffFor, h]
  · have hpow : 2 ^ i ≤ 2 ^ j := Nat.pow_le_pow_right (by decide) hij
    have hmul : policy.wait * min (2 ^ i) (2 ^ 32 - 1) ≤ policy.wait * min (2 ^ j) (2 ^ 32 - 1) := Nat.mul_le_mul_left _ (by omega)
    rw [backoffFor_eq h, backoffFor_eq h]
    omega

end Backoff

/-! ## Runs -/

/-- What happens while an operation is retried. -/
inductive RetryEvent where
  | invoked
  | waited (duration : Nat)
  deriving DecidableEq

section Runs

variable {ε α : Type} (policy : RetryPolicy) (retryIf : ε → Bool) (outcomes : Nat → Except ε α)

/-- An operation with given outcomes, one for each time it is run. -/
def scripted : Task (List RetryEvent) ε α := fun log => ((outcomes (log.count .invoked)).mapError .error, log ++ [.invoked])

/-- A wait that is recorded. -/
def recordedSleep (d : Nat) : Task (List RetryEvent) ε Unit := fun log => (.ok (), log ++ [.waited d])

/-- The outcome with which retrying ends: a value, an error that may not be retried, or the one after the last retry. -/
def Ends (i : Nat) : Prop :=
  match outcomes i with
  | .ok _ => True
  | .error e => retryIf e = false ∨ i = policy.maxRetries.toNat

/-- What happens from an attempt on, until one that is `n` later. -/
def attemptsFrom (attempt n : Nat) : List RetryEvent :=
  (range' attempt n).flatMap (fun i => [.invoked, .waited (policy.backoffFor i)]) ++ [.invoked]

theorem scripted_attempt (log : List RetryEvent) :
    ((scripted outcomes).attempt : Task _ ε (Except ε α)) log = (.ok (outcomes (log.count .invoked)), log ++ [.invoked]) := by
  unfold Task.attempt scripted
  generalize outcomes (log.count .invoked) = outcome
  rcases outcome with e | v <;> rfl

variable {policy retryIf outcomes} {left attempt : Nat} {log : List RetryEvent}

/-- An outcome with which retrying ends is returned. -/
theorem retryLoop_last (hends : Ends policy retryIf outcomes attempt) (hleft : attempt + left = policy.maxRetries.toNat)
    (hlog : log.count .invoked = attempt) :
    retryLoop policy retryIf recordedSleep (scripted outcomes) left attempt log =
      ((outcomes attempt).mapError .error, log ++ [.invoked]) := by
  unfold Ends at hends
  rw [retryLoop.eq_def]
  dsimp only
  rw [Task.bind_of_ok (scripted_attempt outcomes log), hlog]
  generalize outcomes attempt = outcome at hends ⊢
  rcases outcome with e | v
  · rcases left with _ | left
    · rfl
    · obtain hno | hlast := hends
      · simp only [hno]
        rfl
      · omega
  · rfl

/-- After another outcome there is a wait, and the operation is run again. -/
theorem retryLoop_next (hends : ¬ Ends policy retryIf outcomes attempt) (hleft : attempt + left = policy.maxRetries.toNat)
    (hlog : log.count .invoked = attempt) :
    ∃ left', left = left' + 1 ∧ retryLoop policy retryIf recordedSleep (scripted outcomes) left attempt log =
      retryLoop policy retryIf recordedSleep (scripted outcomes) left' (attempt + 1)
        (log ++ [.invoked, .waited (policy.backoffFor attempt)]) := by
  unfold Ends at hends
  rw [retryLoop.eq_def]
  dsimp only
  rw [Task.bind_of_ok (scripted_attempt outcomes log), hlog]
  generalize outcomes attempt = outcome at hends ⊢
  rcases outcome with e | v
  · obtain ⟨hyes, hnot⟩ := not_or.mp hends
    rcases left with _ | left
    · exact absurd hleft hnot
    · refine ⟨left, rfl, ?_⟩
      simp only [(Bool.not_eq_false _).mp hyes, Bool.not_true, Bool.false_eq_true, if_false]
      rw [Task.bind_of_ok (rfl : recordedSleep _ (log ++ [.invoked]) = _), append_assoc]
      rfl
  · exact absurd trivial hends

/-- The loop, by the retries that are left. -/
theorem retryLoop_ends (hleft : attempt + left = policy.maxRetries.toNat) (hlog : log.count .invoked = attempt) :
    ∃ n ≤ left, Ends policy retryIf outcomes (attempt + n) ∧ (∀ j, attempt ≤ j → j < attempt + n → ¬ Ends policy retryIf outcomes j) ∧
      retryLoop policy retryIf recordedSleep (scripted outcomes) left attempt log =
        ((outcomes (attempt + n)).mapError .error, log ++ attemptsFrom policy attempt n) := by
  induction left generalizing attempt log with
  | zero =>
    by_cases hends : Ends policy retryIf outcomes attempt
    · exact ⟨0, Nat.le_refl 0, hends, fun j hj hlt => absurd hlt (Nat.not_lt.mpr hj), retryLoop_last hends hleft hlog⟩
    · obtain ⟨left', h, -⟩ := retryLoop_next hends hleft hlog
      cases h
  | succ left ih =>
    by_cases hends : Ends policy retryIf outcomes attempt
    · exact ⟨0, Nat.zero_le _, hends, fun j hj hlt => absurd hlt (Nat.not_lt.mpr hj), retryLoop_last hends hleft hlog⟩
    · obtain ⟨_, ⟨⟩, hnext⟩ := retryLoop_next hends hleft hlog
      obtain ⟨n, hn, hlast, hbefore, hrun⟩ := @ih (attempt + 1)
        (log ++ [.invoked, .waited (policy.backoffFor attempt)]) (by omega) (by simp [hlog])
      rw [show attempt + 1 + n = attempt + (n + 1) by omega] at hlast hbefore hrun
      refine ⟨n + 1, Nat.succ_le_succ hn, hlast, fun j hj hlt => ?_, ?_⟩
      · rcases Nat.eq_or_lt_of_le hj with rfl | hj
        · exact hends
        · exact hbefore j hj hlt
      · rw [hnext, hrun]
        simp [attemptsFrom, range'_succ]

end Runs

/-- For every policy, predicate and sequence of outcomes: the operation is run up to the first outcome that is a value, an error that may
not be retried or the one after the last retry, that outcome is returned, and before each run but the first there is the wait of the
policy. The waits never decrease, and in exponential mode they are the base wait, doubled each time up to the largest `u32`, the largest
duration and the cap. -/
theorem retry_runs {ε α : Type} (policy : RetryPolicy) (retryIf : ε → Bool) (outcomes : Nat → Except ε α) :
    (∃ k ≤ policy.maxRetries.toNat, Ends policy retryIf outcomes k ∧ (∀ j < k, ¬ Ends policy retryIf outcomes j) ∧
      retry policy retryIf recordedSleep (scripted outcomes) [] = ((outcomes k).mapError .error,
          (range k).flatMap (fun i => [.invoked, .waited (policy.backoffFor i)]) ++ [.invoked])) ∧
    (∀ i j, i ≤ j → policy.backoffFor i ≤ policy.backoffFor j) ∧
    (policy.exponential = false → ∀ i, policy.backoffFor i = policy.wait) ∧
    (policy.exponential = true → ∀ i,
      (i < 32 → policy.backoffFor i = min (min (policy.wait * 2 ^ i) MAX_DURATION) (policy.maxBackoff.getD MAX_DURATION)) ∧
      (32 ≤ i → policy.backoffFor i =
        min (min (policy.wait * (2 ^ 32 - 1)) MAX_DURATION) (policy.maxBackoff.getD MAX_DURATION))) := by
  refine ⟨?_, backoffFor_mono, fun h i => ?_, fun h i => ⟨fun hi => ?_, fun hi => ?_⟩⟩
  · obtain ⟨k, hk, hends, hbefore, hrun⟩ := @retryLoop_ends _ _ policy retryIf outcomes _ 0 []
      (Nat.zero_add policy.maxRetries.toNat) rfl
    rw [Nat.zero_add] at hends hbefore hrun
    refine ⟨k, hk, hends, fun j hj => hbefore j (Nat.zero_le j) hj, ?_⟩
    rw [range_eq_range']
    exact hrun
  · simp [RetryPolicy.backoffFor, h]
  · have hpow : 2 ^ i ≤ 2 ^ 31 := Nat.pow_le_pow_right (by decide) (by omega)
    rw [backoffFor_eq h, Nat.min_eq_left (by omega : 2 ^ i ≤ 2 ^ 32 - 1)]
  · have hpow : 2 ^ 32 ≤ 2 ^ i := Nat.pow_le_pow_right (by decide) hi
    rw [backoffFor_eq h, Nat.min_eq_right (by omega : 2 ^ 32 - 1 ≤ 2 ^ i)]

end Ferroly.Clients
