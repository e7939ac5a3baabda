import Ferroly.Lib.Conn

/-!
# Retry policy and driver

Durations are in nanoseconds and saturate at the largest one there is. The wait between two attempts is the environment's: `sleep`
says what it does to the state.
-/

namespace Ferroly.Clients

/-- The largest `Duration`. -/
def MAX_DURATION : Nat := 2 ^ 64 * 1000000000 - 1

/-- A bounded retry loop with optional exponential backoff. -/
structure RetryPolicy where
  maxRetries : UInt32
  wait : Nat
  exponential : Bool
  maxBackoff : Option Nat
  deriving DecidableEq, Repr

/-- The wait before the retry numbered `attempt`. -/
def RetryPolicy.backoffFor (policy : RetryPolicy) (attempt : Nat) : Nat :=
  if !policy.exponential then policy.wait
  else
    let factor := min (2 ^ attempt) (2 ^ 32 - 1)
    let scaled := min (policy.wait * factor) MAX_DURATION
    match policy.maxBackoff with
    | some cap => if scaled > cap then cap else scaled
    | none => scaled

section Driver

variable {σ ε α : Type} (policy : RetryPolicy) (retryIf : ε → Bool) (sleep : Nat → Task σ ε Unit) (op : Task σ ε α)

/-- The loop of `retry` from an attempt on, with the number of retries that are left. -/
def retryLoop : Nat → Nat → Task σ ε α
  | left, attempt => do
    match ← (op.attempt : Task σ ε (Except ε α)) with
    | .ok v => pure v
    | .error e =>
      match left with
      | 0 => Task.fail e
      | left + 1 =>
        if !retryIf e then Task.fail e
        else do
          sleep (policy.backoffFor attempt)
          retryLoop left (attempt + 1)

/-- Run until it succeeds, an error may not be retried, or the retries are used up. -/
def retry : Task σ ε α := retryLoop policy retryIf sleep op policy.maxRetries.toNat 0

end Driver

end Ferroly.Clients
