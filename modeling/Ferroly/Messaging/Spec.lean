import Ferroly.Messaging.Bus
import Mathlib.Data.Finset.Dedup
import Mathlib.Algebra.BigOperators.Group.Finset.Basic

/-!
# What is asked of the users of the bus

Conditions on single actions, and on the listeners that a run adds: how many attempts each destination allows, and where messages go
that have used them up.
-/

namespace Ferroly.Messaging

namespace Action

/-- The concurrency limit of a listener that is added is one that a semaphore can have. -/
def limited : Action → Bool
  | .addListener _ opts => opts.concurrency.all (· ≤ maxPermits)
  | _ => true

/-- The send uses no other key than the message's. -/
def ownKey : Action → Bool
  | .send _ msg opts => opts.routingKey == none || opts.routingKey == msg.routingKey
  | _ => true

/-- The listeners of the destination stay as they are. -/
def fixes (n : Str) : Action → Bool
  | .addListener addr _ => destName addr != n
  | .stop => false
  | _ => true

/-- Nothing is sent, and the listeners of the destination are ones that can work. -/
def prepares (n : Str) : Action → Bool
  | .send _ _ _ => false
  | .addListener addr opts => destName addr != n || opts.concurrency.all (· ≤ maxPermits)
  | _ => true

/-- The count of the message that is sent can grow by so much. -/
def fits (room : Nat) : Action → Bool
  | .send _ msg _ => msg.deliveryCount.toNat + room < 2 ^ 32
  | _ => true

end Action

/-- The destination and the options of a listener that is added. -/
def Action.adds : Action → Option (Str × ListenerOptions)
  | .addListener addr opts => if opts.bufferSize = 0 ∨ opts.bufferSize > maxPermits then none else some (destName addr, opts)
  | _ => none

/-- The listeners that a run adds. -/
def topology (as : List Action) : List (Str × ListenerOptions) := as.filterMap Action.adds

/-- The largest number of attempts of a destination's listeners. -/
def attempts (top : List (Str × ListenerOptions)) (n : Str) : Nat :=
  ((top.filter (fun e => e.1 = n)).map (fun e => e.2.maxDeliveryAttempts.toNat)).foldr max 0

/-- How often a destination may deliver a message. -/
def allowance (top : List (Str × ListenerOptions)) (n : Str) : Nat := max 1 (attempts top n)

/-- The destinations. -/
def destinations (top : List (Str × ListenerOptions)) : Finset Str := (top.map Prod.fst).toFinset

/-- How often all destinations together may deliver a message. -/
def budget (top : List (Str × ListenerOptions)) : Nat := ∑ n ∈ destinations top, allowance top n

/-- A listener of one destination sends messages on to another. -/
def DeadLetters (top : List (Str × ListenerOptions)) (n m : Str) : Prop :=
  ∃ e ∈ top, e.1 = n ∧ ∃ dlq, e.2.deadLetter = some dlq ∧ destName dlq = m

end Ferroly.Messaging
