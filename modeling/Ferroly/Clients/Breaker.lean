import Mathlib.Algebra.Group.Nat.Defs
import Mathlib.Data.List.Count

/-!
# Circuit breaker

A breaker of three states, and callers that ask it before a call and report the call afterwards. Times are in nanoseconds. The
counters are natural numbers, without the wrap-around of a `u32`: they are raised only while below a threshold, which fits one.
-/

namespace Ferroly.Clients

inductive CircuitState where
  /-- Requests flow normally; failures are counted. -/
  | closed
  /-- Requests are rejected until the cooldown timeout elapses. -/
  | opened
  /-- A limited number of trial requests probe whether the dependency recovered. -/
  | halfOpen
  deriving DecidableEq, Repr

structure CircuitBreakerConfig where
  /-- Consecutive failures while closed that trip the breaker. -/
  failureThreshold : Nat
  /-- Successful trials while half-open that close the breaker. -/
  successThreshold : Nat
  /-- Maximum concurrent trial requests permitted while half-open. -/
  maxHalfOpen : Nat
  /-- How long the breaker stays open before allowing trials. -/
  timeout : Nat
  deriving DecidableEq, Repr

def CircuitBreakerConfig.default : CircuitBreakerConfig := ⟨5, 2, 1, 30000000000⟩

/-- The operation was rejected because the circuit is open. -/
structure CircuitOpenError where
  deriving DecidableEq, Repr

/-- The state of a breaker, behind its lock. -/
structure CircuitBreaker where
  circuit : CircuitState
  failures : Nat
  successes : Nat
  halfOpenInFlight : Nat
  openedAt : Option Nat
  deriving DecidableEq, Repr

namespace CircuitBreaker

/-- A breaker in the closed state. -/
def new : CircuitBreaker := ⟨.closed, 0, 0, 0, none⟩

/-- Whether an operation may proceed. The breaker becomes half-open once the cooldown has elapsed; a trial is counted. -/
def canExecute (cfg : CircuitBreakerConfig) (now : Nat) (s : CircuitBreaker) : Except CircuitOpenError Unit × CircuitBreaker :=
  match s.circuit with
  | .closed => (.ok (), s)
  | .opened =>
    let elapsed := (s.openedAt.map (now - ·)).getD 0
    if elapsed ≥ cfg.timeout then (.ok (), { s with circuit := .halfOpen, successes := 0, halfOpenInFlight := 1 })
    else (.error ⟨⟩, s)
  | .halfOpen =>
    if s.halfOpenInFlight < cfg.maxHalfOpen then (.ok (), { s with halfOpenInFlight := s.halfOpenInFlight + 1 })
    else (.error ⟨⟩, s)

def trip (now : Nat) (_ : CircuitBreaker) : CircuitBreaker := ⟨.opened, 0, 0, 0, some now⟩

/-- The outcome of an operation that was admitted. -/
def onExecution (cfg : CircuitBreakerConfig) (now : Nat) (success : Bool) (s : CircuitBreaker) : CircuitBreaker :=
  match s.circuit with
  | .closed =>
    if success then { s with failures := 0 }
    else if s.failures + 1 ≥ cfg.failureThreshold then trip now { s with failures := s.failures + 1 }
    else { s with failures := s.failures + 1 }
  | .halfOpen =>
    let s := { s with halfOpenInFlight := s.halfOpenInFlight - 1 }
    if success then
      if s.successes + 1 ≥ cfg.successThreshold then { s with circuit := .closed, failures := 0, successes := 0, openedAt := none }
      else { s with successes := s.successes + 1 }
    else trip now s
  | .opened =>
    -- A stray report; if it failed, the cooldown starts again.
    if success then s else { s with openedAt := some now }

end CircuitBreaker

/-! ## Calls -/

/-- A call of the breaker, at a time. -/
inductive BreakerCall where
  | canExecute (now : Nat)
  | onExecution (success : Bool) (now : Nat)

namespace CircuitBreaker

/-- The breaker after a call. -/
def call (cfg : CircuitBreakerConfig) (s : CircuitBreaker) : BreakerCall → CircuitBreaker
  | .canExecute now => (s.canExecute cfg now).2
  | .onExecution success now => s.onExecution cfg now success

/-- A breaker after some calls, of which a report need not follow a call that was admitted. -/
def after (cfg : CircuitBreakerConfig) (calls : List BreakerCall) : CircuitBreaker := calls.foldl (call cfg) .new

/-- The counters that a call raises stay within a `u32`. -/
def fits (cfg : CircuitBreakerConfig) (s : CircuitBreaker) : BreakerCall → Bool
  | .canExecute _ => s.circuit != .halfOpen || cfg.maxHalfOpen ≤ s.halfOpenInFlight || s.halfOpenInFlight + 1 < 2 ^ 32
  | .onExecution success _ =>
    match s.circuit, success with
    | .closed, false => s.failures + 1 < 2 ^ 32
    | .halfOpen, true => s.successes + 1 < 2 ^ 32
    | _, _ => true

end CircuitBreaker

/-! ## Callers -/

/-- A breaker and those who use it. Each time the breaker becomes half-open an episode begins. -/
structure Callers where
  breaker : CircuitBreaker
  /-- How many episodes there were. -/
  episode : Nat
  /-- The calls that were admitted and not yet reported, with the episode of which they are trials. -/
  calls : List (Option Nat)
  /-- The calls that were reported, and how. -/
  reports : List (Option Nat × Bool)

/-- A caller asks whether it may call, or reports the call that is at a place of the list. -/
inductive CallerStep where
  | ask (now : Nat)
  | report (i : Nat) (success : Bool) (now : Nat)

namespace Callers

def new : Callers := ⟨.new, 0, [], []⟩

/-- The calls after a caller was admitted. -/
def admitted (w : Callers) (b : CircuitBreaker) : Callers :=
  let episode := if w.breaker.circuit = .opened then w.episode + 1 else w.episode
  { w with breaker := b, episode := episode, calls := w.calls ++ [if b.circuit = .halfOpen then some episode else none] }

def step (cfg : CircuitBreakerConfig) (w : Callers) : CallerStep → Callers
  | .ask now =>
    match w.breaker.canExecute cfg now with
    | (.ok (), b) => w.admitted b
    | (.error _, b) => { w with breaker := b }
  | .report i success now =>
    match w.calls[i]? with
    | some e =>
      { w with
        breaker := w.breaker.onExecution cfg now success
        calls := w.calls.eraseIdx i
        reports := w.reports ++ [(e, success)] }
    | none => w

/-- Some steps, in order. -/
def run (cfg : CircuitBreakerConfig) (w : Callers) (steps : List CallerStep) : Callers := steps.foldl (step cfg) w

/-- The trials of an episode that are not yet reported. -/
def trials (w : Callers) (episode : Nat) : Nat := w.calls.count (some episode)

/-- The trials of an episode that were reported as successful. -/
def wins (w : Callers) (episode : Nat) : Nat := w.reports.count (some episode, true)

/-- While the breaker is half-open, no success is reported but that of a trial of this episode. -/
def timely (w : Callers) : CallerStep → Bool
  | .report i true _ => w.breaker.circuit != .halfOpen || (w.calls[i]?).all (· == some w.episode)
  | _ => true

/-- All steps of a run are timely. -/
def allTimely (cfg : CircuitBreakerConfig) : Callers → List CallerStep → Bool
  | _, [] => true
  | w, a :: steps => w.timely a && allTimely cfg (w.step cfg a) steps

end Callers

end Ferroly.Clients
