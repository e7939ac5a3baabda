import Ferroly.Clients.Breaker
import Ferroly.Clients.Retry
import Ferroly.Codec.Value
import Ferroly.Lib.Hash

/-!
# The model router

How the default router executes a route: it tries the primary model and then the fallbacks, each behind its circuit breaker and within
the deadline of the task. What the providers answer and when, how time passes and what other tasks do to the breakers is the
environment's; it may depend on all that has happened, which is recorded. Of requests, models and tasks only the fields are kept that
are read or changed here.
-/

namespace Ferroly.Genai

open Clients

inductive Capability where
  | text
  | chat
  | streaming
  | vision
  | audio
  | toolUse
  | jsonMode
  | embeddings
  | reasoning
  deriving DecidableEq, Repr

inductive GenAiError where
  | template (message : Str)
  | templateNotFound (id : Str)
  | unsupported (provider : Str) (capability : Capability)
  | transport (message : Str)
  | api (status : UInt16) (message : Str)
  | responseParse (message : Str)
  | config (message : Str)
  deriving DecidableEq, Repr

inductive RouterError where
  | noRoute (reason : Str)
  | allRoutesFailed (attempts : Nat) (last : GenAiError)
  | unknownProvider (name : Str)
  | deadlineExceeded
  | genAi (e : GenAiError)
  | config (message : Str)
  deriving DecidableEq, Repr

inductive ResponseFormat where
  | text
  | json
  | jsonSchema (schema : Value)

structure CompletionRequest where
  model : Str
  maxTokens : Option UInt32
  responseFormat : Option ResponseFormat

/-- What the registry knows of a model. -/
structure ModelInfo where
  maxOutputTokens : UInt32

structure RoutingTask where
  required : List Capability
  /-- Overall deadline across all attempts. -/
  deadline : Option Nat

/-- A provider and one of its models. -/
structure Candidate where
  provider : Str
  model : Str
  deriving DecidableEq, Repr

/-- The executable plan. -/
structure Route where
  primary : Candidate
  fallbacks : List Candidate

/-- The primary followed by the fallbacks, in attempt order. -/
def Route.attempts (route : Route) : List Candidate := route.primary :: route.fallbacks

/-- Caller options are clamped to the limits of the model, and a JSON response is asked for if the task needs it. -/
def clampOptions (request : CompletionRequest) (info : ModelInfo) (task : RoutingTask) : CompletionRequest :=
  let request :=
    match request.maxTokens with
    | some max =>
      if info.maxOutputTokens > 0 && max > info.maxOutputTokens then { request with maxTokens := some info.maxOutputTokens } else request
    | none => request
  if task.required.contains .jsonMode && request.responseFormat.isNone then { request with responseFormat := some .json } else request

/-- Whether an error should trigger fallover to a different model. -/
def isRetryable (err : GenAiError) (finishReason : Option Str) : Bool :=
  if finishReason = some "content_filter".toList ∨ finishReason = some "content-filter".toList then false
  else
    match err with
    | .transport _ => true
    | .api status _ => status == 429 || (500 ≤ status && status ≤ 599)
    | _ => false

/-! ## What happens -/

/-- What happens while a route is executed. -/
inductive Event (α : Type) where
  /-- The clock is read, to see how much time is left. -/
  | read (now : Nat)
  | refused (key : Str)
  | admitted (key : Str)
  | reported (key : Str) (success : Bool)
  | dispatched (c : Candidate)
  /-- One call of a provider. -/
  | called (provider : Str) (request : CompletionRequest)
  /-- What came of a candidate; nothing, if the deadline struck. -/
  | ended (outcome : Option (Except GenAiError α))

structure World (α : Type) where
  now : Nat
  breakers : HashMap Str CircuitBreaker
  log : List (Event α)

/-- How a provider answers: after how long, if ever, and with what. -/
structure Reply (α : Type) where
  took : Option Nat
  result : Except GenAiError α

structure Env (α : Type) where
  /-- The time that passes until the clock is read. -/
  delay : List (Event α) → Nat
  /-- What other tasks have done to the breakers until one is asked or told. -/
  others : List (Event α) → HashMap Str CircuitBreaker → HashMap Str CircuitBreaker
  reply : List (Event α) → Str → CompletionRequest → Reply α

/-- How a call ends without a value: the deadline strikes, or the provider returns an error. -/
inductive CallEnd where
  | late
  | failed (e : GenAiError)

section World

variable {α ε : Type} (env : Env α)

def tell (e : Event α) : Task (World α) ε Unit := Task.modify (fun w => { w with log := w.log ++ [e] })

/-- The clock is read. -/
def clock : Task (World α) ε Nat := fun w => (.ok (w.now + env.delay w.log), { w with now := w.now + env.delay w.log })

/-- Wait, until a time at most. -/
def wait (limit : Option Nat) (took : Option Nat) : Task (World α) CallEnd Unit := fun w =>
  match took, limit with
  | some d, none => (.ok (), { w with now := w.now + d })
  | none, none => (.error .diverge, w)
  | some d, some t => if w.now + d ≤ t then (.ok (), { w with now := w.now + d }) else (.error (.error .late), { w with now := t })
  | none, some t => (.error (.error .late), { w with now := t })

/-- One call of a provider, until a time at most: `complete`, or `complete_stream` until the stream is established. -/
def complete (limit : Option Nat) (provider : Str) (request : CompletionRequest) : Task (World α) CallEnd α := do
  tell (.called provider request)
  let w ← Task.get
  let reply := env.reply w.log provider request
  wait limit reply.took
  match reply.result with
  | .ok v => pure v
  | .error e => Task.fail (.failed e)

/-- A call that is bounded by the time that is left. Its outcome is recorded. -/
def outcome (remaining : Option Nat) (call : Option Nat → Task (World α) CallEnd α) :
    Task (World α) ε (Option (Except GenAiError α)) := do
  let w ← Task.get
  let result : Option (Except GenAiError α) :=
    match ← ((call (remaining.map (w.now + ·))).attempt : Task (World α) ε (Except CallEnd α)) with
    | .ok v => some (.ok v)
    | .error (.failed e) => some (.error e)
    | .error .late => none
  tell (.ended result)
  pure result

end World

/-! ## The router -/

structure DefaultRouter where
  /-- The names under which providers are registered. -/
  providers : List Str
  /-- The snapshot of the registry. -/
  registry : Str → Str → Option ModelInfo
  retry : Option RetryPolicy
  breakerCfg : Option CircuitBreakerConfig

namespace DefaultRouter

variable {α ε : Type} (r : DefaultRouter) (env : Env α) (task : RoutingTask) (request : CompletionRequest)

/-- The key of a candidate's breaker. -/
def breakerKey (c : Candidate) : Str := c.provider ++ "/".toList ++ c.model

/-- Ask the breaker of a candidate, which is made when it is first needed. -/
def canExecute (c : Candidate) : Task (World α) ε Bool :=
  match r.breakerCfg with
  | none => pure true
  | some cfg => fun w =>
    let now := w.now + env.delay w.log
    let breakers := env.others w.log w.breakers
    match ((breakers.lookup (breakerKey c)).getD .new).canExecute cfg now with
    | (.ok (), b) => (.ok true, ⟨now, breakers.insert (breakerKey c) b, w.log ++ [.admitted (breakerKey c)]⟩)
    | (.error _, b) => (.ok false, ⟨now, breakers.insert (breakerKey c) b, w.log ++ [.refused (breakerKey c)]⟩)

/-- Tell the breaker of a candidate how the call went. -/
def onExecution (c : Candidate) (success : Bool) : Task (World α) ε Unit :=
  match r.breakerCfg with
  | none => pure ()
  | some cfg => fun w =>
    let now := w.now + env.delay w.log
    let breakers := env.others w.log w.breakers
    let b := ((breakers.lookup (breakerKey c)).getD .new).onExecution cfg now success
    (.ok (), ⟨now, breakers.insert (breakerKey c) b, w.log ++ [.reported (breakerKey c) success]⟩)

/-- Remaining time before the deadline, or an error if already past it. -/
def remaining : Task (World α) RouterError (Option Nat) :=
  match task.deadline with
  | some dl => do
    let now ← clock env
    tell (.read now)
    if now ≥ dl then Task.fail .deadlineExceeded else pure (some (dl - now))
  | none => pure none

/-- Only provider errors are retried; a deadline that strikes ends the call wherever it waits. -/
def retryIf : CallEnd → Bool
  | .late => false
  | .failed e => isRetryable e none

def callWithRetry (limit : Option Nat) (provider : Str) (request : CompletionRequest) : Task (World α) CallEnd α :=
  match r.retry with
  | some policy => Clients.retry policy retryIf (fun d => wait limit (some d)) (complete env limit provider request)
  | none => complete env limit provider request

/-- The request for a candidate. -/
def prepare (c : Candidate) : CompletionRequest :=
  let req := { request with model := c.model }
  match r.registry c.provider c.model with
  | some info => clampOptions req info task
  | none => req

/-- The error when no candidate is left. -/
def giveUp (tried : Nat) : Option GenAiError → RouterError
  | some e => .allRoutesFailed tried e
  | none => .noRoute "no attemptable candidate (providers unregistered)".toList

section Failover

variable (call : Option Nat → Str → CompletionRequest → Task (World α) CallEnd α) (onLate : Candidate → Task (World α) RouterError Unit)

/-- The loop over the candidates, with the number of those that were tried and the last error. The two functions that have it differ in
how they call a provider, and in what they do when the deadline strikes. -/
def failover : List Candidate → Nat → Option GenAiError → Task (World α) RouterError α
  | [], tried, last => Task.fail (giveUp tried last)
  | c :: cs, tried, last => do
    let left ← remaining env task
    if c.provider ∉ r.providers then failover cs tried last
    else if !(← r.canExecute env c) then failover cs tried last
    else do
      tell (.dispatched c)
      match ← outcome left (fun limit => call limit c.provider (r.prepare task request c)) with
      | none => do
        onLate c
        Task.fail .deadlineExceeded
      | some result => do
        r.onExecution env c result.isOk
        match result with
        | .ok response => pure response
        | .error e => if isRetryable e none then failover cs (tried + 1) (some e) else Task.fail (.genAi e)

end Failover

/-- Execute a route: calls are retried, and a call that is cut off is reported to the breaker. -/
def execute (route : Route) : Task (World α) RouterError α :=
  r.failover env task request (r.callWithRetry env) (fun c => r.onExecution env c false) route.attempts 0 none

/-- Execute a route until a stream is established: calls are not retried, and a call that is cut off is not reported. -/
def executeStream (route : Route) : Task (World α) RouterError α :=
  r.failover env task request (complete env) (fun _ => pure ()) route.attempts 0 none

end DefaultRouter

end Ferroly.Genai
