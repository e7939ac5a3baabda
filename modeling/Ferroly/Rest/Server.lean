import Ferroly.Lifecycle.Manager

/-!
# The REST server as a component

A server is built with its handler and started and stopped as a component, by its owner or by a manager that keeps a state for it. What
a port bind comes to is the environment's. The handler is an `Arc` the serving task takes over; the options and the routes it is made
of have no part here.
-/

namespace Ferroly.Rest

open Lifecycle

variable {η : Type}

/-- What a bind comes to: an address, an error, or a listener that has no address to tell. -/
inductive Bind where
  | bound (addr : Str)
  | refused (e : Str)
  | unnamed (e : Str)
  deriving DecidableEq, Repr

/-- The task that serves a listener. -/
structure Running (η : Type) where
  addr : Str
  handler : η
  deriving DecidableEq

structure Server (η : Type) where
  id : Id
  handler : Option η
  localAddr : Option Str
  running : Option (Running η)
  state : ComponentState
  deriving DecidableEq

namespace Server

def build (id : Id) (handler : η) : Server η := ⟨id, some handler, none, none, .unknown⟩

/-- Take the handler, bind and serve. -/
def start (b : Bind) (s : Server η) : Except LifecycleError Unit × Server η :=
  match s.handler with
  | none => (.error (.componentAlreadyStarted s.id), s)
  | some handler =>
    let s := { s with handler := none }
    match b with
    | .refused e => (.error (.componentFailure s.id e), s)
    | .unnamed e => (.error (.componentFailure s.id e), s)
    | .bound addr => (.ok (), { s with localAddr := some addr, running := some ⟨addr, handler⟩, state := .running })

/-- Shut the serving task down, if there is one, and wait for it. -/
def stop (s : Server η) : Except LifecycleError Unit × Server η := (.ok (), { s with running := none, state := .stopped })

end Server

/-! ## Calls -/

/-- A call to the component. -/
inductive Call where
  | start (b : Bind)
  | stop
  deriving DecidableEq, Repr

def Call.run : Call → Server η → Except LifecycleError Unit × Server η
  | .start b, s => s.start b
  | .stop, s => s.stop

/-- A server after some calls, one after the other. -/
def after (calls : List Call) (s : Server η) : Server η := calls.foldl (fun s c => (c.run s).2) s

def Call.isStart : Call → Bool
  | .start _ => true
  | .stop => false

/-- Whether a server serves after some calls: the first start was bound and no stop has followed. -/
def servesAfter (calls : List Call) : Bool :=
  match calls.dropWhile (fun c => !c.isStart) with
  | .start (.bound _) :: more => more.all Call.isStart
  | _ => false

/-! ## A manager's calls -/

/-- What a manager asks for. -/
inductive Ask where
  | startOne (b : Bind)
  | stopOne
  deriving DecidableEq, Repr

/-- The calls a manager makes of an ask, by the state it has for the component. -/
def Ask.calls (state : ComponentState) : Ask → List Call
  | .startOne b => if state = .running ∨ state = .starting then [] else [.start b]
  | .stopOne => if state = .stopped ∨ state = .unknown then [] else [.stop]

/-- Start or stop the component unless its state says it is; the state goes by what comes of it. -/
def Ask.run : Ask → ComponentState × Server η → Except LifecycleError Unit × ComponentState × Server η
  | .startOne b, (state, s) =>
    if state = .running ∨ state = .starting then (.ok (), state, s)
    else
      match s.start b with
      | (.ok (), s) => (.ok (), .running, s)
      | (.error e, s) => (.error e, .error, s)
  | .stopOne, (state, s) =>
    if state = .stopped ∨ state = .unknown then (.ok (), state, s)
    else
      match s.stop with
      | (.ok (), s) => (.ok (), .stopped, s)
      | (.error e, s) => (.error e, .error, s)

/-- A manager and its component after some asks. -/
def managed (asks : List Ask) (m : ComponentState × Server η) : ComponentState × Server η := asks.foldl (fun m a => (a.run m).2) m

end Ferroly.Rest
