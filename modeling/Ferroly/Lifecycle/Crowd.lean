import Ferroly.Lifecycle.Spec

/-!
# Calls beside each other

Any number of starts and stops on one manager, interleaved in any way. What a call is doing is given by its phase; the program of a
phase is what is left of the call, and a step of the phase is one of that program.
-/

namespace Ferroly.Lifecycle

/-- The calls that are made beside each other. -/
inductive Ask where
  | start (id : Id)
  | startAll
  | stop (id : Id)
  | stopAll
  | stopAllWithTimeout
  deriving DecidableEq

def Ask.prog : Ask → Call
  | .start id => Lifecycle.start id
  | .startAll => Lifecycle.startAll
  | .stop id => Lifecycle.stop id
  | .stopAll => Lifecycle.stopAll
  | .stopAllWithTimeout => Lifecycle.stopAllWithTimeout

/-- Whether a call is a start. -/
def Ask.isStart : Ask → Bool
  | .start _ => true
  | .startAll => true
  | _ => false

/-- What a call is doing. A stop has a first error so far if it is a sweep, which goes on after errors. -/
inductive Phase where
  | begun (a : Ask)
  | lookedStart (id : Id)
  | lookedStop (id : Id)
  /-- The components still to start. -/
  | starts (rest : List Id)
  | claimed (id : Id) (rest : List Id)
  | startWait (id : Id) (rest : List Id)
  | startEnded (id : Id) (r : Outcome) (rest : List Id)
  /-- The components still to stop. -/
  | stops (sweep : Option (Option LifecycleError)) (rest : List Id)
  | mayStop (sweep : Option (Option LifecycleError)) (id : Id) (rest : List Id)
  | willStop (sweep : Option (Option LifecycleError)) (id : Id) (rest : List Id)
  | stopWait (sweep : Option (Option LifecycleError)) (id : Id) (rest : List Id)
  | stopEnded (sweep : Option (Option LifecycleError)) (id : Id) (r : Outcome) (rest : List Id)
  /-- A sweep is about to leave a component in error. -/
  | sweepError (first : Option LifecycleError) (id : Id) (rest : List Id)
  | done (r : Except (Fault LifecycleError) Unit)
  deriving DecidableEq

namespace Phase

/-! ## Programs -/

/-- What a start does with what the component returns. -/
def startRest (id : Id) : Outcome → Call
  | .ok () => transition id .running
  | .error e => do
    transition id .error
    Async.fail e

/-- What a stop does with what the component returns. -/
def stopRest (id : Id) : Outcome → Call
  | .ok () => transition id .stopped
  | .error e => do
    transition id .error
    Async.fail e

/-- What a sweep does after one component. -/
def sweepRest (first : Option LifecycleError) (id : Id) (rest : List Id) : Except LifecycleError Unit → Call
  | .ok () => stopEach rest first
  | .error e => do
    transition id .error
    stopEach rest (first.or (some e))

/-- A part of the stop of one component, and the components after it. -/
def stopPart (sweep : Option (Option LifecycleError)) (id : Id) (rest : List Id) (p : Call) : Call :=
  match sweep with
  | none => p >>= fun _ => Async.forEach stopOne rest
  | some first => (p.withTimeout (.timeout id)).attempt >>= sweepRest first id rest

/-- What is left of a call. -/
def prog : Phase → Call
  | .begun a => a.prog
  | .lookedStart id => do
    let s ← Async.get
    let order ← Async.lift (s.startOrderFor id)
    Async.forEach startOne order
  | .lookedStop id => do
    let s ← Async.get
    let order ← Async.lift (s.stopOrderFor id)
    Async.forEach stopOne order.reverse
  | .starts rest => Async.forEach startOne rest
  | .claimed id rest => (Async.perform (.start id) >>= startRest id) >>= fun _ => Async.forEach startOne rest
  | .startWait id rest => (Async.waitFor (.start id) >>= startRest id) >>= fun _ => Async.forEach startOne rest
  | .startEnded id r rest => startRest id r >>= fun _ => Async.forEach startOne rest
  | .stops none rest => Async.forEach stopOne rest
  | .stops (some first) rest => stopEach rest first
  | .mayStop sweep id rest => stopPart sweep id rest (transition id .stopping >>= fun _ => Async.perform (.stop id) >>= stopRest id)
  | .willStop sweep id rest => stopPart sweep id rest (Async.perform (.stop id) >>= stopRest id)
  | .stopWait sweep id rest => stopPart sweep id rest (Async.waitFor (.stop id) >>= stopRest id)
  | .stopEnded sweep id r rest => stopPart sweep id rest (stopRest id r)
  | .sweepError first id rest => transition id .error >>= fun _ => stopEach rest first
  | .done r => .ret r

/-! ## Steps -/

/-- After a look at the components, the loop over an order. -/
def ofOrder (next : List Id → Phase) : Except (Fault LifecycleError) (List Id) → Phase
  | .ok order => next order
  | .error e => .done (.error e)

/-- A stop ends with an error. -/
def stopFailed (sweep : Option (Option LifecycleError)) (id : Id) (rest : List Id) (e : LifecycleError) : Phase :=
  match sweep with
  | none => .done (.error (.error e))
  | some first => .sweepError (first.or (some e)) id rest

/-- One step of a call. The answer is how a wait ends. -/
def step (ph : Phase) (answer : Option Outcome) (w : State) : Option (Phase × State) :=
  match ph with
  | .begun (.start id) =>
    match w.shared.getState id with
    | none => some (.done (.error (.error (.componentNotFound id))), w)
    | some .running => some (.done (.error (.error (.componentAlreadyStarted id))), w)
    | some _ => some (.lookedStart id, w)
  | .begun (.stop id) =>
    match w.shared.getState id with
    | none => some (.done (.error (.error (.componentNotFound id))), w)
    | some _ => some (.lookedStop id, w)
  | .begun .startAll => some (ofOrder .starts (topoOrder w.shared.deps), w)
  | .begun .stopAll => some (ofOrder (fun order => .stops none order.reverse) (topoOrder w.shared.deps), w)
  | .begun .stopAllWithTimeout => some (ofOrder (fun order => .stops (some none) order.reverse) (topoOrder w.shared.deps), w)
  | .lookedStart id => some (ofOrder .starts (w.shared.startOrderFor id), w)
  | .lookedStop id => some (ofOrder (fun order => .stops none order.reverse) (w.shared.stopOrderFor id), w)
  | .starts [] => none
  | .starts (id :: rest) =>
    if id ∉ w.shared.components then some (.done (.error (.error (.componentNotFound id))), w)
    else if claimable id w.shared then some (.claimed id rest, ⟨w.shared.setState id .starting, w.trace⟩)
    else some (.starts rest, w)
  | .claimed id rest => some (.startWait id rest, ⟨w.shared, w.trace ++ [.invoked (.start id)]⟩)
  | .startWait id rest => answer.map (fun r => (.startEnded id r rest, ⟨w.shared, w.trace ++ [.finished (.start id) r]⟩))
  | .startEnded id (.ok ()) rest => some (.starts rest, ⟨w.shared.transition id .running, w.trace⟩)
  | .startEnded id (.error e) _ => some (.done (.error (.error e)), ⟨w.shared.transition id .error, w.trace⟩)
  | .stops _ [] => none
  | .stops sweep (id :: rest) =>
    if id ∉ w.shared.components then some (stopFailed sweep id rest (.componentNotFound id), w)
    else if needsStop id w.shared then some (.mayStop sweep id rest, w)
    else some (.stops sweep rest, w)
  | .mayStop sweep id rest => some (.willStop sweep id rest, ⟨w.shared.transition id .stopping, w.trace⟩)
  | .willStop sweep id rest => some (.stopWait sweep id rest, ⟨w.shared, w.trace ++ [.invoked (.stop id)]⟩)
  | .stopWait sweep id rest =>
    match answer with
    | some r => some (.stopEnded sweep id r rest, ⟨w.shared, w.trace ++ [.finished (.stop id) r]⟩)
    | none =>
      match sweep with
      | none => none
      | some first =>
        some (.sweepError (first.or (some (.timeout id))) id rest, ⟨w.shared, w.trace ++ [.dropped (.stop id)]⟩)
  | .stopEnded sweep id (.ok ()) rest => some (.stops sweep rest, ⟨w.shared.transition id .stopped, w.trace⟩)
  | .stopEnded sweep id (.error e) rest => some (stopFailed sweep id rest e, ⟨w.shared.transition id .error, w.trace⟩)
  | .sweepError first id rest => some (.stops (some first) rest, ⟨w.shared.transition id .error, w.trace⟩)
  | .done _ => none

/-- The component a call holds: from the moment it claims it or finds it to be stopped until it has set the state it ends in. -/
def holds : Phase → Option Id
  | .claimed id _ => some id
  | .startWait id _ => some id
  | .startEnded id _ _ => some id
  | .mayStop _ id _ => some id
  | .willStop _ id _ => some id
  | .stopWait _ id _ => some id
  | .stopEnded _ id _ _ => some id
  | .sweepError _ id _ => some id
  | _ => none

/-- The component a call takes hold of with its next step. -/
def engages (s : Inner) : Phase → Option Id
  | .starts (id :: _) => if claimable id s then some id else none
  | .stops _ (id :: _) => if needsStop id s then some id else none
  | _ => none

/-- The call goes through components to start. -/
def isStarts : Phase → Bool
  | .starts _ => true
  | _ => false

/-- The call is a start. -/
def isStart : Phase → Bool
  | .begun a => a.isStart
  | .lookedStart _ => true
  | .starts _ => true
  | .claimed _ _ => true
  | .startWait _ _ => true
  | .startEnded _ _ _ => true
  | .done _ => true
  | _ => false

/-- The components a call has in hand or still to look at. -/
def targets : Phase → List Id
  | .starts rest => rest
  | .claimed id rest => id :: rest
  | .startWait id rest => id :: rest
  | .startEnded id _ rest => id :: rest
  | .stops _ rest => rest
  | .mayStop _ id rest => id :: rest
  | .willStop _ id rest => id :: rest
  | .stopWait _ id rest => id :: rest
  | .stopEnded _ id _ rest => id :: rest
  | .sweepError _ id rest => id :: rest
  | _ => []

end Phase

/-! ## Runs -/

/-- A manager, what has happened to its components, and the calls. -/
structure Crowd where
  world : State
  phases : List Phase

/-- What may happen: a call is made, or one of them makes a step. -/
inductive Turn where
  | ask (a : Ask)
  | step (i : Nat) (answer : Option Outcome)

def Turn.move : Turn → Move Inner Op Outcome LifecycleError Unit
  | .ask a => .spawn a.prog
  | .step i answer => .step i answer

namespace Crowd

/-- One turn. A step that cannot be made changes nothing. -/
def turn (c : Crowd) : Turn → Crowd
  | .ask a => { c with phases := c.phases ++ [.begun a] }
  | .step i answer =>
    match c.phases[i]? with
    | none => c
    | some ph =>
      match ph.step answer c.world with
      | none => c
      | some (ph', w') => ⟨w', c.phases.set i ph'⟩

def turns (c : Crowd) (ts : List Turn) : Crowd := ts.foldl turn c

/-- The tasks that the calls are. -/
def tasks (c : Crowd) : Tasks Inner Op Outcome LifecycleError Unit := ⟨c.world, c.phases.map Phase.prog⟩

/-- A manager after some operations, with no call made yet. -/
def start (es : List Edit) : Crowd := ⟨⟨Inner.edits es, []⟩, []⟩

end Crowd

/-! ## What has happened to a component -/

/-- The operations of a component that have been invoked and have not ended, the last thing that happened to it, and the number of
stops invoked since the last start. -/
structure Record where
  inProgress : List Op
  last : Option (Event Op Outcome)
  stops : Nat
  deriving DecidableEq

def Record.new : Record := ⟨[], none, 0⟩

def Record.add (r : Record) (e : Event Op Outcome) : Record :=
  match e with
  | .invoked (.start id) => ⟨r.inProgress ++ [.start id], some e, 0⟩
  | .invoked (.stop id) => ⟨r.inProgress ++ [.stop id], some e, r.stops + 1⟩
  | .finished op _ => ⟨r.inProgress.erase op, some e, r.stops⟩
  | .dropped op => ⟨r.inProgress.erase op, some e, r.stops⟩

def record (n : Id) (trace : List (Event Op Outcome)) : Record :=
  (trace.filter (fun e => e.op.id = n)).foldl Record.add Record.new

/-! ## Conditions on a run -/

/-- A call that takes hold of a component finds it held by no other, and a stop finds it in error only if its last operation was a
start. -/
def Crowd.careful (c : Crowd) : Turn → Bool
  | .ask _ => true
  | .step i _ =>
    match c.phases[i]? with
    | none => true
    | some ph =>
      match ph.engages c.world.shared with
      | none => true
      | some n =>
        c.phases.all (fun other => other.holds ≠ some n) && (ph.isStarts || c.world.shared.getState n ≠ some .error ||
            (record n c.world.trace).last.any (fun e => e.op = .start n))

/-- A start passes over a component that is starting only if none of the components it has still to look at depends on it. -/
def Crowd.waits (c : Crowd) : Turn → Bool
  | .ask _ => true
  | .step i _ =>
    match c.phases[i]? with
    | some (.starts (id :: rest)) =>
      c.world.shared.getState id ≠ some .starting || rest.all (fun n => id ∉ dependencyClosure c.world.shared.deps n)
    | _ => true

/-- A condition holds at every turn of a run. -/
def Crowd.throughout (cond : Crowd → Turn → Bool) (c : Crowd) : List Turn → Bool
  | [] => true
  | t :: ts => cond c t && (c.turn t).throughout cond ts

end Ferroly.Lifecycle
