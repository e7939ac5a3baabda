import Ferroly.Lib.Async
import Ferroly.Lib.Graph
import Ferroly.Lib.Hash
import Mathlib.Data.Char
import Mathlib.Data.List.Lex
import Mathlib.Data.List.Sort

/-!
# The component manager

Registration, dependency ordering, and the programs of its asynchronous calls. The components are the environment's: their `start` and
`stop` are operations that a call invokes and waits for. What is done under the manager's lock is one step. The notification of tasks
that wait for a shutdown is left out.
-/

namespace Ferroly.Lifecycle

/-- The id of a component. -/
abbrev Id := Str

inductive ComponentState where
  | unknown
  | error
  | stopped
  | stopping
  | running
  | starting
  deriving DecidableEq, Repr

inductive LifecycleError where
  | componentNotFound (id : Id)
  | componentAlreadyStarted (id : Id)
  | cyclicDependency (ids : Str)
  | timeout (id : Id)
  | componentFailure (id : Id) (source : Str)
  deriving DecidableEq, Repr

/-- For each id the ids it depends on. -/
abbrev Deps := HashMap Id (HashSet Id)

/-- What the manager keeps under its lock. Of the components only the ids are kept. -/
structure Inner where
  components : HashSet Id
  deps : Deps
  watchers : HashMap Id ComponentState

namespace Inner

def new : Inner := ⟨HashSet.empty, ∅, ∅⟩

/-- Register a component. -/
def register (id : Id) (s : Inner) : Inner :=
  ⟨s.components.insert id, s.deps.entry id HashSet.empty (fun set => set), s.watchers.insert id .unknown⟩

/-- Remove a component and any dependency edges that mention it. -/
def unregister (id : Id) (s : Inner) : Inner :=
  ⟨s.components.remove id, HashMap.mapValues (s.deps.erase id) (fun set => set.remove id), s.watchers.erase id⟩

/-- The state of a component, if it is registered. -/
def getState (id : Id) (s : Inner) : Option ComponentState := s.watchers.lookup id

end Inner

/-! ## Ordering -/

/-- The degrees and the reverse edges of a dependency map. -/
structure Degrees where
  inDegree : HashMap Id Nat
  dependents : HashMap Id (List Id)

/-- Count the edge from an id to one it depends on. -/
def Degrees.edge (id : Id) (g : Degrees) (d : Id) : Degrees :=
  ⟨(g.inDegree.entry id 0 (· + 1)).entry d 0 (·), g.dependents.entry d [] (· ++ [id])⟩

/-- Count an id and its edges. -/
def Degrees.node (g : Degrees) (id : Id) (ds : HashSet Id) : Degrees :=
  ds.items.foldl (Degrees.edge id) { g with inDegree := g.inDegree.entry id 0 (·) }

def degrees (deps : Deps) : Degrees := deps.foldl Degrees.node ⟨∅, ∅⟩

/-- Take one dependency off the dependents of a node that is done; those without any left are ready. -/
def settle : List Id → HashMap Id Nat → List Id → Except (Fault LifecycleError) (HashMap Id Nat × List Id)
  | [], inDegree, ready => .ok (inDegree, ready)
  | m :: ms, inDegree, ready =>
    match inDegree.lookup m with
    | none => .error .panic
    | some 0 => .error .panic
    | some (e + 1) => settle ms (inDegree.insert m e) (if e = 0 then ready ++ [m] else ready)

/-- The loop of Kahn's algorithm. -/
def kahn (dependents : HashMap Id (List Id)) :
    Nat → HashMap Id Nat → List Id → List Id → Except (Fault LifecycleError) (HashMap Id Nat × List Id)
  | _, inDegree, [], order => .ok (inDegree, order)
  | 0, _, _ :: _, _ => .error .diverge
  | fuel + 1, inDegree, n :: queue, order =>
    match dependents.lookup n with
    | none => kahn dependents fuel inDegree queue (order ++ [n])
    | some depsOf =>
      match settle depsOf inDegree [] with
      | .error e => .error e
      | .ok (inDegree, ready) => kahn dependents fuel inDegree (queue ++ ready.insertionSort (· ≤ ·)) (order ++ [n])

/-- A dependencies-first ordering, or a cycle error. Text is ordered by its bytes, which is the order by characters. -/
def topoOrder (deps : Deps) : Except (Fault LifecycleError) (List Id) :=
  let g := degrees deps
  let seed := (g.inDegree.entries.filter (fun e => e.2 = 0)).map (fun e => e.1)
  match kahn g.dependents g.inDegree.entries.length g.inDegree (seed.insertionSort (· ≤ ·)) [] with
  | .error e => .error e
  | .ok (inDegree, order) =>
    if order.length ≠ inDegree.entries.length then
      let unresolved := (inDegree.entries.filter (fun e => e.2 > 0)).map (fun e => e.1)
      .error (.error (.cyclicDependency (List.intercalate ", ".toList unresolved)))
    else .ok order

/-- The same with the counted ids iterated in another order: `iter` lists the entries of a map as its iterator does. -/
def topoOrderBy (iter : HashMap Id Nat → List (Sigma fun _ : Id => Nat)) (deps : Deps) : Except (Fault LifecycleError) (List Id) :=
  let g := degrees deps
  let seed := ((iter g.inDegree).filter (fun e => e.2 = 0)).map (fun e => e.1)
  match kahn g.dependents g.inDegree.entries.length g.inDegree (seed.insertionSort (· ≤ ·)) [] with
  | .error e => .error e
  | .ok (inDegree, order) =>
    if order.length ≠ inDegree.entries.length then
      let unresolved := ((iter inDegree).filter (fun e => e.2 > 0)).map (fun e => e.1)
      .error (.error (.cyclicDependency (List.intercalate ", ".toList unresolved)))
    else .ok order

/-- What an id depends on directly. -/
def dependenciesOf (deps : Deps) (n : Id) : List Id := ((deps.lookup n).map HashSet.items).getD []

/-- What depends on an id directly. -/
def dependentsOf (deps : Deps) (n : Id) : List Id := (deps.entries.filter (fun e => n ∈ e.2)).map (fun e => e.1)

/-- All transitive dependencies of an id, and the id itself. -/
def dependencyClosure (deps : Deps) (id : Id) : List Id :=
  Graph.reach (dependenciesOf deps) (Graph.turns (dependenciesOf deps) deps.keys [id] []) [id] []

/-- An id and all that transitively depends on it. -/
def dependentClosure (deps : Deps) (id : Id) : List Id :=
  let mentioned := deps.entries.flatMap (fun e => e.2.items)
  Graph.reach (dependentsOf deps) (Graph.turns (dependentsOf deps) mentioned [id] []) [id] []

namespace Inner

/-- Declare that one id depends on another. -/
def addDependency (id dependsOn : Id) (s : Inner) : Except (Fault LifecycleError) Unit × Inner :=
  if id ∉ s.components then (.error (.error (.componentNotFound id)), s)
  else if dependsOn ∉ s.components then (.error (.error (.componentNotFound dependsOn)), s)
  else
    let deps := s.deps.entry id HashSet.empty (fun set => set.insert dependsOn)
    match topoOrder deps with
    | .ok _ => (.ok (), { s with deps := deps })
    | .error .diverge => (.error .diverge, { s with deps := deps })
    | .error .panic => (.error .panic, { s with deps := deps })
    | .error (.error _) =>
      match deps.lookup id with
      | none => (.error .panic, { s with deps := deps })
      | some set =>
        (.error (.error (.cyclicDependency (id ++ " -> ".toList ++ dependsOn))),
          { s with deps := deps.insert id (set.remove dependsOn) })

/-- The dependency-first order needed to start an id and its closure. -/
def startOrderFor (id : Id) (s : Inner) : Except (Fault LifecycleError) (List Id) :=
  (topoOrder s.deps).map (fun full => full.filter (fun n => n ∈ dependencyClosure s.deps id))

/-- The dependency-first order of an id and everything that depends on it. -/
def stopOrderFor (id : Id) (s : Inner) : Except (Fault LifecycleError) (List Id) :=
  (topoOrder s.deps).map (fun full => full.filter (fun n => n ∈ dependentClosure s.deps id))

end Inner

/-! ## Calls -/

/-- The operations of a component. -/
inductive Op where
  | start (id : Id)
  | stop (id : Id)
  deriving DecidableEq, Repr

/-- What an operation of a component returns. -/
abbrev Outcome := Except LifecycleError Unit

/-- The program of a call. -/
abbrev Call := Async Inner Op Outcome LifecycleError Unit

/-- Whether a start can be claimed: the component is not started or being started. -/
def claimable (id : Id) (s : Inner) : Bool :=
  match s.watchers.lookup id with
  | some .running => false
  | some .starting => false
  | some _ => true
  | none => false

/-- Claim a start. -/
def claim (id : Id) (s : Inner) : Inner :=
  if id ∈ s.components ∧ claimable id s then { s with watchers := s.watchers.insert id .starting } else s

/-- Set the state of a component, if it is registered. -/
def Inner.transition (id : Id) (new : ComponentState) (s : Inner) : Inner :=
  match s.watchers.lookup id with
  | some _ => { s with watchers := s.watchers.insert id new }
  | none => s

def transition (id : Id) (new : ComponentState) : Call := Async.modify (Inner.transition id new)

def startOne (id : Id) : Call :=
  .sync (claim id) (fun s =>
    if id ∉ s.components then Async.fail (.componentNotFound id)
    else if claimable id s then do
      match ← Async.perform (.start id) with
      | .ok () => transition id .running
      | .error e =>
        transition id .error
        Async.fail e
    else pure ())

def stopOne (id : Id) : Call := do
  let s ← Async.get
  if id ∉ s.components then Async.fail (.componentNotFound id)
  else
    let state := (s.watchers.lookup id).getD .unknown
    if state = .stopped ∨ state = .unknown then pure ()
    else
      transition id .stopping
      match ← Async.perform (.stop id) with
      | .ok () => transition id .stopped
      | .error e =>
        transition id .error
        Async.fail e

/-- Start a component after its transitive dependencies. -/
def start (id : Id) : Call := do
  let s ← Async.get
  match s.getState id with
  | none => Async.fail (.componentNotFound id)
  | some .running => Async.fail (.componentAlreadyStarted id)
  | some _ =>
    let s ← Async.get
    let order ← Async.lift (s.startOrderFor id)
    Async.forEach startOne order

/-- Start all components in dependency order. -/
def startAll : Call := do
  let s ← Async.get
  let order ← Async.lift (topoOrder s.deps)
  Async.forEach startOne order

/-- Start all components with an overall timeout. -/
def startAllWithTimeout : Call := startAll.withTimeout (.timeout "<all>".toList)

/-- Stop a component after its dependents. -/
def stop (id : Id) : Call := do
  let s ← Async.get
  match s.getState id with
  | none => Async.fail (.componentNotFound id)
  | some _ =>
    let s ← Async.get
    let order ← Async.lift (s.stopOrderFor id)
    Async.forEach stopOne order.reverse

/-- Stop all components in reverse dependency order. -/
def stopAll : Call := do
  let s ← Async.get
  let order ← Async.lift (topoOrder s.deps)
  Async.forEach stopOne order.reverse

/-- Stop one component after another, each within a deadline, and go on after an error; return the first one. -/
def stopEach : List Id → Option LifecycleError → Call
  | [], none => pure ()
  | [], some e => Async.fail e
  | id :: ids, firstErr => do
    match ← ((stopOne id).withTimeout (.timeout id)).attempt with
    | .ok () => stopEach ids firstErr
    | .error e =>
      transition id .error
      stopEach ids (firstErr.or (some e))

/-- Stop all components in reverse dependency order, each within a deadline. -/
def stopAllWithTimeout : Call := do
  let s ← Async.get
  let order ← Async.lift (topoOrder s.deps)
  stopEach order.reverse none

end Ferroly.Lifecycle
