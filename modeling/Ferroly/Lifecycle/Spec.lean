import Ferroly.Lifecycle.Manager

/-!
# What the component manager is for

The dependency relation of a manager, what holds of every manager that was built by its own operations, and the sequences of those
operations.
-/

namespace Ferroly.Lifecycle

/-- One id depends directly on another. -/
def DependsOn (deps : Deps) (a b : Id) : Prop := b ∈ dependenciesOf deps a

instance (deps : Deps) (a b : Id) : Decidable (DependsOn deps a b) := inferInstanceAs (Decidable (b ∈ dependenciesOf deps a))

/-- An id stands in a dependency map, as a key or as a dependency. -/
def Mentioned (deps : Deps) (a : Id) : Prop := a ∈ deps ∨ ∃ b, DependsOn deps b a

/-- The dependency relation of a manager is acyclic and is one between its components; every component has a state. -/
structure Inner.Valid (s : Inner) : Prop where
  deps : ∀ a, a ∈ s.deps ↔ a ∈ s.components
  watchers : ∀ a, a ∈ s.watchers ↔ a ∈ s.components
  registered : ∀ a b, DependsOn s.deps a b → b ∈ s.components
  acyclic : Graph.Acyclic (DependsOn s.deps)

/-- The operations that change which components there are and how they depend on one another. -/
inductive Edit where
  | register (id : Id)
  | unregister (id : Id)
  | addDependency (id dependsOn : Id)

def Inner.edit (s : Inner) : Edit → Inner
  | .register id => s.register id
  | .unregister id => s.unregister id
  | .addDependency id dependsOn => (Inner.addDependency id dependsOn s).2

/-- A manager after some operations. -/
def Inner.edits (es : List Edit) : Inner := es.foldl Inner.edit Inner.new

/-! ## One call at a time -/

/-- The manager with another state of one component. -/
def Inner.setState (id : Id) (state : ComponentState) (s : Inner) : Inner := { s with watchers := s.watchers.insert id state }

/-- Whether a component is to be stopped: it is neither unknown nor stopped. -/
def needsStop (id : Id) (s : Inner) : Bool :=
  match s.getState id with
  | some .stopped => false
  | some .unknown => false
  | some _ => true
  | none => false

/-- The environment of a manager: how each operation of a component ends, given all that has happened, if it ends. -/
abbrev Env := List (Event Op Outcome) → Op → Option Outcome

/-- A manager and what has happened to its components. -/
abbrev State := World Inner Op Outcome

/-- Components started in turn. The first one that fails is left in error and those after it as they are. One that does not return is
left starting, for ever or until the deadline. -/
def startInTurn (env : Env) (late : Option LifecycleError) : List Id → State → Except (Fault LifecycleError) Unit × State
  | [], w => (.ok (), w)
  | id :: ids, w =>
    let trace := w.trace ++ [.invoked (.start id)]
    match env trace (.start id) with
    | none => Async.unanswered late (.start id) ⟨w.shared.setState id .starting, trace⟩
    | some (.ok ()) => startInTurn env late ids ⟨w.shared.setState id .running, trace ++ [.finished (.start id) (.ok ())]⟩
    | some (.error e) => (.error (.error e), ⟨w.shared.setState id .error, trace ++ [.finished (.start id) (.error e)]⟩)

/-- Components stopped in turn, until the first one fails. -/
def stopInTurn (env : Env) : List Id → State → Except (Fault LifecycleError) Unit × State
  | [], w => (.ok (), w)
  | id :: ids, w =>
    let trace := w.trace ++ [.invoked (.stop id)]
    match env trace (.stop id) with
    | none => (.error .diverge, ⟨w.shared.setState id .stopping, trace⟩)
    | some (.ok ()) => stopInTurn env ids ⟨w.shared.setState id .stopped, trace ++ [.finished (.stop id) (.ok ())]⟩
    | some (.error e) => (.error (.error e), ⟨w.shared.setState id .error, trace ++ [.finished (.stop id) (.error e)]⟩)

/-- Components stopped in turn, all of them: one that fails or does not return is left in error, and the first error is returned at
the end. -/
def stopAllInTurn (env : Env) : List Id → Option LifecycleError → State → Except (Fault LifecycleError) Unit × State
  | [], none, w => (.ok (), w)
  | [], some e, w => (.error (.error e), w)
  | id :: ids, first, w =>
    let trace := w.trace ++ [.invoked (.stop id)]
    match env trace (.stop id) with
    | none =>
      stopAllInTurn env ids (first.or (some (.timeout id))) ⟨w.shared.setState id .error, trace ++ [.dropped (.stop id)]⟩
    | some (.ok ()) => stopAllInTurn env ids first ⟨w.shared.setState id .stopped, trace ++ [.finished (.stop id) (.ok ())]⟩
    | some (.error e) =>
      stopAllInTurn env ids (first.or (some e)) ⟨w.shared.setState id .error, trace ++ [.finished (.stop id) (.error e)]⟩

/-! ## Sessions -/

/-- What a caller can ask of a manager. -/
inductive Request where
  | edit (e : Edit)
  | start (id : Id)
  | startAll
  | startAllWithTimeout
  | stop (id : Id)
  | stopAll
  | stopAllWithTimeout

/-- A request with no other beside it. -/
def Request.run (env : Env) (r : Request) : State → Except (Fault LifecycleError) Unit × State :=
  match r with
  | .edit e => fun w => (.ok (), ⟨w.shared.edit e, w.trace⟩)
  | .start id => (Lifecycle.start id).run env
  | .startAll => Lifecycle.startAll.run env
  | .startAllWithTimeout => Lifecycle.startAllWithTimeout.run env
  | .stop id => (Lifecycle.stop id).run env
  | .stopAll => Lifecycle.stopAll.run env
  | .stopAllWithTimeout => Lifecycle.stopAllWithTimeout.run env

/-- A manager is new or was left so by requests made one after another, each when the one before it had returned. -/
inductive Session (env : Env) : State → Prop where
  | new : Session env ⟨Inner.new, []⟩
  | request {w : State} (h : Session env w) (r : Request) (returned : (r.run env w).1 ≠ .error .diverge) : Session env (r.run env w).2

/-- The component an operation belongs to. -/
def Op.id : Op → Id
  | .start id => id
  | .stop id => id

/-- The last thing that happened to a component. -/
def lastEvent (n : Id) (trace : List (Event Op Outcome)) : Option (Event Op Outcome) :=
  (trace.filter (fun e => e.op.id = n)).getLast?

end Ferroly.Lifecycle
