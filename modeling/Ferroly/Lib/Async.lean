import Ferroly.Lib.Conn

/-!
# Tasks that share a state

The program of an asynchronous task: it touches a shared state in steps of which no other task sees the middle (what it does while it
holds a lock), invokes operations of its environment and waits for their results, perhaps with a deadline. A program can be run alone
or beside others; both are given here, together with the record of the operations invoked and ended.
-/

namespace Ferroly

/-- A program over the shared state `σ`, with operations `Op` that end with a result `ρ`, errors `ε` and values `α`. -/
inductive Async (σ Op ρ ε α : Type) where
  | ret (r : Except (Fault ε) α)
  /-- Change the shared state; what follows may depend on the state before. -/
  | sync (f : σ → σ) (k : σ → Async σ Op ρ ε α)
  | invoke (op : Op) (k : Async σ Op ρ ε α)
  /-- Wait for an operation. With a deadline the wait may end without a result; the operation is then dropped. -/
  | await (op : Op) (deadline : Bool) (k : Option ρ → Async σ Op ρ ε α)

/-- What happens to the operations. -/
inductive Event (Op ρ : Type) where
  | invoked (op : Op)
  | finished (op : Op) (r : ρ)
  | dropped (op : Op)
  deriving DecidableEq

/-- The operation it happens to. -/
def Event.op {Op ρ : Type} : Event Op ρ → Op
  | .invoked op => op
  | .finished op _ => op
  | .dropped op => op

/-- The shared state and what has happened so far. -/
structure World (σ Op ρ : Type) where
  shared : σ
  trace : List (Event Op ρ)

namespace Async

variable {σ Op ρ ε δ α β : Type}

def bind (p : Async σ Op ρ ε α) (f : α → Async σ Op ρ ε β) : Async σ Op ρ ε β :=
  match p with
  | .ret (.ok a) => f a
  | .ret (.error e) => .ret (.error e)
  | .sync g k => .sync g (fun s => (k s).bind f)
  | .invoke op k => .invoke op (k.bind f)
  | .await op deadline k => .await op deadline (fun r => (k r).bind f)

instance : Monad (Async σ Op ρ ε) where
  pure a := .ret (.ok a)
  bind := Async.bind

/-- Return an error. -/
def fail (e : ε) : Async σ Op ρ ε α := .ret (.error (.error e))

/-- Read the shared state. -/
def get : Async σ Op ρ ε σ := .sync id (fun s => .ret (.ok s))

/-- Change the shared state. -/
def modify (f : σ → σ) : Async σ Op ρ ε Unit := .sync f (fun _ => .ret (.ok ()))

/-- Wait for the result of an operation. -/
def waitFor (op : Op) : Async σ Op ρ ε ρ :=
  .await op false (fun
    | some r => .ret (.ok r)
    | none => .ret (.error .diverge))

/-- Invoke an operation and wait for its result. -/
def perform (op : Op) : Async σ Op ρ ε ρ := .invoke op (waitFor op)

/-- A computed result. -/
def lift (r : Except (Fault ε) α) : Async σ Op ρ ε α := .ret r

/-- Bound the whole program by a deadline: it may strike wherever the program waits. -/
def withTimeout (e : ε) : Async σ Op ρ ε α → Async σ Op ρ ε α
  | .ret r => .ret r
  | .sync f k => .sync f (fun s => (k s).withTimeout e)
  | .invoke op k => .invoke op (k.withTimeout e)
  | .await op deadline k => .await op true (fun
    | some r => (k (some r)).withTimeout e
    | none => if deadline then (k none).withTimeout e else fail e)

/-- A program with a deadline, if there is one. -/
def within (late : Option ε) (p : Async σ Op ρ ε α) : Async σ Op ρ ε α :=
  match late with
  | none => p
  | some e => p.withTimeout e

/-- Run to the end and return the error as a value. -/
def attempt : Async σ Op ρ ε α → Async σ Op ρ δ (Except ε α)
  | .ret (.ok a) => .ret (.ok (.ok a))
  | .ret (.error (.error e)) => .ret (.ok (.error e))
  | .ret (.error .panic) => .ret (.error .panic)
  | .ret (.error .diverge) => .ret (.error .diverge)
  | .sync f k => .sync f (fun s => (k s).attempt)
  | .invoke op k => .invoke op k.attempt
  | .await op deadline k => .await op deadline (fun r => (k r).attempt)

/-- Do something for each item, in order, until the first error. -/
def forEach {ι : Type} (f : ι → Async σ Op ρ ε Unit) : List ι → Async σ Op ρ ε Unit
  | [] => pure ()
  | i :: is => do
    f i
    forEach f is

/-! ## One task alone -/

/-- Run a program alone. The environment says how an operation ends, given all that has happened; without an answer a wait ends at
its deadline, or never. -/
def run (env : List (Event Op ρ) → Op → Option ρ) : Async σ Op ρ ε α → Task (World σ Op ρ) ε α
  | .ret r => fun w => (r, w)
  | .sync f k => fun w => (k w.shared).run env ⟨f w.shared, w.trace⟩
  | .invoke op k => fun w => k.run env ⟨w.shared, w.trace ++ [.invoked op]⟩
  | .await op deadline k => fun w =>
    match env w.trace op with
    | some r => (k (some r)).run env ⟨w.shared, w.trace ++ [.finished op r]⟩
    | none => if deadline then (k none).run env ⟨w.shared, w.trace ++ [.dropped op]⟩ else (.error .diverge, w)

variable {e : ε}

section Run

variable (env : List (Event Op ρ) → Op → Option ρ)

variable (r : Except (Fault ε) α)

@[simp] theorem run_pure (a : α) (w : World σ Op ρ) : (pure a : Async σ Op ρ ε α).run env w = (.ok a, w) := rfl

@[simp] theorem run_fail (e : ε) (w : World σ Op ρ) : (fail e : Async σ Op ρ ε α).run env w = (.error (.error e), w) := rfl

@[simp] theorem run_modify (f : σ → σ) (w : World σ Op ρ) :
    (modify f : Async σ Op ρ ε Unit).run env w = (.ok (), ⟨f w.shared, w.trace⟩) := rfl

/-- A program followed by another. -/
theorem run_bind (p : Async σ Op ρ ε α) (f : α → Async σ Op ρ ε β) : (p >>= f).run env = (p.run env >>= fun a => (f a).run env) := by
  change (p.bind f).run env = _
  funext w
  induction p generalizing w with
  | ret r => rcases r with e | a <;> rfl
  | sync g k ih => exact ih _ _
  | invoke op k ih => exact ih _
  | await op deadline k ih =>
    rw [Async.bind, Task.bind_apply, run, run]
    beta_reduce
    rcases env w.trace op with _ | r
    · rcases deadline with _ | _
      · rfl
      · exact ih none _
    · exact ih (some r) _

theorem run_get_bind (f : σ → Async σ Op ρ ε α) (w : World σ Op ρ) : (get >>= f).run env w = (f w.shared).run env w := rfl

theorem run_modify_bind (g : σ → σ) (f : Unit → Async σ Op ρ ε α) (w : World σ Op ρ) :
    (modify g >>= f).run env w = (f ()).run env ⟨g w.shared, w.trace⟩ := rfl

/-- A program whose error is returned as a value. -/
theorem run_attempt (p : Async σ Op ρ ε α) : (p.attempt : Async σ Op ρ δ (Except ε α)).run env = (p.run env).attempt := by
  funext w
  induction p generalizing w with
  | ret r => rcases r with (e | _ | _) | a <;> rfl
  | sync g k ih => exact ih _ _
  | invoke op k ih => exact ih _
  | await op deadline k ih =>
    rw [attempt, run, Task.attempt, run]
    beta_reduce
    rcases env w.trace op with _ | r
    · rcases deadline with _ | _
      · rfl
      · exact ih none _
    · exact ih (some r) _

variable {f : α → Async σ Op ρ ε β} {p : Async σ Op ρ ε α}

/-- A deadline for a program is one for each of its parts. -/
theorem withTimeout_bind : (p >>= f).withTimeout e = p.withTimeout e >>= fun a => (f a).withTimeout e := by
  change (p.bind f).withTimeout e = (p.withTimeout e).bind _
  induction p with
  | ret r => rcases r with err | a <;> rfl
  | sync g k ih => exact congrArg (Async.sync g) (funext ih)
  | invoke op k ih => exact congrArg (Async.invoke op) ih
  | await op deadline k ih =>
    rw [Async.bind, withTimeout, withTimeout]
    congr 1
    funext r
    rcases r with _ | r
    · rcases deadline with _ | _
      · rfl
      · exact ih none
    · exact ih (some r)

variable {late : Option ε}

theorem within_bind : (p >>= f).within late = p.within late >>= fun a => (f a).within late := by
  rcases late with _ | e
  · rfl
  · exact withTimeout_bind

@[simp] theorem within_get : (get : Async σ Op ρ ε σ).within late = get := by cases late <;> rfl

@[simp] theorem within_modify (f : σ → σ) : (modify f : Async σ Op ρ ε Unit).within late = modify f := by
  cases late <;> rfl

@[simp] theorem within_pure (a : α) : (pure a : Async σ Op ρ ε α).within late = pure a := by cases late <;> rfl

@[simp] theorem within_fail : (fail e : Async σ Op ρ ε α).within late = fail e := by cases late <;> rfl

@[simp] theorem within_lift : (lift r : Async σ Op ρ ε α).within late = lift r := by
  cases late <;> rfl

theorem within_sync (f : σ → σ) (k : σ → Async σ Op ρ ε α) :
    (Async.sync f k).within late = .sync f (fun s => (k s).within late) := by cases late <;> rfl

/-- How the wait for an operation ends when the operation does not. -/
def unanswered (late : Option ε) (op : Op) (w : World σ Op ρ) : Except (Fault ε) α × World σ Op ρ :=
  match late with
  | none => (.error .diverge, w)
  | some e => (.error (.error e), ⟨w.shared, w.trace ++ [.dropped op]⟩)

/-- An operation with a deadline, or without. -/
theorem run_perform_within (late : Option ε) (op : Op) (w : World σ Op ρ) :
    ((perform op : Async σ Op ρ ε ρ).within late).run env w = match env (w.trace ++ [.invoked op]) op with
      | some r => (.ok r, ⟨w.shared, w.trace ++ [.invoked op] ++ [.finished op r]⟩)
      | none => unanswered late op ⟨w.shared, w.trace ++ [.invoked op]⟩ := by
  rcases late with _ | e
  · rw [within, perform, run, waitFor, run]
    rcases env (w.trace ++ [.invoked op]) op with _ | r <;> rfl
  · rw [within, perform, withTimeout, waitFor, withTimeout, run, run]
    rcases env (w.trace ++ [.invoked op]) op with _ | r <;> rfl

theorem run_forEach_cons {ι : Type} (late : Option ε) (f : ι → Async σ Op ρ ε Unit) (i : ι) (is : List ι) :
    ((forEach f (i :: is)).within late).run env = (((f i).within late).run env >>= fun _ => ((forEach f is).within late).run env) := by
  rw [forEach, within_bind]
  exact run_bind env _ _

end Run

/-! ## Many tasks -/

/-- One step of a program. The answer is how a wait ends: with a result, or at the deadline. -/
def step (p : Async σ Op ρ ε α) (answer : Option ρ) (w : World σ Op ρ) : Option (Async σ Op ρ ε α × World σ Op ρ) :=
  match p with
  | .ret _ => none
  | .sync f k => some (k w.shared, ⟨f w.shared, w.trace⟩)
  | .invoke op k => some (k, ⟨w.shared, w.trace ++ [.invoked op]⟩)
  | .await op deadline k =>
    match answer with
    | some r => some (k (some r), ⟨w.shared, w.trace ++ [.finished op r]⟩)
    | none => if deadline then some (k none, ⟨w.shared, w.trace ++ [.dropped op]⟩) else none

variable {answer : Option ρ} {w : World σ Op ρ}

/-- A program that begins by reading the shared state. -/
theorem step_get_bind (f : σ → Async σ Op ρ ε α) : ((get : Async σ Op ρ ε σ) >>= f).step answer w = some (f w.shared, w) := rfl

/-- The end of a wait with a deadline whose error is returned as a value. -/
theorem step_waitFor_attempt (op : Op) (k : ρ → Async σ Op ρ ε α) (f : Except ε α → Async σ Op ρ δ β) :
    (((waitFor op >>= k).withTimeout e).attempt >>= f).step answer w = match answer with
      | some r => some (((k r).withTimeout e).attempt >>= f, ⟨w.shared, w.trace ++ [.finished op r]⟩)
      | none => some (f (.error e), ⟨w.shared, w.trace ++ [.dropped op]⟩) := by
  have hwait : (waitFor op >>= k).withTimeout e = .await op true (fun
      | some r => (k r).withTimeout e
      | none => fail e) := by
    change (Async.bind (waitFor op) k).withTimeout e = _
    rw [waitFor, Async.bind, withTimeout]
    congr 1
  rw [hwait]
  rcases answer with _ | r <;> rfl

end Async

/-- Tasks that run beside each other. -/
structure Tasks (σ Op ρ ε α : Type) where
  world : World σ Op ρ
  tasks : List (Async σ Op ρ ε α)

/-- What may happen: a task is added, or one of them makes a step. -/
inductive Move (σ Op ρ ε α : Type) where
  | spawn (p : Async σ Op ρ ε α)
  | step (i : Nat) (answer : Option ρ)

namespace Tasks

variable {σ Op ρ ε α : Type}

/-- One move. A step that cannot be made changes nothing. -/
def move (t : Tasks σ Op ρ ε α) : Move σ Op ρ ε α → Tasks σ Op ρ ε α
  | .spawn p => { t with tasks := t.tasks ++ [p] }
  | .step i answer =>
    match t.tasks[i]? with
    | none => t
    | some p =>
      match p.step answer t.world with
      | none => t
      | some (p', w') => ⟨w', t.tasks.set i p'⟩

/-- Some moves, in order. -/
def moves (t : Tasks σ Op ρ ε α) (ms : List (Move σ Op ρ ε α)) : Tasks σ Op ρ ε α := ms.foldl move t

end Tasks

end Ferroly
