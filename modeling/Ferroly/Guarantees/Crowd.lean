import Ferroly.Lemmas.CrowdRun

/-!
# Calls beside each other

Starts beside each other start a component only after its dependencies, provided that none passes over a component that is still
starting and that others it goes on to depend on. Starts and stops beside each other keep a component in order, provided that none
takes hold of a component that another call holds. Without these conditions neither holds.
-/

namespace Ferroly.Lifecycle

open Relation Crowd

/-! ## Starts -/

/-- In every interleaving of starts that wait for what the others depend on: when a start of a component is invoked, all that it depends
on is running, no start of it is in progress, and none has succeeded. -/
theorem start_invoked_after_dependencies (es : List Edit) (ts : List Turn) (hstarts : ∀ a, .ask a ∈ ts → a.isStart = true)
    (hwaits : (Crowd.start es).throughout Crowd.waits ts = true) :
    let c := (Crowd.start es).turns ts
    c.tasks = (Crowd.start es).tasks.moves (ts.map Turn.move) ∧
    ∀ t n, (c.turn t).world.trace = c.world.trace ++ [.invoked (.start n)] →
      (∀ d, TransGen (DependsOn c.world.shared.deps) n d → c.world.shared.getState d = some .running) ∧
      .start n ∉ (record n c.world.trace).inProgress ∧ .finished (.start n) (.ok ()) ∉ c.world.trace := by
  intro c
  have h : Queued c := queued_turns es hstarts hwaits
  refine ⟨tasks_turns ts, fun t n htrace => ?_⟩
  have hgrows : ∀ trace : List (Event Op Outcome), trace = c.world.trace → trace ≠ c.world.trace ++ [.invoked (.start n)] := by
    rintro _ rfl heq
    simpa using congrArg List.length heq
  cases t with
  | ask a => exact absurd htrace (hgrows _ rfl)
  | step i answer =>
    rcases c.turn_step i answer with hsame | ⟨ph, ph', w', hi, hstep, hturn⟩
    · exact absurd htrace (hgrows _ (by rw [hsame]))
    have hph := List.mem_of_getElem? hi
    rw [hturn] at htrace
    rcases (h.orderly.step_cases hph hstep).world.2.1 with hsame | ⟨e, hemits, hemitted⟩
    · exact absurd htrace (hgrows _ hsame)
    · obtain rfl : e = .invoked (.start n) := by
        rw [hemitted] at htrace
        simpa using htrace
      cases hemits with
      | @startInvoked _ rest =>
        obtain ⟨hstate, hquiet, -⟩ := h.orderly.held _ hph n rfl
        refine ⟨fun d hd => ?_, by simp [hquiet], fun hfinished => ?_⟩
        · rcases h.covered _ hph [] n rest rfl d hd with hmem | hrunning
          · cases hmem
          · exact hrunning
        · rcases h.started n hfinished with hrunning | ⟨q, hq, rest', rfl⟩
          · rw [hstate] at hrunning
            cases hrunning
          · obtain ⟨j, hj⟩ := List.mem_iff_getElem?.mp hq
            obtain rfl := h.orderly.one i j _ _ n hi hj rfl rfl
            rw [hi] at hj
            cases hj

/-- Two components, the first of which depends on the second. -/
def twoComponents : List Edit := [.register ['a'], .register ['b'], .addDependency ['a'] ['b']]

/-- Two starts of all components. The second one looks at the dependency when the first has started it. -/
def secondWaits : List Turn :=
  [.ask .startAll, .ask .startAll, .step 0 none, .step 0 none, .step 0 none, .step 0 (some (.ok ())), .step 0 none, .step 1 none,
    .step 1 none, .step 1 none]

theorem start_invoked_after_dependency : (Crowd.start twoComponents).throughout Crowd.waits secondWaits = true ∧
    let c := (Crowd.start twoComponents).turns secondWaits
    (c.turn (.step 1 none)).world.trace = c.world.trace ++ [.invoked (.start ['a'])] ∧
      ∀ d, TransGen (DependsOn c.world.shared.deps) ['a'] d → c.world.shared.getState d = some .running := by
  have hwaits : (Crowd.start twoComponents).throughout Crowd.waits secondWaits = true := by rfl
  refine ⟨hwaits, rfl, ((start_invoked_after_dependencies twoComponents secondWaits ?_ hwaits).2 (.step 1 none) ['a'] rfl).1⟩
  intro a ha
  simp [secondWaits] at ha
  subst ha
  rfl

/-- Two starts of all components. The second one looks at the dependency while the first is starting it. -/
def secondPasses : List Turn :=
  [.ask .startAll, .ask .startAll, .step 0 none, .step 0 none, .step 0 none, .step 1 none, .step 1 none, .step 1 none]

/-- The second one then invokes the start of a component whose dependency is still starting. -/
theorem start_invoked_before_dependency : let c := (Crowd.start twoComponents).turns secondPasses
    c.tasks = (Crowd.start twoComponents).tasks.moves (secondPasses.map Turn.move) ∧
      (c.turn (.step 1 none)).world.trace = c.world.trace ++ [.invoked (.start ['a'])] ∧
      TransGen (DependsOn c.world.shared.deps) ['a'] ['b'] ∧ c.world.shared.getState ['b'] = some .starting :=
  ⟨tasks_turns _, rfl, .single (List.mem_singleton.mpr rfl), rfl⟩

/-! ## Starts and stops -/

/-- In every interleaving of starts and stops in which none takes hold of a component that another holds, and no stop finds a component
in error after a stop: since the last start of a component at most one stop was invoked, a start and a stop of it are not both in
progress, and if it is running the last thing that happened to it is that it started. -/
theorem calls_disciplined (es : List Edit) (ts : List Turn) (hcareful : (Crowd.start es).throughout Crowd.careful ts = true) :
    let c := (Crowd.start es).turns ts
    c.tasks = (Crowd.start es).tasks.moves (ts.map Turn.move) ∧
    ∀ n, (record n c.world.trace).stops ≤ 1 ∧
      ¬(.start n ∈ (record n c.world.trace).inProgress ∧ .stop n ∈ (record n c.world.trace).inProgress) ∧
      (c.world.shared.getState n = some .running → (record n c.world.trace).last = some (.finished (.start n) (.ok ()))) := by
  intro c
  have h : Orderly c := invariant_of_throughout (fun _ t h ht => h.turn t ht) (orderly_start es) hcareful
  exact ⟨tasks_turns ts, fun n => h.disciplined n⟩

/-- A component is started and, when that is over, stopped by a sweep. -/
def startThenSweep : List Turn :=
  [.ask .startAll, .ask .stopAllWithTimeout, .step 0 none, .step 0 none, .step 0 none, .step 0 (some (.ok ())), .step 0 none,
    .step 1 none, .step 1 none, .step 1 none, .step 1 none]

theorem calls_disciplined_sweep : (Crowd.start [.register ['a']]).throughout Crowd.careful startThenSweep = true ∧
      (record ['a'] ((Crowd.start [.register ['a']]).turns startThenSweep).world.trace).stops ≤ 1 := by
  have hcareful : (Crowd.start [.register ['a']]).throughout Crowd.careful startThenSweep = true := by rfl
  exact ⟨hcareful, ((calls_disciplined [.register ['a']] startThenSweep hcareful).2 ['a']).1⟩

/-- A component is running; a stop has invoked its stop when a start claims it again. -/
def startDuringStop : List Turn :=
  [.ask .startAll, .step 0 none, .step 0 none, .step 0 none, .step 0 (some (.ok ())), .step 0 none,
    .ask .stopAll, .step 1 none, .step 1 none, .step 1 none, .step 1 none, .ask .startAll, .step 2 none, .step 2 none, .step 2 none]

/-- A start and a stop of the component are in progress. -/
theorem start_during_stop : let c := (Crowd.start [.register ['a']]).turns startDuringStop
    c.tasks = (Crowd.start [.register ['a']]).tasks.moves (startDuringStop.map Turn.move) ∧
      .start ['a'] ∈ (record ['a'] c.world.trace).inProgress ∧ .stop ['a'] ∈ (record ['a'] c.world.trace).inProgress := by
  intro c
  have hopen : (record ['a'] c.world.trace).inProgress = [.stop ['a'], .start ['a']] := by rfl
  rw [hopen]
  exact ⟨tasks_turns _, by simp⟩

end Ferroly.Lifecycle
