import Ferroly.Lemmas.Sessions

/-!
# Calls one at a time

With no other call beside it, a call of the manager starts or stops exactly the components it should, in the order of their
dependencies. A component that a deadline left starting is not started again by a later start of all, which reports success.
-/

namespace Ferroly.Lifecycle

open Relation

/-- With no component starting or stopping, and no other call running: a start of a component that is not running starts, in turn, the
members of its dependency closure that are not running, dependencies first; a start of all does so with all components; a stop of a
component stops, in turn, it and its transitive dependents where they are neither stopped nor unknown, dependents first; a stop of all
does so with all components; and a sweep stops all of those, dependents first, returns the first error, and leaves every component
stopped, unknown or in error. -/
theorem calls_in_turn (env : Env) (w : State) (hvalid : w.shared.Valid) (hsettled : ∀ n ∈ w.shared.components,
      w.shared.getState n ∈ [some .unknown, some .running, some .stopped, some .error]) :
    (∀ id ∈ w.shared.components, w.shared.getState id ≠ some .running → ∃ todo, Graph.Listing (DependsOn w.shared.deps)
        (fun n => ReflTransGen (DependsOn w.shared.deps) id n ∧ w.shared.getState n ≠ some .running) todo ∧
      (start id).run env w = startInTurn env none todo w) ∧
    (∃ todo, Graph.Listing (DependsOn w.shared.deps) (fun n => n ∈ w.shared.components ∧ w.shared.getState n ≠ some .running) todo ∧
      startAll.run env w = startInTurn env none todo w) ∧
    (∀ id ∈ w.shared.components, ∃ todo,
      Graph.Listing (fun a b => DependsOn w.shared.deps b a) (fun n => ReflTransGen (DependsOn w.shared.deps) n id ∧
        w.shared.getState n ≠ some .stopped ∧ w.shared.getState n ≠ some .unknown) todo ∧
      (stop id).run env w = stopInTurn env todo w) ∧
    (∃ todo, Graph.Listing (fun a b => DependsOn w.shared.deps b a) (fun n => n ∈ w.shared.components ∧
        w.shared.getState n ≠ some .stopped ∧ w.shared.getState n ≠ some .unknown) todo ∧
      stopAll.run env w = stopInTurn env todo w ∧
      stopAllWithTimeout.run env w = stopAllInTurn env todo none w ∧
      ∀ n ∈ w.shared.components, (stopAllInTurn env todo none w).2.shared.getState n ∈
        [some .stopped, some .unknown, some .error]) := by
  have hclaim : ∀ n ∈ w.shared.components, (claimable n w.shared = true ↔ w.shared.getState n ≠ some .running) := fun n hn =>
    (claimable_iff hvalid hn).trans (and_iff_left (fun h => by simpa [h] using hsettled n hn))
  have hneeds : ∀ n ∈ w.shared.components, (needsStop n w.shared = true ↔
      w.shared.getState n ≠ some .stopped ∧ w.shared.getState n ≠ some .unknown) := fun n hn => needsStop_iff hvalid hn
  refine ⟨fun id hid hstate => ?_, ?_, fun id hid => ?_, ?_⟩
  · obtain ⟨todo, hlist, hrun⟩ := run_start env hvalid hid hstate
    refine ⟨todo, hlist.congr (fun n => and_congr_right (fun hreach => ?_)), hrun⟩
    exact hclaim n (hvalid.mem_of_reach hid hreach)
  · obtain ⟨todo, hlist, hrun⟩ := run_startAll env none hvalid
    exact ⟨todo, hlist.congr (fun n => and_congr_right (hclaim n)), hrun⟩
  · obtain ⟨todo, hlist, hrun⟩ := run_stop env hvalid hid
    refine ⟨todo, hlist.congr (fun n => and_congr_right (fun hreach => ?_)), hrun⟩
    exact hneeds n (hvalid.mem_of_reached hid hreach)
  · obtain ⟨todo, hlist, hall, hsweep⟩ := run_stopAll_sweep env hvalid
    refine ⟨todo, hlist.congr (fun n => and_congr_right (hneeds n)), hall, hsweep, fun n hn => ?_⟩
    obtain ⟨hout, hin⟩ := getState_stopAllInTurn env todo none w n
    by_cases htodo : n ∈ todo
    · rcases hin htodo with h | h <;> simp [h]
    · rw [hout htodo]
      have hnot : ¬(w.shared.getState n ≠ some .stopped ∧ w.shared.getState n ≠ some .unknown) := fun h =>
        htodo ((hlist.mem n).mpr ⟨hn, (hneeds n hn).mpr h⟩)
      rcases not_and_or.mp hnot with h | h <;> simp [not_not.mp h]

/-- A component that depends on another, neither started. -/
def sampleManager : Inner :=
  Inner.edits [.register "app".toList, .register "db".toList, .addDependency "app".toList "db".toList]

theorem calls_in_turn_sample : ∃ todo, Graph.Listing (DependsOn sampleManager.deps)
        (fun n => n ∈ sampleManager.components ∧ sampleManager.getState n ≠ some .running) todo ∧
      startAll.run (fun _ _ => some (.ok ())) ⟨sampleManager, []⟩ = startInTurn (fun _ _ => some (.ok ())) none todo ⟨sampleManager, []⟩ := by
  obtain ⟨hvalid, hunknown⟩ := Inner.valid_edits [.register "app".toList, .register "db".toList, .addDependency "app".toList "db".toList]
  refine (calls_in_turn (fun _ _ => some (.ok ())) ⟨sampleManager, []⟩ hvalid (fun n hn => ?_)).2.1
  obtain ⟨state, hstate⟩ := Option.isSome_iff_exists.mp (hvalid.isSome_getState hn)
  rw [show sampleManager.getState n = some state from hstate, hunknown n state hstate]
  exact List.mem_cons_self

/-! ## After a deadline -/

/-- After a start of all has returned without an error, every component is running and was started, exactly if none was starting
before. -/
theorem startAll_starts_all_iff {env : Env} {w : State} (h : Session env w) (hok : (startAll.run env w).1 = .ok ()) :
    (∀ n ∈ w.shared.components, (startAll.run env w).2.shared.getState n = some .running ∧
      lastEvent n (startAll.run env w).2.trace = some (.finished (.start n) (.ok ()))) ↔
    ∀ n ∈ w.shared.components, w.shared.getState n ≠ some .starting := by
  have htold : Told (startAll.run env w).2 := h.told.request env .startAll
  have hvalid := h.told.valid
  obtain ⟨todo, hlist, hrun⟩ := run_startAll env none hvalid
  change startAll.run env w = _ at hrun
  have hstate : ∀ n, (startAll.run env w).2.shared.getState n = if n ∈ todo then some .running else w.shared.getState n := by
    rw [hrun] at hok ⊢
    exact getState_of_startInTurn_ok hok
  constructor
  · intro hall n hn hstarting
    have hclaim : ¬claimable n w.shared = true := fun hc => ((claimable_iff hvalid hn).mp hc).2 hstarting
    have hafter := (hall n hn).1
    rw [hstate, if_neg (fun ht => hclaim ((hlist.mem n).mp ht).2), hstarting] at hafter
    cases hafter
  · intro hnone n hn
    have hrunning : (startAll.run env w).2.shared.getState n = some .running := by
      rw [hstate]
      by_cases ht : n ∈ todo
      · rw [if_pos ht]
      · rw [if_neg ht]
        by_contra hnot
        exact ht ((hlist.mem n).mpr ⟨hn, (claimable_iff hvalid hn).mpr ⟨hnot, hnone n hn⟩⟩)
    exact ⟨hrunning, htold.running n hrunning⟩

/-- A component whose first start does not return. -/
def slowOnce : Env := fun trace _ => if trace.any (fun e => e matches .dropped _) then some (.ok ()) else none

/-- One component is registered, and a start with a deadline is over. -/
def timedOut : Except (Fault LifecycleError) Unit × State :=
  Request.startAllWithTimeout.run slowOnce ((Request.edit (.register "db".toList)).run slowOnce ⟨Inner.new, []⟩).2

/-- The component is stopped after that. -/
def stoppedLater : State := (Request.stopAll.run slowOnce timedOut.2).2

/-- What the requests made of a slow component return, and where they leave it. -/
theorem slowOnce_runs :
    timedOut.1 = .error (.error (.timeout "<all>".toList)) ∧ timedOut.2.shared.components.items = ["db".toList] ∧
      (startAll.run slowOnce timedOut.2).1 = .ok () ∧
      (startAll.run slowOnce timedOut.2).2.shared.getState "db".toList = some .starting ∧
      (Request.stopAll.run slowOnce timedOut.2).1 = .ok () ∧ stoppedLater.shared.components.items = ["db".toList] ∧
      stoppedLater.shared.getState "db".toList = some .stopped ∧ (startAll.run slowOnce stoppedLater).1 = .ok () := by
  decide +kernel

theorem session_timedOut : Session slowOnce timedOut.2 := by
  refine .request (.request .new (.edit (.register "db".toList)) nofun) .startAllWithTimeout ?_
  change timedOut.1 ≠ _
  rw [slowOnce_runs.1]
  exact nofun

theorem startAll_starts_all_stopped : Session slowOnce stoppedLater ∧ (startAll.run slowOnce stoppedLater).1 = .ok () ∧
      ∀ n ∈ stoppedLater.shared.components, (startAll.run slowOnce stoppedLater).2.shared.getState n = some .running ∧
        lastEvent n (startAll.run slowOnce stoppedLater).2.trace = some (.finished (.start n) (.ok ())) := by
  obtain ⟨-, -, -, -, hstop, hitems, hstate, hok⟩ := slowOnce_runs
  have hsession : Session slowOnce stoppedLater := .request session_timedOut .stopAll (by rw [hstop]; exact nofun)
  refine ⟨hsession, hok, (startAll_starts_all_iff hsession hok).mpr (fun n hn => ?_)⟩
  have hmem : n ∈ stoppedLater.shared.components.items := hn
  rw [hitems] at hmem
  rw [List.mem_singleton.mp hmem, hstate]
  exact nofun

/-- A start with a deadline has returned its error, a later start of all reports success, and the component has not started. -/
theorem startAll_skips_timedOut : Session slowOnce timedOut.2 ∧ timedOut.1 = .error (.error (.timeout "<all>".toList)) ∧
      (startAll.run slowOnce timedOut.2).1 = .ok () ∧
      ¬∀ n ∈ timedOut.2.shared.components, (startAll.run slowOnce timedOut.2).2.shared.getState n = some .running ∧
        lastEvent n (startAll.run slowOnce timedOut.2).2.trace = some (.finished (.start n) (.ok ())) := by
  obtain ⟨htimeout, hitems, hok, hstate, -⟩ := slowOnce_runs
  refine ⟨session_timedOut, htimeout, hok, fun hall => ?_⟩
  have hmem : "db".toList ∈ timedOut.2.shared.components.items := by
    rw [hitems]
    exact List.mem_singleton_self _
  have hrunning := (hall _ hmem).1
  rw [hstate] at hrunning
  cases hrunning

end Ferroly.Lifecycle
