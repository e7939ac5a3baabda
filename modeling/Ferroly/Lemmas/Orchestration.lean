import Ferroly.Lemmas.Dependencies

/-!
# Calls of the manager, one at a time

What a call does when no other runs beside it: the loops over an order start or stop, in turn, those components of the order whose
state asks for it.
-/

namespace Ferroly.Lifecycle

open Relation List Async Ferroly.Lifecycle.Inner

variable {id n : Id} {s : Inner} {w : State}

/-! ## States -/

theorem Inner.setState_setState (a b : ComponentState) : Inner.setState id b (Inner.setState id a s) = Inner.setState id b s := by
  unfold Inner.setState
  simp only [AList.insert_insert]

theorem Inner.getState_setState (id : Id) (a : ComponentState) (s : Inner) (n : Id) :
    (Inner.setState id a s).getState n = if n = id then some a else s.getState n := by
  unfold Inner.setState Inner.getState
  by_cases hn : n = id
  · subst hn
    rw [AList.lookup_insert, if_pos rfl]
  · rw [AList.lookup_insert_ne hn, if_neg hn]

theorem Inner.transition_of_some {new : ComponentState} (h : (s.getState id).isSome) :
    Inner.transition id new s = Inner.setState id new s := by
  obtain ⟨state, hstate⟩ := Option.isSome_iff_exists.mp h
  unfold Inner.transition
  rw [show s.watchers.lookup id = some state from hstate]
  rfl

theorem Inner.transition_setState (old new : ComponentState) : Inner.transition id new (s.setState id old) = s.setState id new := by
  rw [transition_of_some, setState_setState]
  rw [getState_setState, if_pos rfl]
  rfl

/-- A component has a state. -/
theorem Inner.Valid.isSome_getState (h : s.Valid) (hid : id ∈ s.components) : (s.getState id).isSome :=
  AList.lookup_isSome.mpr ((h.watchers id).mpr hid)

theorem Inner.Valid.setState (h : s.Valid) (hid : id ∈ s.components) (state : ComponentState) :
    (Inner.setState id state s).Valid := by
  refine ⟨h.deps, fun a => ?_, h.registered, h.acyclic⟩
  unfold Inner.setState
  rw [AList.mem_insert, h.watchers]
  exact or_iff_right_of_imp (fun ha => ha ▸ hid)

/-! ## One component -/

variable {late : Option LifecycleError}

/-- A component that is started or being started is passed over. -/
theorem run_startOne_skip (env : Env) (hid : id ∈ w.shared.components) (hclaim : claimable id w.shared = false)
    : ((startOne id).within late).run env w = (.ok (), w) := by
  have hsame : claim id w.shared = w.shared := by
    unfold claim
    rw [hclaim]
    simp
  unfold startOne
  rw [within_sync, run]
  simp only [hid, not_true_eq_false, if_false, hclaim, Bool.false_eq_true, hsame, within_pure]
  rfl

/-- The rest of a claimed start. -/
theorem run_startOne_claim (env : Env) (hid : id ∈ w.shared.components) (hclaim : claimable id w.shared = true)
    : ((startOne id).within late).run env w = startInTurn env late [id] w := by
  have hclaimed : claim id w.shared = w.shared.setState id .starting := if_pos ⟨hid, hclaim⟩
  unfold startOne
  rw [within_sync, run]
  simp only [hid, not_true_eq_false, if_false, hclaim, if_true, hclaimed]
  rw [within_bind, run_bind, Task.bind_apply, run_perform_within, startInTurn]
  rcases henv : env (w.trace ++ [.invoked (.start id)]) (.start id) with _ | e | u
  · rcases late with _ | e <;> simp only [henv, unanswered]
  · simp only [henv, transition, within_bind, within_modify, within_fail, run_modify_bind, run_fail, transition_setState]
  · simp only [henv, transition, within_modify, run_modify, transition_setState, startInTurn]

theorem state_of_not_needsStop (h : needsStop id s = false) :
    (s.watchers.lookup id).getD .unknown = .stopped ∨ (s.watchers.lookup id).getD .unknown = .unknown := by
  unfold needsStop Inner.getState at h
  rcases hlook : s.watchers.lookup id with _ | state
  · exact .inr rfl
  · rw [hlook] at h
    rcases state with _ | _ | _ | _ | _ | _
    · exact .inr rfl
    · cases h
    · exact .inl rfl
    · cases h
    · cases h
    · cases h

theorem state_of_needsStop (h : needsStop id s = true) :
    ∃ state, s.watchers.lookup id = some state ∧ ¬(state = .stopped ∨ state = .unknown) := by
  unfold needsStop Inner.getState at h
  rcases hlook : s.watchers.lookup id with _ | state
  · rw [hlook] at h
    cases h
  · refine ⟨state, rfl, ?_⟩
    rintro (rfl | rfl) <;> rw [hlook] at h <;> cases h

theorem run_stopOne_skip (env : Env) (hid : id ∈ w.shared.components) (hneeds : needsStop id w.shared = false)
    : ((stopOne id).within late).run env w = (.ok (), w) := by
  have hstate := state_of_not_needsStop hneeds
  unfold stopOne
  rw [within_bind, within_get, run_get_bind]
  simp only [hid, not_true_eq_false, if_false, hstate, if_true, within_pure, run_pure]

theorem run_stopOne_stop (env : Env) (hid : id ∈ w.shared.components) (hneeds : needsStop id w.shared = true) :
    ((stopOne id).within late).run env w = match env (w.trace ++ [.invoked (.stop id)]) (.stop id) with
      | none => unanswered late (.stop id) ⟨w.shared.setState id .stopping, w.trace ++ [.invoked (.stop id)]⟩
      | some (.ok ()) => (.ok (),
          ⟨w.shared.setState id .stopped, w.trace ++ [.invoked (.stop id)] ++ [.finished (.stop id) (.ok ())]⟩)
      | some (.error e) => (.error (.error e),
          ⟨w.shared.setState id .error, w.trace ++ [.invoked (.stop id)] ++ [.finished (.stop id) (.error e)]⟩) := by
  obtain ⟨state, hlook, hstate⟩ := state_of_needsStop hneeds
  have hfirst : Inner.transition id .stopping w.shared = w.shared.setState id .stopping :=
    transition_of_some (Option.isSome_iff_exists.mpr ⟨state, hlook⟩)
  unfold stopOne
  rw [within_bind, within_get, run_get_bind]
  simp only [hid, not_true_eq_false, if_false, hlook, Option.getD_some, hstate, transition]
  rw [within_bind, within_modify, run_modify_bind, hfirst, within_bind, run_bind, Task.bind_apply, run_perform_within]
  rcases henv : env (w.trace ++ [.invoked (.stop id)]) (.stop id) with _ | e | u
  · rcases late with _ | e <;> simp only [henv, unanswered]
  · simp only [henv, within_bind, within_modify, within_fail, run_modify_bind, run_fail, transition_setState]
  · simp only [henv, within_modify, run_modify, transition_setState]

/-! ## Loops -/

variable {state : ComponentState}

theorem claimable_setState (hn : n ≠ id) : claimable n (s.setState id state) = claimable n s := by
  unfold claimable Inner.setState
  rw [AList.lookup_insert_ne hn]

theorem needsStop_setState (hn : n ≠ id) : needsStop n (s.setState id state) = needsStop n s := by
  unfold needsStop
  rw [getState_setState, if_neg hn]

/-- The loop of a start over an order starts, in turn, those that can be claimed. -/
theorem run_forEach_startOne (env : Env) (late : Option LifecycleError) {order : List Id} (hnodup : order.Nodup)
    (hmem : ∀ n ∈ order, n ∈ w.shared.components) :
    ((forEach startOne order).within late).run env w = startInTurn env late (order.filter (fun n => claimable n w.shared)) w := by
  induction order generalizing w with
  | nil => rcases late with _ | e <;> rfl
  | cons id ids ih =>
    obtain ⟨hid, hnodup'⟩ := nodup_cons.mp hnodup
    obtain ⟨hhead, hmem'⟩ := forall_mem_cons.mp hmem
    rw [run_forEach_cons, Task.bind_apply]
    rcases hclaim : claimable id w.shared with _ | _
    · rw [run_startOne_skip env hhead hclaim, filter_cons, hclaim]
      exact ih hnodup' hmem'
    · rw [run_startOne_claim env hhead hclaim, filter_cons, hclaim, if_pos rfl]
      rcases henv : env (w.trace ++ [.invoked (.start id)]) (.start id) with _ | e | u
      · rcases late with _ | e <;> simp only [startInTurn, henv, unanswered]
      · simp only [startInTurn, henv]
      · simp only [startInTurn, henv]
        have hsame : ids.filter (fun n => claimable n w.shared) = ids.filter (fun n => claimable n (w.shared.setState id .running)) :=
          filter_congr (fun n hn => (claimable_setState (ne_of_mem_of_not_mem hn hid)).symm)
        rw [hsame]
        exact ih hnodup' hmem'

/-- What is left to stop does not change with the state of another component. -/
theorem filter_needsStop_setState {ids : List Id} (hid : id ∉ ids) :
    ids.filter (fun n => needsStop n (s.setState id state)) = ids.filter (fun n => needsStop n s) :=
  filter_congr (fun _ hn => needsStop_setState (ne_of_mem_of_not_mem hn hid))

/-- The loop of a stop over an order stops, in turn, those that need it. -/
theorem run_forEach_stopOne (env : Env) {order : List Id} (hnodup : order.Nodup) (hmem : ∀ n ∈ order, n ∈ w.shared.components) :
    (forEach stopOne order).run env w = stopInTurn env (order.filter (fun n => needsStop n w.shared)) w := by
  induction order generalizing w with
  | nil => rfl
  | cons id ids ih =>
    obtain ⟨hid, hnodup'⟩ := nodup_cons.mp hnodup
    obtain ⟨hhead, hmem'⟩ := forall_mem_cons.mp hmem
    rw [show (forEach stopOne (id :: ids)).run env =
      ((stopOne id).within none).run env >>= fun _ => (forEach stopOne ids).run env from run_forEach_cons env none _ _ _,
      Task.bind_apply, filter_cons]
    rcases hneeds : needsStop id w.shared with _ | _
    · rw [run_stopOne_skip env hhead hneeds]
      exact ih hnodup' hmem'
    · rw [run_stopOne_stop env hhead hneeds, if_pos rfl]
      rcases henv : env (w.trace ++ [.invoked (.stop id)]) (.stop id) with _ | e | u
      · simp only [stopInTurn, henv, unanswered]
      · simp only [stopInTurn, henv]
      · simp only [stopInTurn, henv]
        rw [← filter_needsStop_setState hid]
        exact ih hnodup' hmem'

/-- The loop of a sweep stops all that need it. -/
theorem run_stopEach (env : Env) {order : List Id} {first : Option LifecycleError} (hnodup : order.Nodup)
    (hmem : ∀ n ∈ order, n ∈ w.shared.components) :
    (stopEach order first).run env w = stopAllInTurn env (order.filter (fun n => needsStop n w.shared)) first w := by
  induction order generalizing first w with
  | nil => rcases first with _ | e <;> rfl
  | cons id ids ih =>
    obtain ⟨hid, hnodup'⟩ := nodup_cons.mp hnodup
    obtain ⟨hhead, hmem'⟩ := forall_mem_cons.mp hmem
    rw [stopEach, run_bind, Task.bind_apply, run_attempt, Task.attempt, filter_cons,
      show (stopOne id).withTimeout (.timeout id) = (stopOne id).within (some (.timeout id)) from rfl]
    rcases hneeds : needsStop id w.shared with _ | _
    · rw [run_stopOne_skip env hhead hneeds]
      exact ih hnodup' hmem'
    · rw [run_stopOne_stop env hhead hneeds, if_pos rfl]
      rcases henv : env (w.trace ++ [.invoked (.stop id)]) (.stop id) with _ | e | u
      all_goals
        simp only [henv, stopAllInTurn, unanswered, transition, run_modify_bind, transition_setState]
        rw [← filter_needsStop_setState hid]
        exact ih hnodup' hmem'

/-! ## Calls -/

/-- A valid manager has an order of its components. -/
theorem Inner.Valid.order (h : s.Valid) :
    ∃ order, topoOrder s.deps = .ok order ∧ Graph.Topological (DependsOn s.deps) order ∧ ∀ n, n ∈ order ↔ n ∈ s.components := by
  rcases topoOrder_spec with ⟨⟨order, horder, htopo, hmem⟩, -⟩ | ⟨-, hcyclic⟩
  · exact ⟨order, horder, htopo, fun n => (hmem n).trans h.mentioned_iff⟩
  · exact absurd h.acyclic hcyclic

/-- What a component leads to are components. -/
theorem Inner.Valid.mem_of_reach (h : s.Valid) (hid : id ∈ s.components) (hreach : ReflTransGen (DependsOn s.deps) id n) :
    n ∈ s.components := by
  rcases ReflTransGen.cases_tail hreach with rfl | ⟨m, -, hmn⟩
  · exact hid
  · exact h.registered m n hmn

/-- What leads to a component are components. -/
theorem Inner.Valid.mem_of_reached (h : s.Valid) (hid : id ∈ s.components) (hreach : ReflTransGen (DependsOn s.deps) n id) :
    n ∈ s.components := by
  rcases ReflTransGen.cases_head hreach with rfl | ⟨m, hnm, -⟩
  · exact hid
  · exact h.registered_left hnm

theorem claimable_iff (h : s.Valid) (hn : n ∈ s.components) :
    claimable n s = true ↔ s.getState n ≠ some .running ∧ s.getState n ≠ some .starting := by
  obtain ⟨state, hstate⟩ := Option.isSome_iff_exists.mp (h.isSome_getState hn)
  unfold claimable
  rw [show s.watchers.lookup n = some state from hstate, hstate]
  cases state <;> simp

theorem needsStop_iff (h : s.Valid) (hn : n ∈ s.components) :
    needsStop n s = true ↔ s.getState n ≠ some .stopped ∧ s.getState n ≠ some .unknown := by
  obtain ⟨state, hstate⟩ := Option.isSome_iff_exists.mp (h.isSome_getState hn)
  unfold needsStop
  rw [hstate]
  cases state <;> simp

section Calls

variable (env : Env)

/-- A start of a component. -/
theorem run_start (h : w.shared.Valid) (hid : id ∈ w.shared.components) (hstate : w.shared.getState id ≠ some .running) :
    ∃ todo, Graph.Listing (DependsOn w.shared.deps) (fun n => ReflTransGen (DependsOn w.shared.deps) id n ∧ claimable n w.shared) todo ∧
      (start id).run env w = startInTurn env none todo w := by
  obtain ⟨order, horder, htopo, hmem⟩ := h.order
  obtain ⟨state, hsome⟩ := Option.isSome_iff_exists.mp (h.isSome_getState hid)
  have hfor : w.shared.startOrderFor id = .ok (order.filter (fun n => n ∈ dependencyClosure w.shared.deps id)) := by
    unfold Inner.startOrderFor
    rw [horder]
    rfl
  refine ⟨(order.filter (fun n => n ∈ dependencyClosure w.shared.deps id)).filter (fun n => claimable n w.shared), ?_, ?_⟩
  · rw [filter_filter]
    refine (htopo.listing _).congr (fun n => ?_)
    rw [Bool.and_eq_true, decide_eq_true_eq, mem_dependencyClosure, hmem]
    exact ⟨fun hn => ⟨hn.2.2, hn.2.1⟩, fun hn => ⟨h.mem_of_reach hid hn.1, hn.2, hn.1⟩⟩
  · unfold start
    rw [run_get_bind, hsome]
    cases state with
    | running => exact absurd hsome hstate
    | _ =>
      rw [run_get_bind, hfor]
      exact run_forEach_startOne env none (htopo.nodup.filter _) (fun n hn => (hmem n).mp (mem_filter.mp hn).1)

/-- A start of all components, with a deadline or without. -/
theorem run_startAll (late : Option LifecycleError) (h : w.shared.Valid) :
    ∃ todo, Graph.Listing (DependsOn w.shared.deps) (fun n => n ∈ w.shared.components ∧ claimable n w.shared) todo ∧
      (startAll.within late).run env w = startInTurn env late todo w := by
  obtain ⟨order, horder, htopo, hmem⟩ := h.order
  refine ⟨order.filter (fun n => claimable n w.shared), (htopo.listing _).congr (fun n => by rw [hmem]), ?_⟩
  unfold startAll
  rw [within_bind, within_get, run_get_bind, horder, within_bind, within_lift]
  exact run_forEach_startOne env late htopo.nodup (fun n hn => (hmem n).mp hn)

/-- A stop of a component. -/
theorem run_stop (h : w.shared.Valid) (hid : id ∈ w.shared.components) :
    ∃ todo, Graph.Listing (fun a b => DependsOn w.shared.deps b a)
        (fun n => ReflTransGen (DependsOn w.shared.deps) n id ∧ needsStop n w.shared) todo ∧
      (stop id).run env w = stopInTurn env todo w := by
  obtain ⟨order, horder, htopo, hmem⟩ := h.order
  obtain ⟨state, hsome⟩ := Option.isSome_iff_exists.mp (h.isSome_getState hid)
  have hfor : w.shared.stopOrderFor id = .ok (order.filter (fun n => n ∈ dependentClosure w.shared.deps id)) := by
    unfold Inner.stopOrderFor
    rw [horder]
    rfl
  refine ⟨(order.filter (fun n => n ∈ dependentClosure w.shared.deps id)).reverse.filter (fun n => needsStop n w.shared), ?_, ?_⟩
  · rw [filter_reverse, filter_filter]
    refine (htopo.listing _).reverse.congr (fun n => ?_)
    rw [Bool.and_eq_true, decide_eq_true_eq, mem_dependentClosure, hmem]
    exact ⟨fun hn => ⟨hn.2.2, hn.2.1⟩, fun hn => ⟨h.mem_of_reached hid hn.1, hn.2, hn.1⟩⟩
  · unfold stop
    rw [run_get_bind, hsome, run_get_bind, hfor]
    refine run_forEach_stopOne env (nodup_reverse.mpr (htopo.nodup.filter _)) (fun n hn => ?_)
    exact (hmem n).mp (mem_filter.mp (mem_reverse.mp hn)).1

/-- A stop of all components, and a sweep over all. -/
theorem run_stopAll_sweep (h : w.shared.Valid) :
    ∃ todo, Graph.Listing (fun a b => DependsOn w.shared.deps b a) (fun n => n ∈ w.shared.components ∧ needsStop n w.shared) todo ∧
      stopAll.run env w = stopInTurn env todo w ∧ stopAllWithTimeout.run env w = stopAllInTurn env todo none w := by
  obtain ⟨order, horder, htopo, hmem⟩ := h.order
  have hnodup : order.reverse.Nodup := nodup_reverse.mpr htopo.nodup
  have hmem' : ∀ n ∈ order.reverse, n ∈ w.shared.components := fun n hn => (hmem n).mp (mem_reverse.mp hn)
  refine ⟨order.reverse.filter (fun n => needsStop n w.shared), ?_, ?_, ?_⟩
  · rw [filter_reverse]
    exact (htopo.listing _).reverse.congr (fun n => by rw [hmem])
  · unfold stopAll
    rw [run_get_bind, horder]
    exact run_forEach_stopOne env hnodup hmem'
  · unfold stopAllWithTimeout
    rw [run_get_bind, horder]
    exact run_stopEach env hnodup hmem'

end Calls

/-- A sweep sets the states of the components it stops, to stopped or error, and no others. -/
theorem getState_stopAllInTurn (env : Env) (todo : List Id) (first : Option LifecycleError) (w : State) (n : Id) :
    (n ∉ todo → (stopAllInTurn env todo first w).2.shared.getState n = w.shared.getState n) ∧
    (n ∈ todo → (stopAllInTurn env todo first w).2.shared.getState n = some .stopped ∨
      (stopAllInTurn env todo first w).2.shared.getState n = some .error) := by
  induction todo generalizing first w with
  | nil =>
    refine ⟨fun _ => ?_, nofun⟩
    rcases first with _ | e <;> rfl
  | cons id ids ih =>
    have hone : ∀ (first : Option LifecycleError) (state : ComponentState) (trace : List (Event Op Outcome)),
        state = .stopped ∨ state = .error →
        let s' := (stopAllInTurn env ids first ⟨w.shared.setState id state, trace⟩).2.shared
        (n ∉ id :: ids → s'.getState n = w.shared.getState n) ∧
        (n ∈ id :: ids → s'.getState n = some .stopped ∨ s'.getState n = some .error) := by
      intro first state trace hstate
      obtain ⟨hout, hin⟩ := ih first ⟨w.shared.setState id state, trace⟩
      refine ⟨fun hn => ?_, fun hn => ?_⟩
      · obtain ⟨hne, hn⟩ := not_or.mp (mt mem_cons.mpr hn)
        rw [hout hn, getState_setState, if_neg hne]
      · by_cases hids : n ∈ ids
        · exact hin hids
        · obtain rfl := (mem_cons.mp hn).resolve_right hids
          rw [hout hids, getState_setState, if_pos rfl]
          exact hstate.imp (congrArg some) (congrArg some)
    rcases henv : env (w.trace ++ [.invoked (.stop id)]) (.stop id) with _ | e | u
    · simp only [stopAllInTurn, henv]
      exact hone _ .error _ (.inr rfl)
    · simp only [stopAllInTurn, henv]
      exact hone _ .error _ (.inr rfl)
    · simp only [stopAllInTurn, henv]
      exact hone _ .stopped _ (.inl rfl)

end Ferroly.Lifecycle
