import Ferroly.Lemmas.Orchestration

/-!
# Sessions of the manager

What holds of a manager whose requests were made one after another: a component that is running was started, and nothing has happened
to it since.
-/

namespace Ferroly.Lifecycle

open List

variable {events : List (Event Op Outcome)} {todo : List Id} {w : State}

/-! ## The last event -/

variable {trace : List (Event Op Outcome)}

theorem lastEvent_append_self {n : Id} (hevents : ∀ e ∈ events, e.op.id = n) (hne : events ≠ []) :
    lastEvent n (trace ++ events) = events.getLast? := by
  have hall : events.filter (fun e => e.op.id = n) = events :=
    filter_eq_self.mpr (fun e he => decide_eq_true (hevents e he))
  unfold lastEvent
  rw [filter_append, hall, getLast?_append_of_ne_nil _ hne]

theorem lastEvent_append_other {n id : Id} (hevents : ∀ e ∈ events, e.op.id = id) (hn : n ≠ id) :
    lastEvent n (trace ++ events) = lastEvent n trace := by
  have hnone : events.filter (fun e => e.op.id = n) = [] := by
    refine filter_eq_nil_iff.mpr (fun e he => ?_)
    rw [decide_eq_true_eq, hevents e he]
    exact hn.symm
  unfold lastEvent
  rw [filter_append, hnone, append_nil]

/-! ## Running components -/

/-- The manager is valid, and the last thing that happened to a running component is that it started. -/
structure Told (w : State) : Prop where
  valid : w.shared.Valid
  running : ∀ n, w.shared.getState n = some .running → lastEvent n w.trace = some (.finished (.start n) (.ok ()))

/-- A component gets another state after something has happened to it. -/
theorem Told.setState (h : Told w) {id : Id} (hid : id ∈ w.shared.components) {state : ComponentState}
    (hevents : ∀ e ∈ events, e.op.id = id) (hne : events ≠ [])
    (hrunning : state = .running → events.getLast? = some (.finished (.start id) (.ok ()))) :
    Told ⟨w.shared.setState id state, w.trace ++ events⟩ := by
  refine ⟨h.valid.setState hid state, fun n hn => ?_⟩
  rw [Inner.getState_setState] at hn
  by_cases heq : n = id
  · subst heq
    rw [if_pos rfl] at hn
    rw [lastEvent_append_self hevents hne]
    exact hrunning (Option.some.inj hn)
  · rw [if_neg heq] at hn
    rw [lastEvent_append_other hevents heq]
    exact h.running n hn

theorem Told.edit (h : Told w) (e : Edit) : Told ⟨w.shared.edit e, w.trace⟩ := by
  refine ⟨h.valid.edit e, fun n hn => ?_⟩
  rcases h.valid.getState_edit e hn with hn | hn
  · cases hn
  · exact h.running n hn

variable (env : Env)

theorem Told.startInTurn (late : Option LifecycleError) (h : Told w) (hmem : ∀ n ∈ todo, n ∈ w.shared.components) :
    Told (startInTurn env late todo w).2 := by
  induction todo generalizing w with
  | nil => exact h
  | cons id ids ih =>
    obtain ⟨hid, hmem⟩ := forall_mem_cons.mp hmem
    rw [Lifecycle.startInTurn]
    rcases henv : env (w.trace ++ [.invoked (.start id)]) (.start id) with _ | e | u
    · simp only [henv]
      rcases late with _ | e
      · exact h.setState hid (by simp [Event.op, Op.id]) (by simp) (by simp)
      · rw [Async.unanswered, append_assoc]
        exact h.setState hid (by simp [Event.op, Op.id]) (by simp) (by simp)
    · simp only [henv]
      rw [append_assoc]
      exact h.setState hid (by simp [Event.op, Op.id]) (by simp) (by simp)
    · simp only [henv]
      rw [append_assoc]
      exact ih (h.setState hid (by simp [Event.op, Op.id]) (by simp) (fun _ => rfl)) hmem

theorem Told.stopInTurn (h : Told w) (hmem : ∀ n ∈ todo, n ∈ w.shared.components) : Told (stopInTurn env todo w).2 := by
  induction todo generalizing w with
  | nil => exact h
  | cons id ids ih =>
    obtain ⟨hid, hmem⟩ := forall_mem_cons.mp hmem
    rw [Lifecycle.stopInTurn]
    rcases henv : env (w.trace ++ [.invoked (.stop id)]) (.stop id) with _ | e | u
    · simp only [henv]
      exact h.setState hid (by simp [Event.op, Op.id]) (by simp) (by simp)
    · simp only [henv]
      rw [append_assoc]
      exact h.setState hid (by simp [Event.op, Op.id]) (by simp) (by simp)
    · simp only [henv]
      rw [append_assoc]
      exact ih (h.setState hid (by simp [Event.op, Op.id]) (by simp) (by simp)) hmem

theorem Told.stopAllInTurn {first : Option LifecycleError} (h : Told w) (hmem : ∀ n ∈ todo, n ∈ w.shared.components) :
    Told (stopAllInTurn env todo first w).2 := by
  induction todo generalizing first w with
  | nil => rcases first with _ | e <;> exact h
  | cons id ids ih =>
    obtain ⟨hid, hmem⟩ := forall_mem_cons.mp hmem
    rw [Lifecycle.stopAllInTurn]
    rcases henv : env (w.trace ++ [.invoked (.stop id)]) (.stop id) with _ | e | u
    all_goals
      simp only [henv]
      rw [append_assoc]
      exact ih (h.setState hid (by simp [Event.op, Op.id]) (by simp) (by simp)) hmem

/-! ## Requests -/

/-- A request for a component that is not registered changes nothing. -/
theorem run_start_refused {id : Id} (h : w.shared.getState id = none ∨ w.shared.getState id = some .running) :
    ((start id).run env w).2 = w := by
  unfold start
  rw [Async.run_get_bind]
  rcases h with h | h <;> rw [h] <;> rfl

theorem run_stop_refused {id : Id} (h : w.shared.getState id = none) : ((stop id).run env w).2 = w := by
  unfold stop
  rw [Async.run_get_bind, h]
  rfl

theorem Told.request (r : Request) (h : Told w) : Told (r.run env w).2 := by
  have hcomponent : ∀ id, w.shared.getState id ≠ none → id ∈ w.shared.components := fun id hid =>
    (h.valid.watchers id).mp (AList.lookup_isSome.mp (Option.isSome_iff_ne_none.mpr hid))
  cases r with
  | edit e => exact h.edit e
  | start id =>
    by_cases hstate : w.shared.getState id = none ∨ w.shared.getState id = some .running
    · rw [Request.run, run_start_refused env hstate]
      exact h
    · obtain ⟨hnone, hrunning⟩ := not_or.mp hstate
      obtain ⟨todo, hlist, hrun⟩ := run_start env h.valid (hcomponent id hnone) hrunning
      rw [Request.run, hrun]
      exact h.startInTurn env none (fun n hn => h.valid.mem_of_reach (hcomponent id hnone) ((hlist.mem n).mp hn).1)
  | startAll =>
    obtain ⟨todo, hlist, hrun⟩ := run_startAll env none h.valid
    rw [Request.run, show Lifecycle.startAll.run env w = _ from hrun]
    exact h.startInTurn env none (fun n hn => ((hlist.mem n).mp hn).1)
  | startAllWithTimeout =>
    obtain ⟨todo, hlist, hrun⟩ := run_startAll env (some (.timeout "<all>".toList)) h.valid
    rw [Request.run, show Lifecycle.startAllWithTimeout.run env w = _ from hrun]
    exact h.startInTurn env _ (fun n hn => ((hlist.mem n).mp hn).1)
  | stop id =>
    by_cases hnone : w.shared.getState id = none
    · rw [Request.run, run_stop_refused env hnone]
      exact h
    · obtain ⟨todo, hlist, hrun⟩ := run_stop env h.valid (hcomponent id hnone)
      rw [Request.run, hrun]
      exact h.stopInTurn env (fun n hn => h.valid.mem_of_reached (hcomponent id hnone) ((hlist.mem n).mp hn).1)
  | stopAll =>
    obtain ⟨todo, hlist, hrun, -⟩ := run_stopAll_sweep env h.valid
    rw [Request.run, hrun]
    exact h.stopInTurn env (fun n hn => ((hlist.mem n).mp hn).1)
  | stopAllWithTimeout =>
    obtain ⟨todo, hlist, -, hrun⟩ := run_stopAll_sweep env h.valid
    rw [Request.run, hrun]
    exact h.stopAllInTurn env (fun n hn => ((hlist.mem n).mp hn).1)

theorem Session.told {env : Env} (h : Session env w) : Told w := by
  induction h with
  | new => exact ⟨Inner.valid_new, fun n hn => nomatch hn⟩
  | request _ r _ ih => exact ih.request env r

/-- After components were started in turn without an error they are running, and the others are as before. -/
theorem getState_of_startInTurn_ok {env : Env} {late : Option LifecycleError} (hok : (startInTurn env late todo w).1 = .ok ())
    (n : Id) : (startInTurn env late todo w).2.shared.getState n = if n ∈ todo then some .running else w.shared.getState n := by
  induction todo generalizing w with
  | nil => rw [if_neg not_mem_nil]; rfl
  | cons id ids ih =>
    rw [startInTurn] at hok ⊢
    rcases henv : env (w.trace ++ [.invoked (.start id)]) (.start id) with _ | e | u
    · rcases late with _ | e <;> simp only [henv] at hok <;> cases hok
    · simp only [henv] at hok
      cases hok
    · simp only [henv] at hok ⊢
      rw [ih hok, Inner.getState_setState]
      by_cases hids : n ∈ ids
      · rw [if_pos hids, if_pos (mem_cons_of_mem _ hids)]
      · by_cases hn : n = id
        · subst hn
          rw [if_neg hids, if_pos rfl, if_pos mem_cons_self]
        · rw [if_neg hids, if_neg hn, if_neg (fun h => (mem_cons.mp h).elim hn hids)]

end Ferroly.Lifecycle
