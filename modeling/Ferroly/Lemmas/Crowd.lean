import Ferroly.Lifecycle.Crowd
import Ferroly.Lemmas.Orchestration

/-!
# Calls beside each other

The phases of a call are its program: a step of one is a step of the other. A call holds a component from the moment it claims it or
finds it to be stopped until it has set the state the component ends in.
-/

namespace Ferroly.Lifecycle

open List Relation Async Option

/-! ## Phases are programs -/

namespace Phase

variable {answer : Option Outcome} {w : State}

theorem step_prog_begun (a : Ask) : (begun a).prog.step answer w = ((begun a).step answer w).map (fun x => (x.1.prog, x.2)) := by
  cases a with
  | start id =>
    rw [prog, Ask.prog, start, step_get_bind, step]
    rcases w.shared.getState id with _ | state
    · rfl
    · cases state <;> rfl
  | stop id =>
    rw [prog, Ask.prog, stop, step_get_bind, step]
    rcases w.shared.getState id with _ | state <;> rfl
  | startAll =>
    rw [prog, Ask.prog, startAll, step_get_bind, step]
    rcases topoOrder w.shared.deps with e | order <;> rfl
  | stopAll =>
    rw [prog, Ask.prog, stopAll, step_get_bind, step]
    rcases topoOrder w.shared.deps with e | order <;> rfl
  | stopAllWithTimeout =>
    rw [prog, Ask.prog, stopAllWithTimeout, step_get_bind, step]
    rcases topoOrder w.shared.deps with e | order <;> rfl

variable {id : Id} {rest : List Id}

theorem step_prog_starts :
    (starts (id :: rest)).prog.step answer w = ((starts (id :: rest)).step answer w).map (fun x => (x.1.prog, x.2)) := by
  change some (_, (⟨claim id w.shared, w.trace⟩ : State)) = _
  beta_reduce
  rw [step]
  by_cases hid : id ∉ w.shared.components
  · rw [if_pos hid, if_pos hid, show claim id w.shared = w.shared from if_neg (fun h => hid h.1)]
    rfl
  · rw [if_neg hid, if_neg hid]
    by_cases hclaim : claimable id w.shared = true
    · rw [if_pos hclaim, if_pos hclaim, show claim id w.shared = w.shared.setState id .starting from if_pos ⟨not_not.mp hid, hclaim⟩]
      rfl
    · rw [if_neg hclaim, if_neg hclaim, show claim id w.shared = w.shared from if_neg (fun h => hclaim h.2)]
      rfl

/-- A stop begins with a look at the component. -/
theorem stopOne_look : ∃ look : Inner → Call, stopOne id = Async.get >>= look ∧ ∀ s,
      (id ∉ s.components → look s = Async.fail (.componentNotFound id)) ∧
      (id ∈ s.components → needsStop id s = false → look s = pure ()) ∧
      (id ∈ s.components → needsStop id s = true →
        look s = (transition id .stopping >>= fun _ => Async.perform (.stop id) >>= stopRest id)) := by
  refine ⟨_, rfl, fun s => ⟨fun hid => ?_, fun hid hneeds => ?_, fun hid hneeds => ?_⟩⟩
  · rw [if_pos hid]
  · have hstate := state_of_not_needsStop hneeds
    simp only [hid, not_true_eq_false, if_false, hstate, if_true]
  · obtain ⟨state, hlook, hstate⟩ := state_of_needsStop hneeds
    simp only [hid, hlook, getD_some, hstate]
    rfl

theorem step_prog_stops (sweep : Option (Option LifecycleError)) :
    (stops sweep (id :: rest)).prog.step answer w = ((stops sweep (id :: rest)).step answer w).map (fun x => (x.1.prog, x.2)) := by
  obtain ⟨look, hstop, hlook⟩ := stopOne_look
  obtain ⟨habsent, hskip, hneeds⟩ := hlook w.shared
  have hprog : (stops sweep (id :: rest)).prog = stopPart sweep id rest (stopOne id) := by
    rcases sweep with _ | first <;> rfl
  have hstep : (stopPart sweep id rest (Async.get >>= look)).step answer w = some (stopPart sweep id rest (look w.shared), w) := by
    rcases sweep with _ | first <;> rfl
  rw [hprog, hstop, hstep, step]
  by_cases hid : id ∈ w.shared.components
  · rw [if_neg (not_not.mpr hid)]
    by_cases h : needsStop id w.shared = true
    · rw [if_pos h, hneeds hid h]
      rfl
    · rw [if_neg h, hskip hid ((Bool.not_eq_true _).mp h)]
      rcases sweep with _ | first <;> rfl
  · rw [if_pos hid, habsent hid]
    rcases sweep with _ | first <;> rfl

/-- A step of a phase is one of its program. -/
theorem step_prog (ph : Phase) : ph.prog.step answer w = (ph.step answer w).map (fun x => (x.1.prog, x.2)) := by
  cases ph with
  | begun a => exact step_prog_begun a
  | lookedStart id =>
    rw [prog, step_get_bind, step]
    rcases w.shared.startOrderFor id with e | order <;> rfl
  | lookedStop id =>
    rw [prog, step_get_bind, step]
    rcases w.shared.stopOrderFor id with e | order <;> rfl
  | starts rest =>
    cases rest with
    | nil => rfl
    | cons id rest => exact step_prog_starts
  | claimed id rest | sweepError first id rest | done r => rfl
  | startWait id rest => rcases answer with _ | r <;> rfl
  | startEnded id r rest => rcases r with e | u <;> rfl
  | stops sweep rest =>
    cases rest with
    | nil => rcases sweep with _ | _ | e <;> rfl
    | cons id rest => exact step_prog_stops sweep
  | mayStop sweep id rest | willStop sweep id rest => rcases sweep with _ | first <;> rfl
  | stopWait sweep id rest =>
    rcases sweep with _ | first
    · rcases answer with _ | r <;> rfl
    · rw [prog, stopPart, step_waitFor_attempt]
      rcases answer with _ | r <;> rfl
  | stopEnded sweep id r rest => rcases sweep with _ | first <;> rcases r with e | u <;> rfl

end Phase

namespace Crowd

variable {c : Crowd}

theorem tasks_turn (t : Turn) : (c.turn t).tasks = c.tasks.move t.move := by
  cases t with
  | ask a =>
    unfold turn tasks Turn.move Tasks.move
    rw [map_append]
    rfl
  | step i answer =>
    unfold turn tasks Turn.move Tasks.move
    dsimp only
    rw [getElem?_map]
    rcases hph : c.phases[i]? with _ | ph
    · rfl
    · simp only [map_some, Phase.step_prog]
      rcases ph.step answer c.world with _ | ⟨ph', w'⟩
      · rfl
      · simp only [map_some, map_set]

/-- A run of the calls is one of their programs. -/
theorem tasks_turns (ts : List Turn) : (c.turns ts).tasks = c.tasks.moves (ts.map Turn.move) := by
  induction ts generalizing c with
  | nil => rfl
  | cons t ts ih =>
    rw [turns, foldl_cons, ← turns, ih, tasks_turn]
    rfl

end Crowd

/-! ## Records -/

theorem record_append (n : Id) (trace : List (Event Op Outcome)) (e : Event Op Outcome) :
    record n (trace ++ [e]) = if e.op.id = n then (record n trace).add e else record n trace := by
  unfold record
  rw [filter_append, foldl_append]
  by_cases h : e.op.id = n
  · rw [if_pos h, filter_singleton, decide_eq_true h]
    rfl
  · rw [if_neg h, filter_singleton, decide_eq_false h]
    rfl

/-! ## One component -/

/-- What is known of a component that no call holds. -/
structure Free (n : Id) (w : State) : Prop where
  quiet : (record n w.trace).inProgress = []
  starting : w.shared.getState n ≠ some .starting
  stopping : w.shared.getState n ≠ some .stopping
  running : w.shared.getState n = some .running → (record n w.trace).last = some (.finished (.start n) (.ok ()))
  stops : (record n w.trace).stops ≤ 1
  unspent : ∀ e, (record n w.trace).last = some e → e.op = .start n → (record n w.trace).stops = 0

/-- What is known of a component that a call holds. -/
def Held (n : Id) (w : State) : Phase → Prop
  | .claimed _ _ => w.shared.getState n = some .starting ∧ (record n w.trace).inProgress = [] ∧ (record n w.trace).stops ≤ 1
  | .startWait _ _ =>
    w.shared.getState n = some .starting ∧ (record n w.trace).inProgress = [.start n] ∧ (record n w.trace).stops = 0
  | .startEnded _ r _ =>
    w.shared.getState n = some .starting ∧ (record n w.trace).inProgress = [] ∧ (record n w.trace).stops = 0 ∧
      (record n w.trace).last = some (.finished (.start n) r)
  | .mayStop _ _ _ =>
    w.shared.getState n ≠ none ∧ w.shared.getState n ≠ some .starting ∧ w.shared.getState n ≠ some .stopping ∧
      (record n w.trace).inProgress = [] ∧ (record n w.trace).stops = 0 ∧
      (w.shared.getState n = some .running → (record n w.trace).last = some (.finished (.start n) (.ok ())))
  | .willStop _ _ _ =>
    w.shared.getState n = some .stopping ∧ (record n w.trace).inProgress = [] ∧ (record n w.trace).stops = 0
  | .stopWait _ _ _ =>
    w.shared.getState n = some .stopping ∧ (record n w.trace).inProgress = [.stop n] ∧ (record n w.trace).stops = 1
  | .stopEnded _ _ _ _ =>
    w.shared.getState n = some .stopping ∧ (record n w.trace).inProgress = [] ∧ (record n w.trace).stops = 1 ∧
      ∃ e, (record n w.trace).last = some e ∧ e.op = .stop n
  | .sweepError _ _ _ =>
    w.shared.getState n ≠ none ∧ w.shared.getState n ≠ some .running ∧ (record n w.trace).inProgress = [] ∧
      (record n w.trace).stops = 1 ∧ ∃ e, (record n w.trace).last = some e ∧ e.op = .stop n
  | _ => True

/-- The component is the one the event is about. -/
theorem record_add (n : Id) (trace : List (Event Op Outcome)) (e : Event Op Outcome) (h : e.op.id = n) :
    record n (trace ++ [e]) = (record n trace).add e := by rw [record_append, if_pos h]

/-! ## Orders -/

section

variable {id n : Id} {s : Inner} {order : List Id}

/-- The dependencies of each component of a list are running or stand before it. -/
def Covered (s : Inner) (l : List Id) : Prop :=
  ∀ before x after, l = before ++ x :: after → ∀ d, TransGen (DependsOn s.deps) x d → d ∈ before ∨ s.getState d = some .running

/-- The orders that the calls go through are orders of components. -/
theorem Inner.Valid.mem_order (h : s.Valid) (horder : topoOrder s.deps = .ok order) : ∀ n ∈ order, n ∈ s.components := by
  obtain ⟨order', horder', -, hmem⟩ := h.order
  rw [horder] at horder'
  obtain rfl := Except.ok.inj horder'
  exact fun n => (hmem n).mp

theorem Inner.Valid.mem_filter_order (h : s.Valid) {p : Id → Bool} (horder : (topoOrder s.deps).map (filter p) = .ok order) :
    ∀ n ∈ order, n ∈ s.components := by
  obtain ⟨full, hfull, -, hmem⟩ := h.order
  rw [hfull] at horder
  obtain rfl := Except.ok.inj horder
  exact fun n hn => (hmem n).mp (mem_filter.mp hn).1

theorem covered_topoOrder (h : s.Valid) (horder : topoOrder s.deps = .ok order) : Covered s order := by
  obtain ⟨order', horder', htopo, -⟩ := h.order
  rw [horder] at horder'
  obtain rfl := Except.ok.inj horder'
  exact fun before x after hl d hd => .inl (htopo.mem_of_transGen before after hl hd)

theorem covered_startOrderFor (h : s.Valid) (horder : s.startOrderFor id = .ok order) : Covered s order := by
  unfold Inner.startOrderFor at horder
  obtain ⟨full, hfull, htopo, hmem⟩ := h.order
  rw [hfull] at horder
  obtain rfl := Except.ok.inj horder
  intro before x after hl d hd
  beta_reduce at hl
  have hlist := htopo.listing (fun n => n ∈ dependencyClosure s.deps id)
  have hx : x ∈ full.filter (fun n => n ∈ dependencyClosure s.deps id) := by rw [hl]; simp
  obtain ⟨hxfull, hxreach⟩ := (hlist.mem x).mp hx
  have hreach : ReflTransGen (DependsOn s.deps) id d := (mem_dependencyClosure.mp (of_decide_eq_true hxreach)).trans hd.to_reflTransGen
  refine .inl (hlist.first before x after hl d ((hlist.mem d).mpr ⟨?_, decide_eq_true (mem_dependencyClosure.mpr hreach)⟩) hd)
  exact (hmem d).mpr (h.mem_of_reach ((hmem x).mp hxfull) hd.to_reflTransGen)

end

/-! ## One step -/

namespace Phase

/-- The steps in which something happens to a component. -/
inductive Emits : Phase → Phase → Event Op Outcome → Prop where
  | startInvoked : Emits (.claimed n rest) (.startWait n rest) (.invoked (.start n))
  | startFinished : Emits (.startWait n rest) (.startEnded n r rest) (.finished (.start n) r)
  | stopInvoked : Emits (.willStop sweep n rest) (.stopWait sweep n rest) (.invoked (.stop n))
  | stopFinished : Emits (.stopWait sweep n rest) (.stopEnded sweep n r rest) (.finished (.stop n) r)
  | stopDropped : Emits (.stopWait (some first) n rest) (.sweepError (first.or (some (.timeout n))) n rest) (.dropped (.stop n))

/-- The steps in which a call sets the state of the component it holds. -/
inductive Sets : Phase → Phase → Id → ComponentState → Prop where
  | started : Sets (.startEnded n (.ok ()) rest) (.starts rest) n .running
  | startFailed (e : LifecycleError) : Sets (.startEnded n (.error e) rest) (.done (.error (.error e))) n .error
  | stopping : Sets (.mayStop sweep n rest) (.willStop sweep n rest) n .stopping
  | stopped : Sets (.stopEnded sweep n (.ok ()) rest) (.stops sweep rest) n .stopped
  | stopFailed (e : LifecycleError) : Sets (.stopEnded none n (.error e) rest) (.done (.error (.error e))) n .error
  | sweepFailed (e : LifecycleError) :
    Sets (.stopEnded (some first) n (.error e) rest) (.sweepError (first.or (some e)) n rest) n .error
  | swept : Sets (.sweepError first n rest) (.stops (some first) rest) n .error

/-- What a step of a call comes to. -/
inductive Step (w : State) : Phase → Phase → State → Prop where
  | looks (hph : ph.targets = []) (hph' : ph'.targets = []) (hstart : ph.isStart = true → ph'.isStart = true) : Step w ph ph' w
  | starts (hph : ph.targets = []) (hmem : ∀ n ∈ order, n ∈ w.shared.components) (hcovered : Covered w.shared order) :
    Step w ph (.starts order) w
  | stops (hph : ph.targets = []) (hstart : ph.isStart = false) (hmem : ∀ n ∈ order, n ∈ w.shared.components) :
    Step w ph (.stops sweep order) w
  | claims (hclaim : claimable n w.shared = true) :
    Step w (.starts (n :: rest)) (.claimed n rest) ⟨w.shared.setState n .starting, w.trace⟩
  | passes (hclaim : ¬claimable n w.shared = true) : Step w (.starts (n :: rest)) (.starts rest) w
  | finds (hneeds : needsStop n w.shared = true) : Step w (.stops sweep (n :: rest)) (.mayStop sweep n rest) w
  | skips (hneeds : ¬needsStop n w.shared = true) : Step w (.stops sweep (n :: rest)) (.stops sweep rest) w
  | emits (h : Emits ph ph' e) : Step w ph ph' ⟨w.shared, w.trace ++ [e]⟩
  | sets (h : Sets ph ph' n new) : Step w ph ph' ⟨w.shared.transition n new, w.trace⟩

variable {id n : Id} {ph ph' : Phase} {answer : Option Outcome} {w w' : State} {e : Event Op Outcome} {s : Inner}

variable {new : ComponentState}

theorem Step.ofOrder {next : List Id → Phase} {order : Except (Fault LifecycleError) (List Id)} (hph : ph.targets = [])
    (hnext : ∀ l, order = .ok l → Step w ph (next l) w) : Step w ph (ofOrder next order) w := by
  rcases order with e | order
  · exact .looks hph rfl (fun _ => rfl)
  · exact hnext order rfl

theorem step_cases (hstep : ph.step answer w = some (ph', w')) (hvalid : w.shared.Valid)
    (htargets : ∀ n ∈ ph.targets, n ∈ w.shared.components) : Step w ph ph' w' := by
  have hreverse : ∀ order : List Id, (∀ n ∈ order, n ∈ w.shared.components) → ∀ n ∈ order.reverse, n ∈ w.shared.components :=
    fun order h n hn => h n (mem_reverse.mp hn)
  cases ph with
  | begun a =>
    cases a with
    | start id =>
      rw [step] at hstep
      split at hstep <;> cases hstep <;> exact .looks rfl rfl (fun _ => rfl)
    | stop id =>
      rw [step] at hstep
      split at hstep <;> cases hstep <;> exact .looks rfl rfl nofun
    | startAll =>
      cases hstep
      exact .ofOrder rfl (fun l hl => .starts rfl (hvalid.mem_order hl) (covered_topoOrder hvalid hl))
    | stopAll | stopAllWithTimeout =>
      cases hstep
      exact .ofOrder rfl (fun l hl => .stops rfl rfl (hreverse l (hvalid.mem_order hl)))
  | lookedStart id =>
    cases hstep
    exact .ofOrder rfl (fun l hl => .starts rfl (hvalid.mem_filter_order hl) (covered_startOrderFor hvalid hl))
  | lookedStop id =>
    cases hstep
    exact .ofOrder rfl (fun l hl => .stops rfl rfl (hreverse l (hvalid.mem_filter_order hl)))
  | starts rest =>
    rcases rest with _ | ⟨id, rest⟩
    · cases hstep
    rw [step, if_neg (not_not.mpr (htargets id mem_cons_self))] at hstep
    split at hstep <;> cases hstep
    · exact .claims ‹_›
    · exact .passes ‹_›
  | claimed id rest => cases hstep; exact .emits .startInvoked
  | startWait id rest =>
    obtain ⟨r, rfl, heq⟩ := map_eq_some_iff.mp hstep
    cases heq
    exact .emits .startFinished
  | startEnded id r rest =>
    rcases r with e | u <;> cases hstep
    · exact .sets (.startFailed e)
    · exact .sets .started
  | stops sweep rest =>
    rcases rest with _ | ⟨id, rest⟩
    · cases hstep
    rw [step, if_neg (not_not.mpr (htargets id mem_cons_self))] at hstep
    split at hstep <;> cases hstep
    · exact .finds ‹_›
    · exact .skips ‹_›
  | mayStop sweep id rest => cases hstep; exact .sets .stopping
  | willStop sweep id rest => cases hstep; exact .emits .stopInvoked
  | stopWait sweep id rest =>
    rcases answer with _ | r
    · rcases sweep with _ | first <;> cases hstep
      exact .emits .stopDropped
    · cases hstep
      exact .emits .stopFinished
  | stopEnded sweep id r rest =>
    rcases r with e | u
    · rcases sweep with _ | first <;> cases hstep
      · exact .sets (.stopFailed e)
      · exact .sets (.sweepFailed e)
    · cases hstep
      exact .sets .stopped
  | sweepError first id rest => cases hstep; exact .sets .swept
  | done r => cases hstep

theorem holds_eq_none (h : ph.targets = []) : ph.holds = none := by cases ph <;> first | rfl | cases h

theorem Emits.holds (h : Emits ph ph' e) : ph.holds = some e.op.id ∧ ph'.holds = ph.holds ∧ ph'.targets = ph.targets := by
  cases h <;> exact ⟨rfl, rfl, rfl⟩

theorem Sets.holds (h : Sets ph ph' id new) : ph.holds = some id ∧ (ph'.holds = none ∨ ph'.holds = some id) := by
  cases h <;> simp [Phase.holds]

/-- The calls that take hold of a component. -/
theorem engages_cases (h : ph.engages s = some n) :
    (∃ rest, ph = .starts (n :: rest) ∧ claimable n s = true) ∨ ∃ sweep rest, ph = .stops sweep (n :: rest) ∧ needsStop n s = true := by
  unfold engages at h
  split at h
  · split at h <;> cases h
    exact .inl ⟨_, rfl, ‹_›⟩
  · split at h <;> cases h
    exact .inr ⟨_, _, rfl, ‹_›⟩
  · cases h

/-- The component that a call holds or takes hold of with its next step. -/
def concerns (s : Inner) (ph : Phase) (n : Id) : Prop := ph.holds = some n ∨ ph.engages s = some n

theorem concerns.mem_targets (h : ph.concerns s n) : n ∈ ph.targets := by
  rcases h with h | h
  · cases ph <;> first | (obtain rfl := Option.some.inj h; exact mem_cons_self) | cases h
  · rcases engages_cases h with ⟨rest, rfl, -⟩ | ⟨sweep, rest, rfl, -⟩ <;> exact mem_cons_self

theorem getState_transition (h : s.getState id ≠ none) :
    (s.transition id new).getState n = if n = id then some new else s.getState n := by
  rw [Inner.transition_of_some (isSome_iff_ne_none.mpr h), Inner.getState_setState]

theorem transition_eq : s.transition id new = s ∨ s.transition id new = s.setState id new := by
  by_cases h : s.getState id = none
  · refine .inl ?_
    unfold Inner.transition
    rw [show s.watchers.lookup id = none from h]
  · exact .inr (Inner.transition_of_some (isSome_iff_ne_none.mpr h))

/-- What a step does to the manager and the trace: it sets the state of the component the call is concerned with, or something happens
to that component. The call is then concerned with no other. -/
theorem Step.world (h : Step w ph ph' w') :
    (w'.shared = w.shared ∨ ∃ id state, ph.concerns w.shared id ∧ w'.shared = w.shared.setState id state) ∧
    (w'.trace = w.trace ∨ ∃ e, Emits ph ph' e ∧ w'.trace = w.trace ++ [e]) ∧
    (∀ n, ph'.holds = some n → ph.concerns w.shared n) := by
  cases h with
  | looks _ hph' => exact ⟨.inl rfl, .inl rfl, fun n hn => by rw [holds_eq_none hph'] at hn; cases hn⟩
  | starts | stops | passes | skips => exact ⟨.inl rfl, .inl rfl, fun n hn => nomatch hn⟩
  | claims hclaim =>
    exact ⟨.inr ⟨_, .starting, .inr (if_pos hclaim), rfl⟩, .inl rfl, fun n hn => .inr ((if_pos hclaim).trans hn)⟩
  | finds hneeds => exact ⟨.inl rfl, .inl rfl, fun n hn => .inr ((if_pos hneeds).trans hn)⟩
  | emits hemits => exact ⟨.inl rfl, .inr ⟨_, hemits, rfl⟩, fun n hn => .inl (hemits.holds.2.1 ▸ hn)⟩
  | sets hsets =>
    obtain ⟨hholds, hnext⟩ := hsets.holds
    refine ⟨?_, .inl rfl, fun n hn => .inl ?_⟩
    · exact transition_eq.imp id (fun h => ⟨_, _, .inl hholds, h⟩)
    · rcases hnext with hnext | hnext
      · rw [hnext] at hn
        cases hn
      · rw [hholds, ← hnext, hn]

/-- A step leaves alone the components the call is not concerned with. -/
theorem Step.other {m : Id} (h : Step w ph ph' w') (hm : ¬ph.concerns w.shared m) :
    w'.shared.getState m = w.shared.getState m ∧ record m w'.trace = record m w.trace ∧ ph'.holds ≠ some m := by
  obtain ⟨hshared, htrace, hholds⟩ := h.world
  refine ⟨?_, ?_, fun h => hm (hholds m h)⟩
  · rcases hshared with h | ⟨id, state, hid, h⟩
    · rw [h]
    · rw [h, Inner.getState_setState, if_neg (show ¬m = id from fun heq => hm (heq ▸ hid))]
  · rcases htrace with h | ⟨e, he, h⟩
    · rw [h]
    · rw [h, record_append, if_neg (show ¬e.op.id = m from fun heq => hm (.inl (heq ▸ he.holds.1)))]

/-- A step keeps the manager valid, with its components and their dependencies. -/
theorem Step.valid (h : Step w ph ph' w') (htargets : ∀ n ∈ ph.targets, n ∈ w.shared.components) (hvalid : w.shared.Valid) :
    w'.shared.Valid ∧ w'.shared.components = w.shared.components ∧ w'.shared.deps = w.shared.deps := by
  rcases h.world.1 with h | ⟨id, state, hid, h⟩
  · rw [h]
    exact ⟨hvalid, rfl, rfl⟩
  · rw [h]
    exact ⟨hvalid.setState (htargets id hid.mem_targets) state, rfl, rfl⟩

/-- A call goes on to look at components only. -/
theorem Step.targets (h : Step w ph ph' w') (htargets : ∀ n ∈ ph.targets, n ∈ w.shared.components) :
    ∀ n ∈ ph'.targets, n ∈ w.shared.components := by
  have hrest : ∀ {id : Id} {rest : List Id}, (∀ n ∈ id :: rest, n ∈ w.shared.components) → ∀ n ∈ rest, n ∈ w.shared.components :=
    fun h n hn => h n (mem_cons_of_mem _ hn)
  cases h with
  | looks _ hph' => exact fun n hn => absurd (hph' ▸ hn) not_mem_nil
  | starts _ hmem | stops _ _ hmem => exact hmem
  | claims | finds => exact htargets
  | passes | skips => exact hrest htargets
  | emits hemits => exact hemits.holds.2.2 ▸ htargets
  | sets hsets =>
    cases hsets with
    | startFailed | stopFailed => exact fun n hn => nomatch hn
    | stopping | sweepFailed => exact htargets
    | _ => exact hrest htargets

/-! ## The component a call holds -/

/-- A component whose last operation was a stop was not started since. -/
theorem spent_of_stop {stops : Nat} {last : Option (Event Op Outcome)} (h : ∃ e, last = some e ∧ e.op = .stop n) :
    ∀ e, last = some e → e.op = .start n → stops = 0 := by
  obtain ⟨e, rfl, hop⟩ := h
  intro e' he' hop'
  obtain rfl := Option.some.inj he'
  rw [hop] at hop'
  cases hop'

/-- The state in which a call leaves the component it has held. -/
theorem free_transition (hsome : w.shared.getState n ≠ none) (hnew : new ≠ .starting ∧ new ≠ .stopping)
    (hquiet : (record n w.trace).inProgress = [])
    (hrunning : new = .running → (record n w.trace).last = some (.finished (.start n) (.ok ()))) (hstops : (record n w.trace).stops ≤ 1)
    (hspent : ∀ e, (record n w.trace).last = some e → e.op = .start n → (record n w.trace).stops = 0) :
    Free n ⟨w.shared.transition n new, w.trace⟩ := by
  have hstate : (w.shared.transition n new).getState n = some new := (getState_transition hsome).trans (if_pos rfl)
  refine ⟨hquiet, ?_, ?_, ?_, hstops, hspent⟩
  all_goals rw [hstate]
  · exact fun h => hnew.1 (Option.some.inj h)
  · exact fun h => hnew.2 (Option.some.inj h)
  · exact fun h => hrunning (Option.some.inj h)

/-- A step of a call that holds a component: it goes on to hold it, or sets it free. -/
theorem Step.held (h : Step w ph ph' w') (hholds : ph.holds = some n) (hheld : Held n w ph) :
    (ph'.holds = some n ∧ Held n w' ph') ∨ (ph'.holds = none ∧ Free n w') := by
  have hidle : ph.targets ≠ [] := fun hnil => by rw [holds_eq_none hnil] at hholds; cases hholds
  cases h with
  | looks hph | starts hph | stops hph => exact absurd hph hidle
  | @emits _ _ e hemits =>
    have hadd := record_add n w.trace e (Option.some.inj (hemits.holds.1.symm.trans hholds))
    refine .inl ⟨hemits.holds.2.1.trans hholds, ?_⟩
    cases hemits <;> obtain rfl := Option.some.inj hholds
    case startInvoked =>
      obtain ⟨hstate, hquiet, -⟩ := hheld
      exact ⟨hstate, by simp [hadd, Record.add, hquiet]⟩
    case startFinished =>
      obtain ⟨hstate, hopen, hstops⟩ := hheld
      exact ⟨hstate, by simp [hadd, Record.add, hopen, hstops]⟩
    case stopInvoked =>
      obtain ⟨hstate, hquiet, hstops⟩ := hheld
      exact ⟨hstate, by simp [hadd, Record.add, hquiet, hstops]⟩
    case stopFinished =>
      obtain ⟨hstate, hopen, hstops⟩ := hheld
      exact ⟨hstate, by simp [hadd, Record.add, hopen, hstops, Event.op]⟩
    case stopDropped =>
      obtain ⟨hstate, hopen, hstops⟩ := hheld
      simp [Held, hstate, hadd, Record.add, hopen, hstops, Event.op]
  | @sets _ _ id _ hsets =>
    obtain rfl := Option.some.inj (hsets.holds.1.symm.trans hholds)
    have hne {state : ComponentState} (h : w.shared.getState id = some state) : w.shared.getState id ≠ none := by simp [h]
    cases hsets with
    | started =>
      obtain ⟨hstate, hquiet, hstops, hlast⟩ := hheld
      exact .inr ⟨rfl, free_transition (hne hstate) (by decide) hquiet (fun _ => hlast) (by omega) (fun _ _ _ => hstops)⟩
    | startFailed =>
      obtain ⟨hstate, hquiet, hstops, -⟩ := hheld
      exact .inr ⟨rfl, free_transition (hne hstate) (by decide) hquiet nofun (by omega) (fun _ _ _ => hstops)⟩
    | stopping =>
      obtain ⟨hsome, -, -, hquiet, hstops, -⟩ := hheld
      exact .inl ⟨rfl, (getState_transition hsome).trans (if_pos rfl), hquiet, hstops⟩
    | stopped | stopFailed =>
      obtain ⟨hstate, hquiet, hstops, hlast⟩ := hheld
      exact .inr ⟨rfl, free_transition (hne hstate) (by decide) hquiet nofun hstops.le (spent_of_stop hlast)⟩
    | sweepFailed =>
      obtain ⟨hstate, hquiet, hstops, hlast⟩ := hheld
      refine .inl ⟨rfl, ?_, ?_, hquiet, hstops, hlast⟩
      all_goals simp [getState_transition (hne hstate)]
    | swept =>
      obtain ⟨hsome, -, hquiet, hstops, hlast⟩ := hheld
      exact .inr ⟨rfl, free_transition hsome (by decide) hquiet nofun hstops.le (spent_of_stop hlast)⟩
  | _ => cases hholds

/-- A call takes hold of a free component. -/
theorem Step.engages (h : Step w ph ph' w') (hengages : ph.engages w.shared = some n) (hfree : Free n w)
    (hspent : ph.isStarts = true ∨ w.shared.getState n ≠ some .error ∨ ∃ e, (record n w.trace).last = some e ∧ e.op = .start n) :
    ph'.holds = some n ∧ Held n w' ph' := by
  rcases engages_cases hengages with ⟨rest, rfl, hclaim⟩ | ⟨sweep, rest, rfl, hneeds⟩
  · cases h with
    | claims => exact ⟨rfl, (Inner.getState_setState _ _ _ _).trans (if_pos rfl), hfree.quiet, hfree.stops⟩
    | passes hnot => exact absurd hclaim hnot
    | _ h => cases h
  · obtain ⟨state, hget, hstate⟩ := state_of_needsStop hneeds
    change w.shared.getState n = some state at hget
    cases h with
    | finds =>
      refine ⟨rfl, by rw [hget]; exact some_ne_none _, hfree.starting, hfree.stopping, hfree.quiet, ?_, hfree.running⟩
      -- It is running, or in error after a start: no stop was invoked since the last start.
      cases state with
      | running => exact hfree.unspent _ (hfree.running hget) rfl
      | error =>
        obtain ⟨e, he, hop⟩ := (hspent.resolve_left Bool.false_ne_true).resolve_left (not_not.mpr hget)
        exact hfree.unspent e he hop
      | unknown => exact absurd (.inr rfl) hstate
      | stopped => exact absurd (.inl rfl) hstate
      | starting => exact absurd hget hfree.starting
      | stopping => exact absurd hget hfree.stopping
    | skips hnot => exact absurd hneeds hnot
    | _ h => cases h

end Phase

end Ferroly.Lifecycle
