import Ferroly.Lemmas.Crowd

/-!
# Runs of calls beside each other

What every careful turn keeps: a component is held by one call at most, and its state and what has happened to it fit what that call
is doing. And what every turn of starts keeps: the dependencies of a component that is still to be started are running or to be
started before it.
-/

namespace Ferroly.Lifecycle

open Relation List

variable {c : Crowd} {id n : Id} {s : Inner} {answer : Option Outcome} {ph ph' : Phase} {w w' : State}

/-- A step of a call, if it can make one. -/
theorem Crowd.turn_step (c : Crowd) (i : Nat) (answer : Option Outcome) :
    c.turn (.step i answer) = c ∨ ∃ ph ph' w', c.phases[i]? = some ph ∧ ph.step answer c.world = some (ph', w') ∧
      c.turn (.step i answer) = ⟨w', c.phases.set i ph'⟩ := by
  rw [Crowd.turn]
  rcases hi : c.phases[i]? with _ | ph
  · exact .inl rfl
  · rcases hstep : ph.step answer c.world with _ | ⟨ph', w'⟩
    · exact .inl (by simp only [hstep])
    · exact .inr ⟨ph, ph', w', rfl, hstep, by simp only [hstep]⟩

/-! ## Careful turns -/

/-- The calls hold different components, and each component fits what its call is doing. -/
structure Orderly (c : Crowd) : Prop where
  valid : c.world.shared.Valid
  targets : ∀ ph ∈ c.phases, ∀ n ∈ ph.targets, n ∈ c.world.shared.components
  one : ∀ (i j : Nat) (ph ph' : Phase) (n : Id), c.phases[i]? = some ph → c.phases[j]? = some ph' → ph.holds = some n → ph'.holds = some n → i = j
  held : ∀ ph ∈ c.phases, ∀ n, ph.holds = some n → Held n c.world ph
  free : ∀ n, (∀ ph ∈ c.phases, ph.holds ≠ some n) → Free n c.world

/-- What is known of a component depends on its state and its record only. -/
theorem Free.congr (h : Free n w) (hstate : w'.shared.getState n = w.shared.getState n)
    (hrecord : record n w'.trace = record n w.trace) : Free n w' := by
  obtain ⟨h1, h2, h3, h4, h5, h6⟩ := h
  rw [← hstate] at h2 h3 h4
  rw [← hrecord] at h1 h4 h5 h6
  exact ⟨h1, h2, h3, h4, h5, h6⟩

theorem Held.congr (h : Held n w ph) (hstate : w'.shared.getState n = w.shared.getState n)
    (hrecord : record n w'.trace = record n w.trace) : Held n w' ph := by
  unfold Held at h ⊢
  rw [hstate, hrecord]
  exact h

variable (es : List Edit)

theorem orderly_start : Orderly (Crowd.start es) := by
  obtain ⟨hvalid, hunknown⟩ := Inner.valid_edits es
  refine ⟨hvalid, nofun, ?_, nofun, fun n _ => ?_⟩
  · intro i j ph ph' n hi
    cases hi
  · refine ⟨rfl, fun h => ?_, fun h => ?_, fun h => ?_, Nat.zero_le 1, fun _ _ _ => rfl⟩
    all_goals cases hunknown n _ h

theorem Orderly.ask (h : Orderly c) (a : Ask) : Orderly (c.turn (.ask a)) := by
  have hmem : ∀ ph ∈ c.phases ++ [.begun a], ph ∈ c.phases ∨ ph = .begun a := fun ph hph => by simpa using hph
  have hget : ∀ (i : Nat) (ph : Phase) (n : Id), (c.phases ++ [.begun a])[i]? = some ph → ph.holds = some n → c.phases[i]? = some ph := by
    intro i ph n hi hn
    rw [getElem?_append] at hi
    split at hi
    · exact hi
    · obtain rfl := mem_singleton.mp (mem_of_getElem? hi)
      cases hn
  refine ⟨h.valid, fun ph hph => ?_, fun i j ph ph' n hi hj hn hn' => ?_, fun ph hph n hn => ?_, fun n hn => ?_⟩
  · rcases hmem ph hph with hph | rfl
    · exact h.targets ph hph
    · exact fun n hn => nomatch hn
  · exact h.one i j ph ph' n (hget i ph n hi hn) (hget j ph' n hj hn') hn hn'
  · rcases hmem ph hph with hph | rfl
    · exact h.held ph hph n hn
    · cases hn
  · exact h.free n (fun ph hph => hn ph (mem_append_left _ hph))

variable {i : Nat}

/-- One call goes on to another phase. Each component is left alone, or is this call's alone and fits the new phase. -/
theorem Orderly.set (h : Orderly c) (hi : c.phases[i]? = some ph) (hvalid : w'.shared.Valid)
    (hcomponents : w'.shared.components = c.world.shared.components) (htargets : ∀ n ∈ ph'.targets, n ∈ c.world.shared.components) (hkeep : ∀ m,
      (w'.shared.getState m = c.world.shared.getState m ∧ record m w'.trace = record m c.world.trace ∧
        ph.holds ≠ some m ∧ ph'.holds ≠ some m) ∨
      ((∀ (j : Nat) (q : Phase), j ≠ i → c.phases[j]? = some q → q.holds ≠ some m) ∧
        (ph'.holds = some m ∧ Held m w' ph' ∨ ph'.holds ≠ some m ∧ Free m w')))
    : Orderly ⟨w', c.phases.set i ph'⟩ := by
  have hlt : i < c.phases.length := (List.getElem?_eq_some_iff.mp hi).1
  have hself : (c.phases.set i ph')[i]? = some ph' := getElem?_set_self hlt
  have hne : ∀ j, j ≠ i → (c.phases.set i ph')[j]? = c.phases[j]? := fun j hj => getElem?_set_ne (Ne.symm hj)
  have hat : ∀ j q, (c.phases.set i ph')[j]? = some q → (j = i ∧ q = ph') ∨ (j ≠ i ∧ c.phases[j]? = some q) := by
    intro j q hq
    by_cases hj : j = i
    · subst hj
      rw [hself] at hq
      exact .inl ⟨rfl, (Option.some.inj hq).symm⟩
    · rw [hne j hj] at hq
      exact .inr ⟨hj, hq⟩
  refine ⟨hvalid, fun q hq n hn => ?_, fun j k q q' m hj hk hq hq' => ?_, fun q hmem m hq => ?_, fun m hm => ?_⟩
  · rw [hcomponents]
    rcases mem_or_eq_of_mem_set hq with hq | rfl
    · exact h.targets q hq n hn
    · exact htargets n hn
  · rcases hkeep m with ⟨-, -, -, hnot⟩ | ⟨hone, -⟩
    · rcases hat j q hj with ⟨-, rfl⟩ | ⟨-, hj⟩
      · exact absurd hq hnot
      · rcases hat k q' hk with ⟨-, rfl⟩ | ⟨-, hk⟩
        · exact absurd hq' hnot
        · exact h.one j k q q' m hj hk hq hq'
    · have hmust : ∀ l p, (c.phases.set i ph')[l]? = some p → p.holds = some m → l = i := by
        intro l p hl hp
        rcases hat l p hl with ⟨hli, -⟩ | ⟨hli, hl⟩
        · exact hli
        · exact absurd hp (hone l p hli hl)
      exact (hmust j q hj hq).trans (hmust k q' hk hq').symm
  · obtain ⟨j, hj⟩ := mem_iff_getElem?.mp hmem
    rcases hkeep m with ⟨hstate, hrecord, -, hnot⟩ | ⟨hone, hfits⟩
    · rcases hat j q hj with ⟨-, rfl⟩ | ⟨-, hj⟩
      · exact absurd hq hnot
      · exact (h.held q (mem_of_getElem? hj) m hq).congr hstate hrecord
    · rcases hat j q hj with ⟨-, rfl⟩ | ⟨hji, hj⟩
      · rcases hfits with ⟨-, hheld⟩ | ⟨hnot, -⟩
        · exact hheld
        · exact absurd hq hnot
      · exact absurd hq (hone j q hji hj)
  · rcases hkeep m with ⟨hstate, hrecord, hnot, -⟩ | ⟨-, hfits⟩
    · refine (h.free m (fun q hq hqm => ?_)).congr hstate hrecord
      obtain ⟨j, hj⟩ := mem_iff_getElem?.mp hq
      by_cases hji : j = i
      · subst hji
        rw [hi] at hj
        obtain rfl := Option.some.inj hj
        exact hnot hqm
      · exact hm q (mem_of_getElem? ((hne j hji).trans hj)) hqm
    · rcases hfits with ⟨hholds, -⟩ | ⟨-, hfree⟩
      · exact absurd hholds (hm ph' (mem_of_getElem? hself))
      · exact hfree

theorem Orderly.step_cases (h : Orderly c) (hmem : ph ∈ c.phases) (hstep : ph.step answer c.world = some (ph', w')) :
    Phase.Step c.world ph ph' w' := Phase.step_cases hstep h.valid (h.targets ph hmem)

/-- A step of a call that takes hold of a free component only keeps the order. -/
theorem Orderly.step (h : Orderly c) (hcareful : c.careful (.step i answer) = true) : Orderly (c.turn (.step i answer)) := by
  rcases c.turn_step i answer with hsame | ⟨ph, ph', w', hi, hstep, hturn⟩
  · rw [hsame]
    exact h
  rw [hturn]
  have hmem := mem_of_getElem? hi
  have htargets := h.targets ph hmem
  have hph := h.step_cases hmem hstep
  obtain ⟨hvalid, hcomponents, -⟩ := hph.valid htargets h.valid
  refine h.set hi hvalid hcomponents (hph.targets htargets) (fun m => ?_)
  by_cases hm : ph.concerns c.world.shared m
  · refine .inr ?_
    rcases hm with hholds | hengages
    · refine ⟨fun j q hj hq hqm => hj (h.one j i q ph m hq hi hqm hholds), ?_⟩
      rcases hph.held hholds (h.held ph hmem m hholds) with hnext | ⟨hnone, hfree⟩
      · exact .inl hnext
      · exact .inr ⟨by rw [hnone]; exact (Option.some_ne_none m).symm, hfree⟩
    · unfold Crowd.careful at hcareful
      simp only [hi, hengages, Bool.and_eq_true, all_eq_true, decide_eq_true_eq, Bool.or_eq_true] at hcareful
      obtain ⟨hnone, hspent⟩ := hcareful
      refine ⟨fun j q _ hq => hnone q (mem_of_getElem? hq), .inl ?_⟩
      refine hph.engages hengages (h.free m hnone) ?_
      rcases hspent with (hstarts | herror) | hlast
      · exact .inl hstarts
      · exact .inr (.inl herror)
      · rcases he : (record m c.world.trace).last with _ | e
        · rw [he] at hlast
          cases hlast
        · rw [he] at hlast
          exact .inr (.inr ⟨e, rfl, of_decide_eq_true hlast⟩)
  · obtain ⟨hstate, hrecord, hnot⟩ := hph.other hm
    exact .inl ⟨hstate, hrecord, fun hholds => hm (.inl hholds), hnot⟩

theorem Orderly.turn (h : Orderly c) (t : Turn) (hcareful : c.careful t = true) : Orderly (c.turn t) := by
  cases t with
  | ask a => exact h.ask a
  | step i answer => exact h.step hcareful

/-- What the order means for a component: at most one stop was invoked since its last start, a start and a stop are not both in
progress, and if it is running the last thing that happened to it is that it started. -/
def Disciplined (n : Id) (w : State) : Prop :=
  (record n w.trace).stops ≤ 1 ∧ ¬(.start n ∈ (record n w.trace).inProgress ∧ .stop n ∈ (record n w.trace).inProgress) ∧
    (w.shared.getState n = some .running → (record n w.trace).last = some (.finished (.start n) (.ok ())))

theorem Held.disciplined (h : Held n w ph) (hholds : ph.holds = some n) : Disciplined n w := by
  unfold Disciplined
  cases ph with
  | claimed id rest | startWait id rest | willStop sweep id rest | stopWait sweep id rest => simp [h.1, h.2.1, h.2.2]
  | startEnded id r rest | stopEnded sweep id r rest => simp [h.1, h.2.1, h.2.2.1]
  | mayStop sweep id rest =>
    obtain ⟨-, -, -, hquiet, hstops, hrunning⟩ := h
    refine ⟨hstops.le.trans (Nat.zero_le 1), ?_, hrunning⟩
    simp [hquiet]
  | sweepError first id rest =>
    obtain ⟨-, hrunning, hquiet, hstops, -⟩ := h
    simp [hrunning, hquiet, hstops]
  | _ => cases hholds

theorem Orderly.disciplined (h : Orderly c) (n : Id) : Disciplined n c.world := by
  by_cases hheld : ∃ ph ∈ c.phases, ph.holds = some n
  · obtain ⟨ph, hph, hholds⟩ := hheld
    exact (h.held ph hph n hholds).disciplined hholds
  · have hfree := h.free n (fun ph hph hholds => hheld ⟨ph, hph, hholds⟩)
    refine ⟨hfree.stops, ?_, hfree.running⟩
    simp [hfree.quiet]

/-- What each turn keeps under a condition, a run of such turns keeps. -/
theorem Crowd.invariant_of_throughout {P : Crowd → Prop} {cond : Crowd → Turn → Bool}
    (hturn : ∀ c t, P c → cond c t = true → P (c.turn t)) {ts : List Turn} (h : P c) (hall : c.throughout cond ts = true) :
    P (c.turns ts) := by
  induction ts generalizing c with
  | nil => exact h
  | cons t ts ih =>
    rw [Crowd.throughout, Bool.and_eq_true] at hall
    exact ih (hturn c t h hall.1) hall.2

/-! ## Starts beside each other -/

theorem Covered.mono {s' : Inner} {l : List Id} (h : Covered s l) (hdeps : s'.deps = s.deps)
    (hrunning : ∀ d, s.getState d = some .running → s'.getState d = some .running) : Covered s' l := by
  intro before x after hl d hd
  rw [hdeps] at hd
  exact (h before x after hl d hd).imp_right (hrunning d)

/-- The first component of the list is dealt with: it is running, or none of the others depends on it. -/
theorem Covered.tail {rest : List Id} (h : Covered s (id :: rest))
    (hid : s.getState id = some .running ∨ ∀ x ∈ rest, ¬TransGen (DependsOn s.deps) x id) : Covered s rest := by
  intro before x after hl d hd
  rcases h (id :: before) x after (by rw [hl, cons_append]) d hd with hmem | hrunning
  · rcases mem_cons.mp hmem with rfl | hmem
    · rcases hid with hrunning | hnone
      · exact .inr hrunning
      · exact absurd hd (hnone x (by rw [hl]; simp))
    · exact .inl hmem
  · exact .inr hrunning

/-- All calls are starts, what each has still to start is covered, and a component that was started is running or about to be. -/
structure Queued (c : Crowd) : Prop where
  orderly : Orderly c
  starts : ∀ ph ∈ c.phases, ph.isStart = true
  covered : ∀ ph ∈ c.phases, Covered c.world.shared ph.targets
  started : ∀ n, .finished (.start n) (.ok ()) ∈ c.world.trace →
    c.world.shared.getState n = some .running ∨ ∃ ph ∈ c.phases, ∃ rest, ph = .startEnded n (.ok ()) rest

/-- A component held by a start is starting. -/
theorem Held.starting (h : Held n w ph) (hstart : ph.isStart = true) (hholds : ph.holds = some n) :
    w.shared.getState n = some .starting := by
  cases ph with
  | claimed id rest | startWait id rest | startEnded id r rest => exact h.1
  | _ => first | exact absurd hstart Bool.false_ne_true | cases hholds

theorem Queued.careful (h : Queued c) (t : Turn) : c.careful t = true := by
  cases t with
  | ask a => rfl
  | step i answer =>
    unfold Crowd.careful
    rcases hi : c.phases[i]? with _ | ph
    · simp only [hi]
    rcases hengages : ph.engages c.world.shared with _ | n
    · simp only [hi, hengages]
    simp only [hi, hengages, Bool.and_eq_true, all_eq_true, decide_eq_true_eq, Bool.or_eq_true]
    have hmem := mem_of_getElem? hi
    rcases Phase.engages_cases hengages with ⟨rest, rfl, hclaim⟩ | ⟨sweep, rest, rfl, -⟩
    · refine ⟨fun q hq hholds => ?_, .inl (.inl rfl)⟩
      have hn := h.orderly.targets q hq n (Phase.concerns.mem_targets (s := c.world.shared) (.inl hholds))
      exact ((claimable_iff h.orderly.valid hn).mp hclaim).2 ((h.orderly.held q hq n hholds).starting (h.starts q hq) hholds)
    · cases h.starts _ hmem

/-- A component that is running stays so. -/
theorem Queued.running (h : Queued c) (hmem : ph ∈ c.phases) (hstep : ph.step answer c.world = some (ph', w')) {d : Id}
    (hd : c.world.shared.getState d = some .running) : w'.shared.getState d = some .running := by
  have htargets := h.orderly.targets ph hmem
  by_cases hconcerns : ph.concerns c.world.shared d
  · rcases hconcerns with hholds | hengages
    · rw [(h.orderly.held ph hmem d hholds).starting (h.starts ph hmem) hholds] at hd
      cases hd
    · rcases Phase.engages_cases hengages with ⟨rest, rfl, hclaim⟩ | ⟨sweep, rest, rfl, -⟩
      · exact absurd hd ((claimable_iff h.orderly.valid (htargets d mem_cons_self)).mp hclaim).1
      · cases h.starts _ hmem
  · rw [((h.orderly.step_cases hmem hstep).other hconcerns).1, hd]

/-- One step of a start: it goes on with what is covered, if it waits for what the others depend on. -/
theorem Queued.step_phase (h : Queued c) (hi : c.phases[i]? = some ph) (hstep : ph.step answer c.world = some (ph', w'))
    (hwaits : c.waits (.step i answer) = true) : ph'.isStart = true ∧ Covered w'.shared ph'.targets := by
  have hmem := mem_of_getElem? hi
  have hstart := h.starts ph hmem
  have htargets := h.orderly.targets ph hmem
  have hph := h.orderly.step_cases hmem hstep
  have hcovered : Covered w'.shared ph.targets :=
    (h.covered ph hmem).mono (hph.valid htargets h.orderly.valid).2.2 (fun d hd => h.running hmem hstep hd)
  have hnil : ∀ s, Covered s [] := fun s before x after hl => absurd hl (by simp)
  cases hph with
  | looks _ hph' hnext => exact ⟨hnext hstart, hph' ▸ hnil _⟩
  | starts _ _ horder => exact ⟨rfl, horder⟩
  | stops _ hnot =>
    rw [hnot] at hstart
    cases hstart
  | claims => exact ⟨rfl, hcovered⟩
  | @passes id rest hclaim =>
    refine ⟨rfl, hcovered.tail ?_⟩
    by_cases hrunning : c.world.shared.getState id = some .running
    · exact .inl hrunning
    · have hstarting : c.world.shared.getState id = some .starting := by
        by_contra hnot
        exact hclaim ((claimable_iff h.orderly.valid (htargets id mem_cons_self)).mpr ⟨hrunning, hnot⟩)
      refine .inr (fun x hx hreach => ?_)
      simp only [Crowd.waits, hi, hstarting, ne_eq, not_true_eq_false, decide_false, Bool.false_or, all_eq_true,
        decide_eq_true_eq] at hwaits
      exact hwaits x hx (mem_dependencyClosure.mpr hreach.to_reflTransGen)
  | emits hemits =>
    cases hemits <;> first | exact ⟨rfl, hcovered⟩ | cases hstart
  | sets hsets =>
    cases hsets with
    | started =>
      refine ⟨rfl, hcovered.tail (.inl ?_)⟩
      have hheld := h.orderly.held _ hmem _ rfl
      rw [Phase.getState_transition (by rw [hheld.1]; exact Option.some_ne_none _), if_pos rfl]
    | startFailed => exact ⟨rfl, hnil _⟩
    | _ => cases hstart
  | _ => cases hstart

/-- What has been started is running, or about to be. -/
theorem Queued.step_started (h : Queued c) (hi : c.phases[i]? = some ph) (hstep : ph.step answer c.world = some (ph', w'))
    (hn : .finished (.start n) (.ok ()) ∈ w'.trace) :
    w'.shared.getState n = some .running ∨ ∃ q ∈ c.phases.set i ph', ∃ rest, q = .startEnded n (.ok ()) rest := by
  have hmem := mem_of_getElem? hi
  have hlt : i < c.phases.length := (List.getElem?_eq_some_iff.mp hi).1
  have hself : ph' ∈ c.phases.set i ph' := mem_of_getElem? (getElem?_set_self hlt)
  -- A start that has ended is about to set the state, or does so now.
  have hold : .finished (.start n) (.ok ()) ∈ c.world.trace →
      w'.shared.getState n = some .running ∨ ∃ q ∈ c.phases.set i ph', ∃ rest, q = .startEnded n (.ok ()) rest := by
    intro hold
    rcases h.started n hold with hrunning | ⟨q, hq, rest, rfl⟩
    · exact .inl (h.running hmem hstep hrunning)
    · obtain ⟨j, hj⟩ := mem_iff_getElem?.mp hq
      by_cases hji : j = i
      · subst hji
        rw [hi] at hj
        obtain rfl := Option.some.inj hj
        obtain ⟨rfl, rfl⟩ := Prod.mk.inj (Option.some.inj hstep)
        have hheld := h.orderly.held _ hmem n rfl
        exact .inl (by rw [Phase.getState_transition (by rw [hheld.1]; exact Option.some_ne_none _), if_pos rfl])
      · exact .inr ⟨_, mem_of_getElem? ((getElem?_set_ne (Ne.symm hji)).trans hj), rest, rfl⟩
  rcases (h.orderly.step_cases hmem hstep).world.2.1 with hsame | ⟨e, hemits, htrace⟩
  · exact hold (hsame ▸ hn)
  · rw [htrace] at hn
    rcases mem_append.mp hn with hn | hn
    · exact hold hn
    · obtain rfl := mem_singleton.mp hn
      cases hemits
      exact .inr ⟨_, hself, _, rfl⟩

theorem Queued.turn (h : Queued c) (t : Turn) (hstart : ∀ a, t = .ask a → a.isStart = true) (hwaits : c.waits t = true) :
    Queued (c.turn t) := by
  have horderly := h.orderly.turn t (h.careful t)
  cases t with
  | ask a =>
    have hmem : ∀ ph ∈ c.phases ++ [.begun a], ph ∈ c.phases ∨ ph = .begun a := fun ph hph => by simpa using hph
    refine ⟨horderly, fun ph hph => ?_, fun ph hph => ?_, fun n hn => ?_⟩
    · rcases hmem ph hph with hph | rfl
      · exact h.starts ph hph
      · exact hstart a rfl
    · rcases hmem ph hph with hph | rfl
      · exact h.covered ph hph
      · exact fun before x after hl => absurd hl (by simp [Phase.targets])
    · rcases h.started n hn with hrunning | ⟨q, hq, hrest⟩
      · exact .inl hrunning
      · exact .inr ⟨q, mem_append_left _ hq, hrest⟩
  | step i answer =>
    rcases c.turn_step i answer with hsame | ⟨ph, ph', w', hi, hstep, hturn⟩
    · rw [hsame]
      exact h
    rw [hturn] at horderly ⊢
    have hph := mem_of_getElem? hi
    obtain ⟨hstart', hcovered'⟩ := h.step_phase hi hstep hwaits
    obtain ⟨-, -, hdeps⟩ := (h.orderly.step_cases hph hstep).valid (h.orderly.targets ph hph) h.orderly.valid
    refine ⟨horderly, fun q hq => ?_, fun q hq => ?_, fun n hn => h.step_started hi hstep hn⟩
    · rcases mem_or_eq_of_mem_set hq with hq | rfl
      · exact h.starts q hq
      · exact hstart'
    · rcases mem_or_eq_of_mem_set hq with hq | rfl
      · exact (h.covered q hq).mono hdeps (fun d hd => h.running hph hstep hd)
      · exact hcovered'

theorem queued_start : Queued (Crowd.start es) :=
  ⟨orderly_start es, nofun, nofun, nofun⟩

/-- Starts beside each other that wait for what the others depend on. -/
theorem queued_turns {ts : List Turn} (hstarts : ∀ a, .ask a ∈ ts → a.isStart = true)
    (hwaits : (Crowd.start es).throughout Crowd.waits ts = true) : Queued ((Crowd.start es).turns ts) := by
  suffices ∀ c, Queued c → c.throughout Crowd.waits ts = true → Queued (c.turns ts) from this _ (queued_start es) hwaits
  clear hwaits
  induction ts with
  | nil => exact fun c h _ => h
  | cons t ts ih =>
    intro c h hall
    rw [Crowd.throughout, Bool.and_eq_true] at hall
    refine ih (fun a ha => hstarts a (mem_cons_of_mem _ ha)) (c.turn t) (h.turn t (fun a ha => hstarts a ?_) hall.1) hall.2
    rw [ha]
    exact mem_cons_self

end Ferroly.Lifecycle
