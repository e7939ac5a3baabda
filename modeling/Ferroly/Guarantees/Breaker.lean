import Ferroly.Lemmas.Breaker
import Mathlib.Algebra.BigOperators.Group.List.Basic

/-!
# Trials of a half-open breaker

While the breaker is half-open its counters are about the trials of the current episode, as long as only these report success. Reports
do not say which call they are about: one of a call that was admitted earlier is counted as one of a trial.
-/

namespace Ferroly.Clients

open List

variable {w : Callers} {cfg : CircuitBreakerConfig}

/-! ## What the counters count -/

/-- Episodes are numbered, and while the breaker is half-open its counters are about the current one. -/
structure Counted (cfg : CircuitBreakerConfig) (w : Callers) : Prop where
  calls : ∀ e, some e ∈ w.calls → e ≤ w.episode
  reports : ∀ e s, (some e, s) ∈ w.reports → e ≤ w.episode
  inFlight : w.breaker.circuit = .halfOpen → w.breaker.halfOpenInFlight = w.trials w.episode
  few : w.breaker.circuit = .halfOpen → w.breaker.halfOpenInFlight ≤ cfg.maxHalfOpen
  successes : w.breaker.circuit = .halfOpen → w.breaker.successes = w.wins w.episode

theorem counted_new (cfg : CircuitBreakerConfig) : Counted cfg .new :=
  ⟨fun e he => (by cases he), fun e s he => (by cases he), nofun, nofun, nofun⟩

/-- Nothing is known of an episode that has not begun. -/
theorem Counted.fresh (h : Counted cfg w) : w.trials (w.episode + 1) = 0 ∧ w.wins (w.episode + 1) = 0 := by
  refine ⟨List.count_eq_zero.mpr ?_, List.count_eq_zero.mpr ?_⟩
  · intro hmem
    exact Nat.not_succ_le_self _ (h.calls _ hmem)
  · intro hmem
    exact Nat.not_succ_le_self _ (h.reports _ _ hmem)

theorem count_eraseIdx {α : Type} [BEq α] [LawfulBEq α] {l : List α} {i : Nat} {a : α} (h : l[i]? = some a) (b : α) :
    (l.eraseIdx i).count b + (if a == b then 1 else 0) = l.count b := by
  obtain ⟨hi, rfl⟩ := List.getElem?_eq_some_iff.mp h
  rw [← (getElem_cons_eraseIdx_perm hi).count_eq b, count_cons]

/-- The calls and reports of the episodes so far, after a caller was admitted. -/
theorem Counted.admitted (h : Counted cfg w) {b : CircuitBreaker} :
    (∀ e, some e ∈ (w.admitted b).calls → e ≤ (w.admitted b).episode) ∧
      ∀ e s, (some e, s) ∈ (w.admitted b).reports → e ≤ (w.admitted b).episode := by
  have hle : w.episode ≤ (w.admitted b).episode := by
    unfold Callers.admitted
    dsimp only
    split <;> omega
  refine ⟨?_, fun e s hmem => Nat.le_trans (h.reports e s hmem) hle⟩
  intro e hmem
  rcases mem_append.mp hmem with hmem | hmem
  · exact Nat.le_trans (h.calls e hmem) hle
  · have heq := mem_singleton.mp hmem
    split at heq
    · cases heq
      exact Nat.le_refl _
    · cases heq

/-! ## Steps and runs -/

theorem Counted.ask (hmax : 1 ≤ cfg.maxHalfOpen) (h : Counted cfg w) (now : Nat) : Counted cfg (w.step cfg (.ask now)) := by
  rw [Callers.step]
  obtain ⟨hcircuit, heq⟩ | ⟨hcircuit, -, heq⟩ | ⟨hcircuit, hroom, heq⟩ | ⟨-, heq⟩ := w.breaker.canExecute_cases cfg now
  all_goals rw [heq]
  · have hnot : w.breaker.circuit ≠ .halfOpen := by rw [hcircuit]; exact nofun
    exact ⟨h.admitted.1, h.admitted.2, fun hopen => absurd hopen hnot, fun hopen => absurd hopen hnot, fun hopen => absurd hopen hnot⟩
  · -- A new episode begins, with one trial.
    refine ⟨h.admitted.1, h.admitted.2, ?_, fun _ => hmax, ?_⟩
    · intro _
      have hnone := h.fresh.1
      unfold Callers.trials at *
      simp only [Callers.admitted, hcircuit, if_true, count_append, count_singleton_self, hnone]
    · intro _
      simp only [Callers.admitted, hcircuit]
      exact h.fresh.2.symm
  · refine ⟨h.admitted.1, h.admitted.2, ?_, fun _ => hroom, ?_⟩
    · intro _
      have hflight := h.inFlight hcircuit
      unfold Callers.trials at *
      simp only [Callers.admitted, hcircuit, reduceCtorEq, if_true, if_false, count_append, count_singleton_self, hflight]
    · intro _
      simp only [Callers.admitted, hcircuit]
      exact h.successes hcircuit
  · exact h

/-- What a report does while the breaker is half-open: it closes, it trips, or a success of the current episode is counted. -/
theorem onExecution_halfOpen {s : CircuitBreaker} {now : Nat} {success : Bool}
    (h : (s.onExecution cfg now success).circuit = .halfOpen) :
    success = true ∧ s.circuit = .halfOpen ∧
      s.onExecution cfg now success = { s with halfOpenInFlight := s.halfOpenInFlight - 1, successes := s.successes + 1 } := by
  have hstep := s.step_call cfg (.onExecution success now)
  rw [CircuitBreaker.call] at hstep
  generalize s.onExecution cfg now success = s' at *
  cases hstep with
  | won hc => exact ⟨rfl, hc, rfl⟩
  | fine hc | failed hc | stray hc | refresh hc => cases hc.symm.trans h
  | trip | reopen | close => cases h

theorem Counted.report (h : Counted cfg w) {i now : Nat} {success : Bool} (htimely : w.timely (.report i success now) = true) :
    Counted cfg (w.step cfg (.report i success now)) := by
  rw [Callers.step]
  rcases he : w.calls[i]? with _ | e
  · exact h
  have hmem : e ∈ w.calls := mem_of_getElem? he
  -- A report that leaves the breaker half-open is one of a trial of this episode.
  have hown : (w.breaker.onExecution cfg now success).circuit = .halfOpen →
      success = true ∧ w.breaker.circuit = .halfOpen ∧ e = some w.episode := by
    intro hopen
    obtain ⟨rfl, hcircuit, -⟩ := onExecution_halfOpen hopen
    refine ⟨rfl, hcircuit, ?_⟩
    simpa [Callers.timely, hcircuit, he] using htimely
  refine ⟨fun e' hmem' => h.calls e' (mem_of_mem_eraseIdx hmem'), ?_, ?_, ?_, ?_⟩
  · intro e' s hmem'
    rcases mem_append.mp hmem' with hmem' | hmem'
    · exact h.reports e' s hmem'
    · cases mem_singleton.mp hmem'
      exact h.calls e' hmem
  · intro hopen
    obtain ⟨-, hcircuit, rfl⟩ := hown hopen
    have hcount := count_eraseIdx he (some w.episode)
    have hflight := h.inFlight hcircuit
    rw [(onExecution_halfOpen hopen).2.2]
    unfold Callers.trials at *
    rw [beq_self_eq_true, if_pos rfl] at hcount
    dsimp only
    omega
  · intro hopen
    have hfew := h.few (hown hopen).2.1
    rw [(onExecution_halfOpen hopen).2.2]
    dsimp only
    omega
  · intro hopen
    obtain ⟨rfl, hcircuit, rfl⟩ := hown hopen
    rw [(onExecution_halfOpen hopen).2.2]
    unfold Callers.wins
    rw [count_append, count_singleton_self]
    exact congrArg (· + 1) (h.successes hcircuit)

theorem Counted.step (hmax : 1 ≤ cfg.maxHalfOpen) (h : Counted cfg w) {a : CallerStep} (htimely : w.timely a = true) :
    Counted cfg (w.step cfg a) := by
  cases a with
  | ask now => exact h.ask hmax now
  | report i success now => exact h.report htimely

theorem Counted.run (hmax : 1 ≤ cfg.maxHalfOpen) {steps : List CallerStep} (h : Counted cfg w)
    (htimely : w.allTimely cfg steps = true) : Counted cfg (w.run cfg steps) := by
  induction steps generalizing w with
  | nil => exact h
  | cons a steps ih =>
    obtain ⟨ha, hsteps⟩ := Bool.and_eq_true_iff.mp htimely
    exact ih (h.step hmax ha) hsteps

/-- The breaker closes with enough successes of the episode's own trials. -/
theorem Counted.closes (h : Counted cfg w) {a : CallerStep} (htimely : w.timely a = true) (hopen : w.breaker.circuit = .halfOpen)
    (hclosed : (w.step cfg a).breaker.circuit = .closed) : cfg.successThreshold ≤ (w.step cfg a).wins w.episode := by
  cases a with
  | ask now =>
    rw [Callers.step] at hclosed
    obtain ⟨hcircuit, -⟩ | ⟨hcircuit, -⟩ | ⟨-, -, heq⟩ | ⟨-, heq⟩ := w.breaker.canExecute_cases cfg now
    · exact absurd (hcircuit.symm.trans hopen) nofun
    · exact absurd (hcircuit.symm.trans hopen) nofun
    · rw [heq] at hclosed
      exact absurd (hopen.symm.trans hclosed) nofun
    · rw [heq] at hclosed
      exact absurd (hopen.symm.trans hclosed) nofun
  | report i success now =>
    rw [Callers.step] at hclosed ⊢
    rcases he : w.calls[i]? with _ | e
    · rw [he] at hclosed
      rw [hopen] at hclosed
      cases hclosed
    · rw [he] at hclosed
      have hstep := w.breaker.step_call cfg (.onExecution success now)
      rw [CircuitBreaker.call] at hstep
      generalize w.breaker.onExecution cfg now success = s' at *
      cases hstep with
      | close _ hmany =>
        have hown : e = some w.episode := by simpa [Callers.timely, hopen, he] using htimely
        have hwins := h.successes hopen
        unfold Callers.wins at *
        rw [hown, count_append, count_singleton_self]
        omega
      | fine hc | failed hc | stray hc | refresh hc => exact absurd (hc.symm.trans hopen) nofun
      | won hc => exact absurd (hc.symm.trans hclosed) nofun
      | trip | reopen => cases hclosed

/-- If no success is reported late, that is of a call that is no trial of the current episode while the breaker is half-open, then in
every run there are never more trials in flight than allowed, and the breaker closes only after enough of them succeeded. -/
theorem half_open_probing (cfg : CircuitBreakerConfig) (hmax : 1 ≤ cfg.maxHalfOpen) (steps : List CallerStep)
    (htimely : Callers.new.allTimely cfg steps = true) :
    ((Callers.new.run cfg steps).breaker.circuit = .halfOpen →
        (Callers.new.run cfg steps).trials (Callers.new.run cfg steps).episode ≤ cfg.maxHalfOpen) ∧
      ∀ a, (Callers.new.run cfg steps).timely a = true → (Callers.new.run cfg steps).breaker.circuit = .halfOpen →
        ((Callers.new.run cfg steps).step cfg a).breaker.circuit = .closed →
          cfg.successThreshold ≤ ((Callers.new.run cfg steps).step cfg a).wins (Callers.new.run cfg steps).episode := by
  have h := Counted.run hmax (counted_new cfg) htimely
  refine ⟨?_, fun a ha hopen hclosed => h.closes ha hopen hclosed⟩
  intro hopen
  rw [← h.inFlight hopen]
  exact h.few hopen

/-- One failure trips the breaker, and two successes close it again. -/
def twiceToClose : CircuitBreakerConfig := ⟨1, 2, 1, 10⟩

/-- A call fails, and after the cooldown there are two trials, one after the other. -/
def oneByOne : List CallerStep := [.ask 0, .report 0 false 0, .ask 10, .report 0 true 11, .ask 12]

theorem half_open_probing_oneByOne : 1 ≤ twiceToClose.maxHalfOpen ∧ Callers.new.allTimely twiceToClose oneByOne = true ∧
      ((Callers.new.run twiceToClose oneByOne).breaker.circuit = .halfOpen →
        (Callers.new.run twiceToClose oneByOne).trials (Callers.new.run twiceToClose oneByOne).episode ≤ twiceToClose.maxHalfOpen) ∧
      ∀ a, (Callers.new.run twiceToClose oneByOne).timely a = true → (Callers.new.run twiceToClose oneByOne).breaker.circuit = .halfOpen →
        ((Callers.new.run twiceToClose oneByOne).step twiceToClose a).breaker.circuit = .closed → twiceToClose.successThreshold ≤
            ((Callers.new.run twiceToClose oneByOne).step twiceToClose a).wins (Callers.new.run twiceToClose oneByOne).episode :=
  ⟨Nat.le_refl 1, rfl, half_open_probing twiceToClose (Nat.le_refl 1) oneByOne rfl⟩

/-- Two calls begin, the second fails, and the first succeeds when a trial is already under way: another trial is admitted. -/
def lateSuccess : List CallerStep := [.ask 0, .ask 0, .report 1 false 0, .ask 10, .report 0 true 11, .ask 12]

/-- With one trial allowed two are in flight, and the success of one of them closes the breaker although two are asked for. -/
theorem late_success_counts : (Callers.new.run twiceToClose lateSuccess).breaker.circuit = .halfOpen ∧
      (Callers.new.run twiceToClose lateSuccess).trials (Callers.new.run twiceToClose lateSuccess).episode = 2 ∧
      ((Callers.new.run twiceToClose lateSuccess).step twiceToClose (.report 0 true 13)).breaker.circuit = .closed ∧
      ((Callers.new.run twiceToClose lateSuccess).step twiceToClose (.report 0 true 13)).wins
        (Callers.new.run twiceToClose lateSuccess).episode = 1 :=
  ⟨rfl, rfl, rfl, rfl⟩

end Ferroly.Clients
