import Ferroly.Rest.Server
import Mathlib.Data.List.TakeWhile

/-!
# Runs of the REST server

The handler is there exactly until the first start.
-/

namespace Ferroly.Rest

open Lifecycle List

variable {calls : List Call}

variable {η : Type} {id : Id} {handler : η}

/-- What is known of a server after some calls. -/
structure Reached (id : Id) (handler : η) (calls : List Call) (s : Server η) : Prop where
  id : s.id = id
  fresh : (∀ c ∈ calls, c.isStart = false) → s.handler = some handler ∧ s.running = none
  used : (∃ c ∈ calls, c.isStart = true) → s.handler = none

theorem reached_after (calls : List Call) : Reached id handler calls (after calls (.build id handler)) := by
  induction calls using reverseRecOn with
  | nil => exact ⟨rfl, fun _ => ⟨rfl, rfl⟩, fun ⟨c, hc, _⟩ => absurd hc not_mem_nil⟩
  | append_singleton calls c ih =>
    obtain ⟨hid, hfresh, hused⟩ := ih
    rw [after, foldl_append, foldl_cons]
    change Reached id handler (calls ++ [c]) (c.run (after calls (.build id handler))).2
    generalize after calls (.build id handler) = s at hid hfresh hused ⊢
    rcases c with b | _
    · have hnone : (s.start b).2.handler = none ∧ (s.start b).2.id = id := by
        rw [Server.start]
        rcases hh : s.handler with _ | h
        · exact ⟨hh, hid⟩
        · rcases b with a | e | e <;> exact ⟨rfl, hid⟩
      refine ⟨hnone.2, fun h => ?_, fun _ => hnone.1⟩
      exact absurd (h (.start b) (mem_append_right _ (mem_singleton.mpr rfl))) (Bool.noConfusion)
    · refine ⟨hid, fun h => ?_, ?_⟩
      · exact ⟨(hfresh (fun c hc => h c (mem_append_left _ hc))).1, rfl⟩
      · rintro ⟨c, hc, hstart⟩
        rcases mem_append.mp hc with hc | hc
        · exact hused ⟨c, hc, hstart⟩
        · rw [mem_singleton.mp hc] at hstart
          cases hstart

variable {b : Bind}

/-- The first start does what its bind comes to. -/
theorem start_first (h : ∀ c ∈ calls, c.isStart = false) : (Server.start b (after calls (.build id handler))).1 = (match b with
      | .bound _ => .ok ()
      | .refused e => .error (.componentFailure id e)
      | .unnamed e => .error (.componentFailure id e)) := by
  obtain ⟨hid, hfresh, -⟩ := @reached_after _ id handler calls
  rw [Server.start, (hfresh h).1]
  rcases b with a | e | e
  · rfl
  · simp only [hid]
  · simp only [hid]

/-- Every later start fails and changes nothing. -/
theorem start_again (h : ∃ c ∈ calls, c.isStart = true) :
    Server.start b (after calls (.build id handler)) = (.error (.componentAlreadyStarted id), after calls (.build id handler)) := by
  obtain ⟨hid, -, hused⟩ := @reached_after _ id handler calls
  rw [Server.start, hused h]
  simp only [hid]

/-! ## Serving -/

variable {s : Server η}

theorem after_snoc (c : Call) : after (calls ++ [c]) s = (c.run (after calls s)).2 := by
  rw [after, foldl_append]
  rfl

theorem servesAfter_stop : servesAfter (calls ++ [.stop]) = false := by
  rw [servesAfter, dropWhile_append]
  generalize calls.dropWhile (fun c => !c.isStart) = rest
  rcases rest with _ | ⟨c, more⟩
  · rfl
  · rcases c with (a | e | e) | _
    · simp [Call.isStart]
    · rfl
    · rfl
    · rfl

theorem servesAfter_first (h : ∀ c ∈ calls, c.isStart = false) :
    servesAfter (calls ++ [.start b]) = (match b with | .bound _ => true | _ => false) := by
  have hdrop : calls.dropWhile (fun c => !c.isStart) = [] := by
    rw [dropWhile_eq_nil_iff]
    intro c hc
    rw [h c hc]
    rfl
  rw [servesAfter, dropWhile_append, hdrop]
  rcases b with a | e | e <;> rfl

theorem servesAfter_again (h : ∃ c ∈ calls, c.isStart = true) : servesAfter (calls ++ [.start b]) = servesAfter calls := by
  rw [servesAfter, servesAfter, dropWhile_append]
  rcases hdrop : calls.dropWhile (fun c => !c.isStart) with _ | ⟨c, more⟩
  · rw [dropWhile_eq_nil_iff] at hdrop
    obtain ⟨c, hc, hstart⟩ := h
    have hnot := hdrop c hc
    rw [hstart] at hnot
    cases hnot
  · rw [hdrop, isEmpty_cons]
    rcases c with (a | e | e) | _
    · simp [Call.isStart]
    · rfl
    · rfl
    · rfl

/-- A server serves exactly after a first start that was bound, until the next stop. -/
theorem running_after : (after calls (.build id handler)).running.isSome = servesAfter calls := by
  induction calls using reverseRecOn with
  | nil => rfl
  | append_singleton calls c ih =>
    rw [after_snoc]
    rcases c with b | _
    · by_cases hstarts : ∃ c ∈ calls, c.isStart = true
      · rw [servesAfter_again hstarts, ← ih, Call.run, start_again hstarts]
      · have hnone : ∀ c ∈ calls, c.isStart = false := by
          intro c hc
          rw [← Bool.not_eq_true]
          exact fun h => hstarts ⟨c, hc, h⟩
        obtain ⟨-, hfresh, -⟩ := @reached_after _ id handler calls
        obtain ⟨hhandler, hrunning⟩ := hfresh hnone
        rw [servesAfter_first hnone, Call.run, Server.start, hhandler]
        rcases b with a | e | e
        · rfl
        · simp only [hrunning]
          rfl
        · simp only [hrunning]
          rfl
    · rw [servesAfter_stop]
      rfl

/-! ## A manager -/

/-- What a manager asks for comes to calls of the component. -/
theorem Ask.run_calls (a : Ask) (state : ComponentState) : (a.run (state, s)).2.2 = after (a.calls state) s := by
  rcases a with b | _
  · rw [Ask.run, Ask.calls]
    by_cases h : state = .running ∨ state = .starting
    · rw [if_pos h, if_pos h]
      rfl
    · rw [if_neg h, if_neg h]
      rw [after, foldl_cons, Call.run]
      rcases s.start b with ⟨_ | _, s'⟩ <;> rfl
  · rw [Ask.run, Ask.calls]
    by_cases h : state = .stopped ∨ state = .unknown
    · rw [if_pos h, if_pos h]
      rfl
    · rw [if_neg h, if_neg h]
      rfl

/-- A managed server is a server after the calls that the manager has made. -/
theorem managed_after (asks : List Ask) : ∃ calls, (managed asks (.unknown, s)).2 = after calls s := by
  induction asks using reverseRecOn with
  | nil => exact ⟨[], rfl⟩
  | append_singleton asks a ih =>
    obtain ⟨calls, hcalls⟩ := ih
    rw [managed, foldl_append, foldl_cons]
    change ∃ calls, (a.run (managed asks (.unknown, s))).2.2 = after calls s
    generalize managed asks (.unknown, s) = m at hcalls ⊢
    rcases m with ⟨state, t⟩
    refine ⟨calls ++ a.calls state, ?_⟩
    rw [Ask.run_calls, after, after, foldl_append, show t = after calls s from hcalls]
    rfl

end Ferroly.Rest
