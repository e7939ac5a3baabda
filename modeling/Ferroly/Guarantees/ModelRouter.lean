import Ferroly.Lemmas.Failover

/-!
# The model router

Failover over a route, and what the breakers are told; with the stream that is cut off by the deadline, of which the breaker hears
nothing.
-/

namespace Ferroly.Genai

open Clients

variable {α : Type}

/-! ## Failover -/

/-- A router with one provider, whose breaker trips after one failure and allows one trial after a while. -/
def oneProvider : DefaultRouter := ⟨["p".toList], fun _ _ => none, none, some ⟨1, 1, 1, 10⟩⟩

/-- Providers that answer with a value after some time, if at all. -/
def answering (took : Option Nat) : Env Nat := ⟨fun _ => 0, fun _ breakers => breakers, fun _ _ _ => ⟨took, .ok 7⟩⟩

def oneModel : Route := ⟨⟨"p".toList, "m".toList⟩, []⟩

def plainRequest : CompletionRequest := ⟨"m".toList, none, none⟩

/-- A world in which the breaker of the one model has been open since the beginning. -/
def breakerOpen (now : Nat) : World Nat := ⟨now, AList.singleton "p/m".toList (CircuitBreaker.trip 0 .new), []⟩

/-- Each admission of a candidate is followed by one report on the same breaker before execution returns. For a stream this holds if
there are no breakers, or no call that is made before the deadline is cut off by it. -/
theorem admissions_reported (r : DefaultRouter) (env : Env α) (task : RoutingTask) (request : CompletionRequest) (route : Route)
    (w : World α) :
    ((r.execute env task request route w).1 ≠ .error .diverge →
        ∃ es, (r.execute env task request route w).2.log = w.log ++ es ∧ paired es) ∧
      ((r.breakerCfg = none ∨ ∀ dl, task.deadline = some dl → env.inTime dl) →
        (r.executeStream env task request route w).1 ≠ .error .diverge →
          ∃ es, (r.executeStream env task request route w).2.log = w.log ++ es ∧ paired es) := by
  refine ⟨?_, ?_⟩
  · intro hreturns
    rcases execute_concludes r env task request route w with ⟨-, hdiverge⟩ | ⟨fs, es, w', hcourse, hlog, -, hrun⟩
    · exact absurd hdiverge hreturns
    · rw [hrun]
      exact ⟨es, hlog, hcourse.paired (fun c f es htold _ => htold.paired (fun _ => .inl rfl))⟩
  · intro hcond hreturns
    rcases executeStream_concludes r env task request route w with ⟨-, hdiverge⟩ | ⟨fs, es, w', hcourse, hlog, hprompt, hrun⟩
    · exact absurd hdiverge hreturns
    · rw [hrun]
      refine ⟨es, hlog, ?_⟩
      refine hcourse.paired (fun c f es htold hmem => htold.paired (fun hf => ?_))
      subst hf
      refine .inr (hcond.resolve_right (fun htime => ?_))
      exact hprompt (prompt_complete env task htime) hmem

/-- Providers that answer when a time comes. -/
def answeringAt (t : Nat) : Env Nat :=
  ⟨fun _ => 0, fun _ breakers => breakers, fun log _ _ => ⟨(lastRead log).map (t - ·), .ok 7⟩⟩

theorem inTime_answeringAt (t : Nat) : (answeringAt t).inTime t := by
  intro log p req now hread hlt
  refine ⟨t - now, congrArg (Option.map (t - ·)) hread, by omega⟩

theorem admissions_reported_oneModel :
    (∃ es, (oneProvider.execute (answering none) ⟨[], some 15⟩ plainRequest oneModel (breakerOpen 10)).2.log = (breakerOpen 10).log ++ es ∧
        paired es) ∧
      ∃ es, (oneProvider.executeStream (answeringAt 15) ⟨[], some 15⟩ plainRequest oneModel (breakerOpen 10)).2.log =
        (breakerOpen 10).log ++ es ∧ paired es := by
  have hlate : (oneProvider.execute (answering none) ⟨[], some 15⟩ plainRequest oneModel (breakerOpen 10)).1 =
      .error (.error .deadlineExceeded) := rfl
  have hok : (oneProvider.executeStream (answeringAt 15) ⟨[], some 15⟩ plainRequest oneModel (breakerOpen 10)).1 = .ok 7 := rfl
  refine ⟨?_, ?_⟩
  · exact (admissions_reported oneProvider (answering none) ⟨[], some 15⟩ plainRequest oneModel (breakerOpen 10)).1 (by rw [hlate]; exact nofun)
  · refine (admissions_reported oneProvider (answeringAt 15) ⟨[], some 15⟩ plainRequest oneModel (breakerOpen 10)).2 (.inr ?_)
      (by rw [hok]; exact nofun)
    rintro dl ⟨⟩
    exact inTime_answeringAt 15

/-- A stream is cut off by the deadline. The trial that its breaker admitted is not reported, and the breaker never admits another. -/
theorem cut_off_stream_leaks : (oneProvider.executeStream (answering none) ⟨[], some 15⟩ plainRequest oneModel (breakerOpen 10)).1 =
        .error (.error .deadlineExceeded) ∧
      ((oneProvider.executeStream (answering none) ⟨[], some 15⟩ plainRequest oneModel (breakerOpen 10)).2.log.foldl pairing (some none) =
        some (some "p/m".toList)) ∧
      ∃ b, (oneProvider.executeStream (answering none) ⟨[], some 15⟩ plainRequest oneModel (breakerOpen 10)).2.breakers.lookup "p/m".toList =
          some b ∧ ∀ now, (b.canExecute ⟨1, 1, 1, 10⟩ now).1 = .error ⟨⟩ :=
  ⟨rfl, rfl, _, rfl, fun _ => rfl⟩

end Ferroly.Genai
