import Ferroly.Lemmas.RestServer

/-!
# Starting and stopping a REST server

A server has its handler once: the first start takes it, whatever its bind comes to.
-/

namespace Ferroly.Rest

open Lifecycle

variable {η : Type}

/-- For every sequence of starts and stops and all that binds come to. The first start fails exactly if its bind does, with the error of
the bind; every later one fails as already started and changes nothing, whether the server runs or not; the server serves after a first
start that was bound, until the next stop. And a manager's asks come to such a sequence. -/
theorem server_starts_once (id : Id) (handler : η) (calls : List Call) (b : Bind) (asks : List Ask) :
    ((∀ c ∈ calls, c.isStart = false) → (Server.start b (after calls (.build id handler))).1 = (match b with
          | .bound _ => .ok ()
          | .refused e => .error (.componentFailure id e)
          | .unnamed e => .error (.componentFailure id e))) ∧
      ((∃ c ∈ calls, c.isStart = true) →
        Server.start b (after calls (.build id handler)) = (.error (.componentAlreadyStarted id), after calls (.build id handler))) ∧
      (after calls (.build id handler)).running.isSome = servesAfter calls ∧
      ∃ made, (managed asks (.unknown, .build id handler)).2 = after made (.build id handler) :=
  ⟨fun h => start_first h, fun h => start_again h, running_after, managed_after asks⟩

/-- A first start that is bound, and one after it. -/
theorem server_starts_once_bound : (Server.start (.bound "a".toList) (after [.stop] (.build "s".toList ()))).1 = .ok () ∧
      (Server.start (.bound "b".toList) (after [.start (.bound "a".toList), .stop] (.build "s".toList ()))).1 =
        .error (.componentAlreadyStarted "s".toList) := by
  refine ⟨(server_starts_once "s".toList () [.stop] (.bound "a".toList) []).1 (by decide), ?_⟩
  rw [(server_starts_once "s".toList () [.start (.bound "a".toList), .stop] (.bound "b".toList) []).2.1 ⟨_, List.mem_cons_self, rfl⟩]

/-- After a start whose bind was refused, and after a stop, the server does not run and a start that would be bound fails. -/
theorem later_start_fails : (after [.start (.refused "in use".toList)] (Server.build "s".toList ())).running = none ∧
      (Server.start (.bound "a".toList) (after [.start (.refused "in use".toList)] (.build "s".toList ()))).1 =
        .error (.componentAlreadyStarted "s".toList) ∧
      (after [.start (.bound "a".toList), .stop] (Server.build "s".toList ())).running = none ∧
      (Server.start (.bound "a".toList) (after [.start (.bound "a".toList), .stop] (.build "s".toList ()))).1 =
        .error (.componentAlreadyStarted "s".toList) :=
  ⟨rfl, rfl, rfl, rfl⟩

end Ferroly.Rest
