import Ferroly.Codec.Json
import Ferroly.Http.Server

/-!
# Health checks

The registry of named checks and the two endpoints that serve it. A check reads and changes the state `σ` of the program, so it may
answer differently each time it runs. `Probed` notes the positions of the checks that ran.
-/

namespace Ferroly.Lifecycle

inductive HealthStatus where
  | up
  | degraded
  | down
  deriving DecidableEq, Repr

/-- The wire name. -/
def HealthStatus.asStr : HealthStatus → Str
  | up => "up".toList
  | degraded => "degraded".toList
  | down => "down".toList

/-- How a character of a name is escaped, if it is. -/
def escapeOf (c : Char) : Option Str :=
  if c = '"' then some ['\\', '"']
  else if c = '\\' then some ['\\', '\\']
  else if c = '\n' then some ['\\', 'n']
  else if c = '\r' then some ['\\', 'r']
  else if c = '\t' then some ['\\', 't']
  else if c.toNat < 0x20 then some ('\\' :: 'u' :: Json.hex4 c.toNat)
  else none

def escapeJsonInto (out : Str) : Str → Str
  | [] => out
  | c :: s => escapeJsonInto (out ++ (escapeOf c).getD [c]) s

/-- The state of the program, and the positions of the checks that ran. -/
structure Probed (σ : Type) where
  state : σ
  ran : List Nat

structure HealthRegistry (σ : Type) where
  checks : List (Str × (σ → HealthStatus × σ))

namespace HealthRegistry

variable {σ : Type}

/-- Run the checks from position `i` on. -/
def reportFrom (i : Nat) : List (Str × (σ → HealthStatus × σ)) → Probed σ → List (Str × HealthStatus) × Probed σ
  | [], w => ([], w)
  | (name, check) :: checks, w =>
    let (status, state) := check w.state
    let (report, w) := reportFrom (i + 1) checks ⟨state, w.ran ++ [i]⟩
    ((name, status) :: report, w)

def report (r : HealthRegistry σ) : Probed σ → List (Str × HealthStatus) × Probed σ := reportFrom 0 r.checks

/-- The loop of `overall`. -/
def overallLoop (worst : HealthStatus) : List (Str × HealthStatus) → HealthStatus
  | [] => worst
  | (_, .down) :: _ => .down
  | (_, .degraded) :: report => overallLoop .degraded report
  | (_, .up) :: report => overallLoop worst report

def overall (r : HealthRegistry σ) (w : Probed σ) : HealthStatus × Probed σ :=
  let (report, w) := r.report w
  (overallLoop .up report, w)

def isReady (r : HealthRegistry σ) (w : Probed σ) : Bool × Probed σ :=
  let (report, w) := r.report w
  (report.all fun e => e.2 == .up, w)

/-- The aggregate of `to_json`, one status further. -/
def worsen (overall : HealthStatus) (e : Str × HealthStatus) : HealthStatus :=
  match overall, e.2 with
  | _, .down => .down
  | .up, .degraded => .degraded
  | overall, _ => overall

/-- The entries of `to_json`, the next one at position `i`. -/
def entriesLoop (s : Str) (i : Nat) : List (Str × HealthStatus) → Str
  | [] => s
  | (name, status) :: report =>
    let s := if i > 0 then s ++ [','] else s
    entriesLoop (escapeJsonInto (s ++ ['"']) name ++ "\":\"".toList ++ status.asStr ++ ['"']) (i + 1) report

/-- The text of a report. -/
def jsonText (report : List (Str × HealthStatus)) : Str :=
  let overall := report.foldl worsen .up
  entriesLoop ("\x7b\"overall\":\"".toList ++ overall.asStr ++ "\",\"checks\":\x7b".toList) 0 report ++ "\x7d\x7d".toList

def toJson (r : HealthRegistry σ) (w : Probed σ) : Str × Probed σ :=
  let (report, w) := r.report w
  (jsonText report, w)

open Http

/-- The handler of `/health`. -/
def health (r : HealthRegistry σ) (w : Probed σ) : HttpResponse × Probed σ :=
  let (overall, w) := r.overall w
  let code := if overall = .down then StatusCode.SERVICE_UNAVAILABLE else StatusCode.OK
  let (body, w) := r.toJson w
  ({ (HttpResponse.new code).header "content-type".toList "application/json".toList with body := utf8 body }, w)

/-- The handler of `/ready`. -/
def ready (r : HealthRegistry σ) (w : Probed σ) : HttpResponse × Probed σ :=
  let (up, w) := r.isReady w
  (if up then .text StatusCode.OK "ready".toList else .text StatusCode.SERVICE_UNAVAILABLE "not ready".toList, w)

end HealthRegistry

end Ferroly.Lifecycle
