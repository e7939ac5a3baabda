import Ferroly.Genai.Router

/-!
# What the model router decides

The fate of each candidate, and what follows from the fates of all of them; and when what was asked of the breakers is told to them.
-/

namespace Ferroly.Genai

variable {α : Type}

/-! ## Fates -/

/-- What becomes of a candidate. -/
inductive Fate (α : Type) where
  /-- The deadline had passed before it was its turn. -/
  | expired
  | unregistered
  /-- Its breaker did not admit it. -/
  | refused
  /-- It was tried, and the deadline struck. -/
  | late
  /-- It was tried, and this was the outcome. -/
  | answered (result : Except GenAiError α)

namespace Fate

/-- The result that a candidate settles: a success, an error that another model would have too, or that the deadline has passed. -/
def settles : Fate α → Option (Except RouterError α)
  | .expired => some (.error .deadlineExceeded)
  | .late => some (.error .deadlineExceeded)
  | .answered (.ok v) => some (.ok v)
  | .answered (.error e) => if isRetryable e none then none else some (.error (.genAi e))
  | _ => none

/-- The error of a candidate that was tried. -/
def error? : Fate α → Option GenAiError
  | .answered (.error e) => some e
  | _ => none

end Fate

/-- The result, from the fates of the candidates in order: that of the first one that settles it, or else all that were tried have
failed. -/
def verdict (fates : List (Fate α)) : Except RouterError α :=
  match fates.findSome? Fate.settles with
  | some result => result
  | none =>
    match (fates.filterMap Fate.error?).getLast? with
    | some e => .error (.allRoutesFailed (fates.filterMap Fate.error?).length e)
    | none => .error (.noRoute "no attemptable candidate (providers unregistered)".toList)

/-! ## What is recorded of a candidate -/

section Told

variable (r : DefaultRouter) (task : RoutingTask) (request : CompletionRequest) (reportsLate : Bool) (c : Candidate)

/-- The deadline was looked at, and had not passed. -/
inductive InTime : List (Event α) → Prop where
  | unbounded (h : task.deadline = none) : InTime []
  | before (now dl : Nat) (h : task.deadline = some dl) (hlt : now < dl) : InTime [.read now]

/-- The candidate was admitted by its breaker, if there is one, and tried, with some calls of its provider. -/
def attempted (n : Nat) (outcome : Option (Except GenAiError α)) : List (Event α) :=
  (if r.breakerCfg.isSome then [.admitted (DefaultRouter.breakerKey c)] else []) ++ [.dispatched c] ++
    List.replicate n (.called c.provider (r.prepare task request c)) ++ [.ended outcome]

/-- The breaker, if there is one, is told how it went. -/
def reports (success : Bool) : List (Event α) :=
  if r.breakerCfg.isSome then [.reported (DefaultRouter.breakerKey c) success] else []

/-- What is recorded of a candidate with a fate. -/
inductive Told : Fate α → List (Event α) → Prop where
  | expired (now dl : Nat) (h : task.deadline = some dl) (hle : dl ≤ now) : Told .expired [.read now]
  | unregistered (es : List (Event α)) (hes : InTime task es) (h : c.provider ∉ r.providers) : Told .unregistered es
  | refused (es : List (Event α)) (hes : InTime task es) (h : c.provider ∈ r.providers) (hb : r.breakerCfg.isSome) :
    Told .refused (es ++ [.refused (DefaultRouter.breakerKey c)])
  | late (es : List (Event α)) (n : Nat) (hes : InTime task es) (h : c.provider ∈ r.providers) (hdl : task.deadline.isSome) :
    Told .late (es ++ (attempted r task request c n none ++ if reportsLate then reports r c false else []))
  | answered (es : List (Event α)) (n : Nat) (result : Except GenAiError α) (hes : InTime task es) (h : c.provider ∈ r.providers) :
    Told (.answered result) (es ++ (attempted r task request c n (some result) ++ reports r c result.isOk))

end Told

/-- The candidates in order, each with its fate and what is recorded of it, up to the first one that settles the result. -/
inductive Course (told : Candidate → Fate α → List (Event α) → Prop) : List Candidate → List (Fate α) → List (Event α) → Prop where
  | done : Course told [] [] []
  | stop (c : Candidate) (cs : List Candidate) (f : Fate α) (es : List (Event α)) (ht : told c f es) (hf : f.settles.isSome = true) :
    Course told (c :: cs) [f] es
  | go (c : Candidate) (cs : List Candidate) (f : Fate α) (fs : List (Fate α)) (es es' : List (Event α)) (ht : told c f es)
    (hf : f.settles = none) (h : Course told cs fs es') : Course told (c :: cs) (f :: fs) (es ++ es')

/-- The candidate that is dispatched. -/
def Event.dispatch? : Event α → Option Candidate
  | .dispatched c => some c
  | _ => none

/-! ## Breakers -/

/-- The key that is admitted and not yet reported after an event, if all was in order so far: nothing is admitted before the last was
reported, and only what was admitted is reported. -/
def pairing : Option (Option Str) → Event α → Option (Option Str)
  | some none, .admitted k => some (some k)
  | some (some k), .reported k' _ => if k = k' then some none else none
  | some (some _), .admitted _ => none
  | some none, .reported _ _ => none
  | o, _ => o

/-- Each admission is followed by exactly one report on the same breaker. -/
def paired (es : List (Event α)) : Prop := es.foldl pairing (some none) = some none

/-- When the clock was last read, after an event. -/
def reading (o : Option Nat) : Event α → Option Nat
  | .read now => some now
  | _ => o

def lastRead (es : List (Event α)) : Option Nat := es.foldl reading none

/-- Every call of a provider that begins before the deadline ends by then. -/
def Env.inTime (env : Env α) (dl : Nat) : Prop :=
  ∀ log provider request now, lastRead log = some now → now < dl →
    ∃ d, (env.reply log provider request).took = some d ∧ now + d ≤ dl

end Ferroly.Genai
