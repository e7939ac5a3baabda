import Ferroly.Turbo.Router

/-!
# What routing is for

The parts of a path against the segments of a route, who answers a request, and which methods a path has, stated without the loops that
compute them.
-/

namespace Ferroly.Turbo

open Http

variable {σ : Type}

/-- A segment of a route and a part of a path. -/
def Seg.Fits : Seg → Str → Prop
  | .static s, part => s = part
  | .param _, _ => True

/-- A route matches a path: segment by segment, and in its trailing slash if that counts. -/
def Route.Matches (route : Route σ) (strict : Bool) (path : Str) : Prop :=
  (strict = true → route.trailingSlash = Turbo.trailingSlash path) ∧ List.Forall₂ Seg.Fits route.segments (pathParts path)

/-- A route serves a request. -/
def Route.Serves (route : Route σ) (strict : Bool) (req : Request) : Prop :=
  route.Matches strict req.uri.path ∧ req.method ∈ route.methods

/-- Filters called in order, each on the state the one before has left, up to the first that answers. -/
inductive Asked (ctx : Ctx) : List (Filter σ) → σ → Option HttpResponse → σ → Prop
  | done (s : σ) : Asked ctx [] s none s
  | answers {f : Filter σ} {fs : List (Filter σ)} {s s' : σ} {resp : HttpResponse} (h : f ctx s = (some resp, s')) :
    Asked ctx (f :: fs) s (some resp) s'
  | passes {f : Filter σ} {fs : List (Filter σ)} {s s' s'' : σ} {answer : Option HttpResponse} (h : f ctx s = (none, s'))
    (hmore : Asked ctx fs s' answer s'') : Asked ctx (f :: fs) s answer s''

end Ferroly.Turbo
