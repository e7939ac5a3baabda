import Ferroly.Http.Server

/-!
# The router

Routes, filters and groups, and what happens to a request: middlewares, the authenticator, the filters and the handler of the first
route that matches. Handlers and filters are the application's; they act on a state `σ` of its own.
-/

namespace Ferroly.Turbo

open Http

variable {σ : Type}

/-! ## Context -/

/-- The parameters captured from a path, by name. -/
abbrev Params := List (Str × Str)

/-- Bind a parameter; a later value replaces an earlier one. -/
def Params.insert (ps : Params) (name value : Str) : Params := ps.filter (fun p => p.1 != name) ++ [(name, value)]

/-- What handlers and filters get. -/
structure Ctx where
  request : Request
  params : Params
  deriving DecidableEq

def Ctx.path (ctx : Ctx) : Str := ctx.request.uri.path

/-- A captured path parameter. -/
def Ctx.param (ctx : Ctx) (name : Str) : Option Str := (ctx.params.find? (fun p => p.1 == name)).map Prod.snd

abbrev Handler (σ : Type) := Ctx → StateM σ HttpResponse

abbrev Filter (σ : Type) := Ctx → StateM σ (Option HttpResponse)

abbrev Middleware (σ : Type) := Ctx → (Ctx → StateM σ HttpResponse) → StateM σ HttpResponse

/-! ## Patterns -/

inductive Seg where
  | static (s : Str)
  | param (name : Str)
  deriving DecidableEq, Repr

/-- The parts of a path between slashes that are not empty. -/
def pathParts (path : Str) : List Str := (split '/' path).filter (fun s => s ≠ [])

def parsePattern (path : Str) : List Seg :=
  (pathParts path).map (fun s =>
    match s with
    | ':' :: name => .param name
    | _ => .static s)

/-- The loop of `match_path` over segments and parts. -/
def matchLoop : Params → List Seg → List Str → Option Params
  | params, .static s :: segs, part :: parts => if s ≠ part then none else matchLoop params segs parts
  | params, .param name :: segs, part :: parts => matchLoop (params.insert name part) segs parts
  | params, _, _ => some params

/-- Match a path and capture its parameters. -/
def matchPath (segments : List Seg) (path : Str) : Option Params :=
  if (pathParts path).length ≠ segments.length then none else matchLoop [] segments (pathParts path)

/-- Whether a path has a slash at its end, other than `/` alone. -/
def trailingSlash (path : Str) : Bool := (utf8 path).length > 1 && path.getLast? == some '/'

/-! ## Building -/

structure Route (σ : Type) where
  methods : List Method
  segments : List Seg
  trailingSlash : Bool
  handler : Handler σ

/-- A route for a pattern. -/
def Route.new (path : Str) (handler : Handler σ) (methods : List Method) : Route σ :=
  ⟨methods, parsePattern path, Turbo.trailingSlash path, handler⟩

structure Router (σ : Type) where
  routes : List (Route σ)
  filters : List (Filter σ)
  auth : Option (Filter σ)
  middlewares : List (Middleware σ)
  notFound : Option (Handler σ)
  methodNotAllowed : Option (Handler σ)
  strictSlash : Bool

/-- Routes under a shared path prefix and their filters. -/
structure Group (σ : Type) where
  pathPrefix : Str
  routes : List (Route σ)
  filters : List (Filter σ)

namespace Group

/-- An empty group; slashes at the end of the prefix are dropped. -/
def new (pathPrefix : Str) : Group σ := ⟨pathPrefix.rdropWhile (· == '/'), [], []⟩

def full (g : Group σ) (path : Str) : Str := g.pathPrefix ++ path

def register (g : Group σ) (path : Str) (handler : Handler σ) (methods : List Method) : Group σ :=
  { g with routes := g.routes ++ [Route.new (g.full path) handler methods] }

def get (g : Group σ) (path : Str) (handler : Handler σ) : Group σ := g.register path handler [.get]

def post (g : Group σ) (path : Str) (handler : Handler σ) : Group σ := g.register path handler [.post]

def put (g : Group σ) (path : Str) (handler : Handler σ) : Group σ := g.register path handler [.put]

def delete (g : Group σ) (path : Str) (handler : Handler σ) : Group σ := g.register path handler [.delete]

def patch (g : Group σ) (path : Str) (handler : Handler σ) : Group σ := g.register path handler [.patch]

/-- A filter that runs only for requests whose path starts with the prefix. -/
def underPrefix (pathPrefix : Str) (f : Filter σ) : Filter σ := fun ctx =>
  if startsWith ctx.path pathPrefix then f ctx else pure none

def filter (g : Group σ) (f : Filter σ) : Group σ := { g with filters := g.filters ++ [underPrefix g.pathPrefix f] }

end Group

namespace Router

def new : Router σ := ⟨[], [], none, [], none, none, false⟩

def register (r : Router σ) (path : Str) (handler : Handler σ) (methods : List Method) : Router σ :=
  { r with routes := r.routes ++ [Route.new path handler methods] }

def get (r : Router σ) (path : Str) (handler : Handler σ) : Router σ := r.register path handler [.get]

def post (r : Router σ) (path : Str) (handler : Handler σ) : Router σ := r.register path handler [.post]

def put (r : Router σ) (path : Str) (handler : Handler σ) : Router σ := r.register path handler [.put]

def delete (r : Router σ) (path : Str) (handler : Handler σ) : Router σ := r.register path handler [.delete]

def patch (r : Router σ) (path : Str) (handler : Handler σ) : Router σ := r.register path handler [.patch]

def head (r : Router σ) (path : Str) (handler : Handler σ) : Router σ := r.register path handler [.head]

def options (r : Router σ) (path : Str) (handler : Handler σ) : Router σ := r.register path handler [.options]

/-- One handler for several methods. -/
def add (r : Router σ) (path : Str) (handler : Handler σ) (methods : List Method) : Router σ := r.register path handler methods

/-- Whether `/x` and `/x/` are distinct. -/
def setStrictSlash (r : Router σ) (strict : Bool) : Router σ := { r with strictSlash := strict }

def filter (r : Router σ) (f : Filter σ) : Router σ := { r with filters := r.filters ++ [f] }

def setAuth (r : Router σ) (f : Filter σ) : Router σ := { r with auth := some f }

/-- Add a group: its routes and its filters go to the router's own. -/
def group (r : Router σ) (pathPrefix : Str) (build : Group σ → Group σ) : Router σ :=
  let group := build (Group.new pathPrefix)
  { r with routes := r.routes ++ group.routes, filters := r.filters ++ group.filters }

def onNotFound (r : Router σ) (handler : Handler σ) : Router σ := { r with notFound := some handler }

def onMethodNotAllowed (r : Router σ) (handler : Handler σ) : Router σ := { r with methodNotAllowed := some handler }

/-- Wrap the rest of the chain. -/
def layer (r : Router σ) (middleware : Middleware σ) : Router σ := { r with middlewares := r.middlewares ++ [middleware] }

end Router

/-! ## Dispatch -/

/-- Run filters in order, up to the first that answers. -/
def runFilters (ctx : Ctx) : List (Filter σ) → StateM σ (Option HttpResponse)
  | [] => pure none
  | f :: fs => do
    match ← f ctx with
    | some resp => pure (some resp)
    | none => runFilters ctx fs

/-- What the loop over the routes has found: the handler to run, whether the path exists, and the methods for it. -/
structure Choice (σ : Type) where
  chosen : Option (Handler σ × Params)
  pathExists : Bool
  allowed : List Method

/-- The methods with those of a route that are not there yet. -/
def addMethods (allowed methods : List Method) : List Method :=
  methods.foldl (fun l m => if l.contains m then l else l ++ [m]) allowed

/-- One turn of the loop over the routes. -/
def consider (strict : Bool) (path : Str) (method : Method) (c : Choice σ) (route : Route σ) : Choice σ :=
  if strict && route.trailingSlash != trailingSlash path then c
  else
    match matchPath route.segments path with
    | none => c
    | some params =>
      { chosen := if c.chosen.isNone && route.methods.contains method then some (route.handler, params) else c.chosen
        pathExists := true
        allowed := addMethods c.allowed route.methods }

/-- The loop over the routes. -/
def choose (r : Router σ) (path : Str) (method : Method) : Choice σ :=
  r.routes.foldl (consider r.strictSlash path method) ⟨none, false, []⟩

/-- The value of the `Allow` header. -/
def allowValue (allowed : List Method) : Str := ((allowed.map Method.asStr).intersperse ", ".toList).flatten

/-- Routing and the handler. -/
def routeRequest (r : Router σ) (ctx : Ctx) : StateM σ HttpResponse :=
  let choice := choose r ctx.path ctx.request.method
  match choice.chosen with
  | some (handler, params) => handler ⟨ctx.request, params⟩
  | none =>
    if choice.pathExists then
      match r.methodNotAllowed with
      | some h => do
        let resp ← h ctx
        pure (resp.header "Allow".toList (allowValue choice.allowed))
      | none => pure ((HttpResponse.text .METHOD_NOT_ALLOWED "405 Method Not Allowed".toList).header "Allow".toList
          (allowValue choice.allowed))
    else
      match r.notFound with
      | some h => h ctx
      | none => pure (HttpResponse.text .NOT_FOUND "404 Not Found".toList)

/-- The innermost layer: authenticator, filters, routing and the handler. -/
def coreDispatch (r : Router σ) (ctx : Ctx) : StateM σ HttpResponse := do
  match ← runFilters ctx r.auth.toList with
  | some resp => pure resp
  | none =>
    match ← runFilters ctx r.filters with
    | some resp => pure resp
    | none => routeRequest r ctx

/-- The middlewares from one on, then the core. -/
def runNext (r : Router σ) : List (Middleware σ) → Ctx → StateM σ HttpResponse
  | [], ctx => coreDispatch r ctx
  | mw :: mws, ctx => mw ctx (runNext r mws)

/-- Handle a request. -/
def Router.handle (r : Router σ) (req : Request) : StateM σ HttpResponse := runNext r r.middlewares ⟨req, []⟩

end Ferroly.Turbo
