import Ferroly.Turbo.Router

/-!
# What a router does to a request, call by call

A router is built by a list of registrations. To say which of the application's functions were called for a request, each of them
is watched: it acts as before and adds an event to a trace. A registration is identified by its place, so that two uses of one
function are told apart.
-/

namespace Ferroly.Turbo

open Http List

variable {σ : Type}

/-! ## Registrations -/

/-- A registration in a group. -/
inductive GroupItem (σ : Type) where
  | get (path : Str) (handler : Handler σ)
  | post (path : Str) (handler : Handler σ)
  | put (path : Str) (handler : Handler σ)
  | delete (path : Str) (handler : Handler σ)
  | patch (path : Str) (handler : Handler σ)
  | filter (f : Filter σ)

def GroupItem.apply : GroupItem σ → Group σ → Group σ
  | .get path h, g => g.get path h
  | .post path h, g => g.post path h
  | .put path h, g => g.put path h
  | .delete path h, g => g.delete path h
  | .patch path h, g => g.patch path h
  | .filter f, g => g.filter f

/-- A registration in a router. -/
inductive Step (σ : Type) where
  | get (path : Str) (handler : Handler σ)
  | post (path : Str) (handler : Handler σ)
  | put (path : Str) (handler : Handler σ)
  | delete (path : Str) (handler : Handler σ)
  | patch (path : Str) (handler : Handler σ)
  | head (path : Str) (handler : Handler σ)
  | options (path : Str) (handler : Handler σ)
  | add (path : Str) (handler : Handler σ) (methods : List Method)
  | strictSlash (strict : Bool)
  | filter (f : Filter σ)
  | auth (f : Filter σ)
  | group (pathPrefix : Str) (items : List (GroupItem σ))
  | onNotFound (handler : Handler σ)
  | onMethodNotAllowed (handler : Handler σ)

def Step.apply : Step σ → Router σ → Router σ
  | .get path h, r => r.get path h
  | .post path h, r => r.post path h
  | .put path h, r => r.put path h
  | .delete path h, r => r.delete path h
  | .patch path h, r => r.patch path h
  | .head path h, r => r.head path h
  | .options path h, r => r.options path h
  | .add path h methods, r => r.add path h methods
  | .strictSlash strict, r => r.setStrictSlash strict
  | .filter f, r => r.filter f
  | .auth f, r => r.setAuth f
  | .group pathPrefix items, r => r.group pathPrefix (fun g => items.foldl (fun g it => it.apply g) g)
  | .onNotFound h, r => r.onNotFound h
  | .onMethodNotAllowed h, r => r.onMethodNotAllowed h

/-- The router built by some registrations. -/
def build (steps : List (Step σ)) : Router σ := steps.foldl (fun r s => s.apply r) Router.new

/-! ## Traces -/

/-- The place of a registration: its number, and its number within the group if it is in one. -/
structure Site where
  step : Nat
  item : Nat
  deriving DecidableEq, Repr

/-- A call of one of the application's functions. -/
inductive Event where
  | authenticated (ctx : Ctx) (result : Option HttpResponse)
  | filtered (site : Site) (ctx : Ctx) (result : Option HttpResponse)
  | dispatched (site : Site) (ctx : Ctx)
  deriving DecidableEq

/-- The application's state, and the calls so far. -/
abbrev Traced (σ : Type) := σ × List Event

/-- A filter that notes down its calls. -/
def watchFilter (event : Ctx → Option HttpResponse → Event) (f : Filter σ) : Filter (Traced σ) := fun ctx s =>
  ((f ctx s.1).1, ((f ctx s.1).2, s.2 ++ [event ctx (f ctx s.1).1]))

/-- A handler that notes down its calls. -/
def watchHandler (site : Site) (h : Handler σ) : Handler (Traced σ) := fun ctx s =>
  ((h ctx s.1).1, ((h ctx s.1).2, s.2 ++ [.dispatched site ctx]))

/-- A handler of no route. -/
def liftHandler (h : Handler σ) : Handler (Traced σ) := fun ctx s => ((h ctx s.1).1, ((h ctx s.1).2, s.2))

def GroupItem.watch (site : Site) : GroupItem σ → GroupItem (Traced σ)
  | .get path h => .get path (watchHandler site h)
  | .post path h => .post path (watchHandler site h)
  | .put path h => .put path (watchHandler site h)
  | .delete path h => .delete path (watchHandler site h)
  | .patch path h => .patch path (watchHandler site h)
  | .filter f => .filter (watchFilter (.filtered site) f)

def Step.watch (i : Nat) : Step σ → Step (Traced σ)
  | .get path h => .get path (watchHandler ⟨i, 0⟩ h)
  | .post path h => .post path (watchHandler ⟨i, 0⟩ h)
  | .put path h => .put path (watchHandler ⟨i, 0⟩ h)
  | .delete path h => .delete path (watchHandler ⟨i, 0⟩ h)
  | .patch path h => .patch path (watchHandler ⟨i, 0⟩ h)
  | .head path h => .head path (watchHandler ⟨i, 0⟩ h)
  | .options path h => .options path (watchHandler ⟨i, 0⟩ h)
  | .add path h methods => .add path (watchHandler ⟨i, 0⟩ h) methods
  | .strictSlash strict => .strictSlash strict
  | .filter f => .filter (watchFilter (.filtered ⟨i, 0⟩) f)
  | .auth f => .auth (watchFilter .authenticated f)
  | .group pathPrefix items => .group pathPrefix (items.zipIdx.map (fun x => x.1.watch ⟨i, x.2⟩))
  | .onNotFound h => .onNotFound (liftHandler h)
  | .onMethodNotAllowed h => .onMethodNotAllowed (liftHandler h)

/-- The registrations with every function watched. -/
def watch (steps : List (Step σ)) : List (Step (Traced σ)) := steps.zipIdx.map (fun x => x.1.watch x.2)

/-- The calls made for a request. -/
def trace (steps : List (Step σ)) (req : Request) (w : σ) : List Event := ((build (watch steps)).handle req (w, [])).2.2

/-! ## What registrations leave in a router -/

/-- The routes of a group's registration. -/
def GroupItem.routes (base : Str) : GroupItem σ → List (Route σ)
  | .get path h => [Route.new (base ++ path) h [.get]]
  | .post path h => [Route.new (base ++ path) h [.post]]
  | .put path h => [Route.new (base ++ path) h [.put]]
  | .delete path h => [Route.new (base ++ path) h [.delete]]
  | .patch path h => [Route.new (base ++ path) h [.patch]]
  | .filter _ => []

/-- The filters of a group's registration. -/
def GroupItem.filters (base : Str) : GroupItem σ → List (Filter σ)
  | .filter f => [Group.underPrefix base f]
  | _ => []

variable {g : Group σ}

theorem GroupItem.apply_eq (it : GroupItem σ) :
    it.apply g = ⟨g.pathPrefix, g.routes ++ it.routes g.pathPrefix, g.filters ++ it.filters g.pathPrefix⟩ := by
  cases it <;> simp [GroupItem.apply, GroupItem.routes, GroupItem.filters, Group.get, Group.post, Group.put, Group.delete,
    Group.patch, Group.register, Group.full, Group.filter]

theorem foldl_items_eq (items : List (GroupItem σ)) : items.foldl (fun g it => it.apply g) g =
      ⟨g.pathPrefix, g.routes ++ items.flatMap (GroupItem.routes g.pathPrefix),
        g.filters ++ items.flatMap (GroupItem.filters g.pathPrefix)⟩ := by
  induction items generalizing g with
  | nil => simp
  | cons it items ih =>
    rw [foldl_cons, ih, GroupItem.apply_eq]
    simp

/-- The prefix of a group's routes and filters. -/
def groupBase (pathPrefix : Str) : Str := pathPrefix.rdropWhile (· == '/')

/-- The routes of a registration. -/
def Step.routes : Step σ → List (Route σ)
  | .get path h => [Route.new path h [.get]]
  | .post path h => [Route.new path h [.post]]
  | .put path h => [Route.new path h [.put]]
  | .delete path h => [Route.new path h [.delete]]
  | .patch path h => [Route.new path h [.patch]]
  | .head path h => [Route.new path h [.head]]
  | .options path h => [Route.new path h [.options]]
  | .add path h methods => [Route.new path h methods]
  | .group pathPrefix items => items.flatMap (GroupItem.routes (groupBase pathPrefix))
  | _ => []

/-- The filters of a registration. -/
def Step.filters : Step σ → List (Filter σ)
  | .filter f => [f]
  | .group pathPrefix items => items.flatMap (GroupItem.filters (groupBase pathPrefix))
  | _ => []

variable (s : Step σ) (r : Router σ)

theorem Step.apply_parts : (s.apply r).routes = r.routes ++ s.routes ∧ (s.apply r).filters = r.filters ++ s.filters := by
  cases s with
  | group pathPrefix items => simp [Step.apply, Router.group, foldl_items_eq, Group.new, Step.routes, Step.filters, groupBase]
  | _ => simp [Step.apply, Step.routes, Step.filters, Router.get, Router.post, Router.put, Router.delete, Router.patch,
      Router.head, Router.options, Router.add, Router.register, Router.setStrictSlash, Router.filter, Router.setAuth,
      Router.onNotFound, Router.onMethodNotAllowed]

theorem Step.apply_middlewares : (s.apply r).middlewares = r.middlewares := by
  cases s <;> rfl

variable (steps : List (Step σ))

/-- A property of a fold's result that every step keeps. -/
theorem foldl_steps_keep {α : Type} (f : Router σ → List α) (g : Step σ → List α)
    (h : ∀ s r, f (Step.apply s r) = f r ++ g s) (steps : List (Step σ)) (r : Router σ) :
    f (steps.foldl (fun r s => s.apply r) r) = f r ++ steps.flatMap g := by
  induction steps generalizing r with
  | nil => simp
  | cons s steps ih => rw [foldl_cons, ih, h, flatMap_cons, append_assoc]

theorem build_filters : (build steps).filters = steps.flatMap Step.filters :=
  foldl_steps_keep Router.filters Step.filters (fun s r => (s.apply_parts r).2) steps Router.new

theorem build_middlewares : (build steps).middlewares = [] := by
  have h := foldl_steps_keep Router.middlewares (fun _ => ([] : List (Middleware σ)))
    (fun s r => by rw [Step.apply_middlewares, append_nil]) steps Router.new
  have hnil : steps.flatMap (fun _ => ([] : List (Middleware σ))) = [] := flatMap_eq_nil_iff.mpr (fun _ _ => rfl)
  rw [hnil] at h
  exact h

/-- Without middlewares a request goes straight to the core. -/
theorem handle_build (req : Request) : (build steps).handle req = coreDispatch (build steps) ⟨req, []⟩ := by
  rw [Router.handle, build_middlewares]
  rfl

end Ferroly.Turbo
