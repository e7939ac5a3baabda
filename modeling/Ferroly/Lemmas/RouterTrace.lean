import Ferroly.Turbo.Trace
import Mathlib.Data.List.Forall2

/-!
# The trace of a request

The calls made for a request are the authenticator's, those of the filters that run for its path, in order and up to the first that
answers, and the handler's.
-/

namespace Ferroly.Turbo

open Http List

variable {path : Str} {σ : Type}

/-! ## The filters that run -/

def GroupItem.isFilter : GroupItem σ → Bool
  | .filter _ => true
  | _ => false

/-- The places of the filters of a registration that run for a path. -/
def Step.sites (path : Str) (i : Nat) : Step σ → List Site
  | .filter _ => [⟨i, 0⟩]
  | .group pathPrefix items =>
    if startsWith path (groupBase pathPrefix) then
      (items.zipIdx.filter (fun x => x.1.isFilter)).map (fun x => ⟨i, x.2⟩)
    else []
  | _ => []

/-- The places of the filters that run for a path, in order. -/
def filterSites (path : Str) (steps : List (Step σ)) : List Site := steps.zipIdx.flatMap (fun x => x.1.sites path x.2)

variable {items : List (GroupItem σ)}

theorem mem_group_sites {i k : Nat} {pathPrefix : Str} : (⟨i, k⟩ : Site) ∈ (Step.group pathPrefix items).sites path i ↔
      startsWith path (groupBase pathPrefix) = true ∧ ∃ f, items[k]? = some (.filter f) := by
  rw [Step.sites]
  by_cases h : startsWith path (groupBase pathPrefix) = true
  · rw [if_pos h, mem_map]
    constructor
    · rintro ⟨⟨it, k'⟩, hmem, heq⟩
      obtain ⟨hk, hf⟩ := mem_filter.mp hmem
      rw [mem_zipIdx_iff_getElem?] at hk
      obtain rfl : k' = k := (Site.mk.inj heq).2
      cases it with
      | filter f => exact ⟨h, f, hk⟩
      | _ => cases hf
    · rintro ⟨-, f, hf⟩
      exact ⟨(.filter f, k), mem_filter.mpr ⟨mem_zipIdx_iff_getElem?.mpr hf, rfl⟩, rfl⟩
  · simp [h]

variable {site : Site}

theorem step_of_mem_sites {i : Nat} {s : Step σ} (h : site ∈ s.sites path i) : site.step = i := by
  cases s with
  | filter f => rw [mem_singleton.mp h]
  | group pathPrefix items =>
    rw [Step.sites] at h
    split at h
    · obtain ⟨x, -, rfl⟩ := mem_map.mp h
      rfl
    · cases h
  | _ => cases h

variable {steps : List (Step σ)}

/-- A filter of a group runs for a path exactly when the path starts with the group's prefix. -/
theorem mem_filterSites {i k : Nat} {pathPrefix : Str} (hg : steps[i]? = some (.group pathPrefix items)) :
    (⟨i, k⟩ : Site) ∈ filterSites path steps ↔ startsWith path (groupBase pathPrefix) = true ∧ ∃ f, items[k]? = some (.filter f) := by
  rw [← mem_group_sites (i := i), filterSites, mem_flatMap]
  constructor
  · rintro ⟨⟨s, i'⟩, hmem, hsite⟩
    have hi : i = i' := step_of_mem_sites hsite
    subst hi
    rw [mem_zipIdx_iff_getElem?, hg] at hmem
    cases hmem
    exact hsite
  · intro hsite
    exact ⟨(.group pathPrefix items, i), mem_zipIdx_iff_getElem?.mpr hg, hsite⟩

/-! ## The calls of filters -/

/-- A filter acts as the plain one and notes down a call at each of some places. -/
def Logs (ctx : Ctx) (f : Filter (Traced σ)) (p : Filter σ × List Site) : Prop :=
  ∀ s, f ctx s = ((p.1 ctx s.1).1, ((p.1 ctx s.1).2, s.2 ++ p.2.map (fun site => .filtered site ctx (p.1 ctx s.1).1)))

variable (ctx : Ctx)

theorem logs_underPrefix (site : Site) (base : Str) (f : Filter σ) : Logs ctx (Group.underPrefix base (watchFilter (.filtered site) f))
    (Group.underPrefix base f, if startsWith ctx.path base then [site] else []) := by
  intro s
  unfold Group.underPrefix
  dsimp only
  rcases startsWith ctx.path base with _ | _
  · exact Prod.ext rfl (Prod.ext rfl (append_nil _).symm)
  · rfl

theorem logs_items (i : Nat) (base : Str) (items : List (GroupItem σ)) (n : Nat) :
    ∃ ps, Forall₂ (Logs ctx) (((items.zipIdx n).map (fun x => x.1.watch ⟨i, x.2⟩)).flatMap (GroupItem.filters base)) ps ∧
      ps.map Prod.fst = items.flatMap (GroupItem.filters base) ∧ ps.flatMap Prod.snd = if startsWith ctx.path base then
        ((items.zipIdx n).filter (fun x => x.1.isFilter)).map (fun x => ⟨i, x.2⟩) else [] := by
  induction items generalizing n with
  | nil => exact ⟨[], .nil, rfl, by simp⟩
  | cons it items ih =>
    obtain ⟨ps, hps, hplain, hflat⟩ := ih (n + 1)
    cases it with
    | filter f =>
      refine ⟨_, .cons (logs_underPrefix ctx ⟨i, n⟩ base f) hps, congrArg _ hplain, ?_⟩
      rw [flatMap_cons, hflat]
      split
      · rfl
      · rfl
    | _ => exact ⟨ps, hps, hplain, hflat⟩

theorem logs_step (i : Nat) (s : Step σ) :
    ∃ ps, Forall₂ (Logs ctx) (s.watch i).filters ps ∧ ps.map Prod.fst = s.filters ∧ ps.flatMap Prod.snd = s.sites ctx.path i := by
  cases s with
  | filter f => exact ⟨[(f, [⟨i, 0⟩])], .cons (fun _ => rfl) .nil, rfl, rfl⟩
  | group pathPrefix items => exact logs_items ctx i (groupBase pathPrefix) items 0
  | _ => exact ⟨[], .nil, rfl, rfl⟩

theorem logs_steps (steps : List (Step σ)) (n : Nat) :
    ∃ ps, Forall₂ (Logs ctx) (((steps.zipIdx n).map (fun x => x.1.watch x.2)).flatMap Step.filters) ps ∧
      ps.map Prod.fst = steps.flatMap Step.filters ∧ ps.flatMap Prod.snd = (steps.zipIdx n).flatMap (fun x => x.1.sites ctx.path x.2) := by
  induction steps generalizing n with
  | nil => exact ⟨[], .nil, rfl, rfl⟩
  | cons s steps ih =>
    obtain ⟨ps, hps, hplain, hflat⟩ := ih (n + 1)
    obtain ⟨ts, hts, htplain, htflat⟩ := logs_step ctx n s
    refine ⟨ts ++ ps, rel_append hts hps, ?_, ?_⟩
    · rw [map_append, htplain, hplain]
      rfl
    · rw [flatMap_append, htflat, hflat]
      rfl

/-- The filters of the watched router. -/
theorem logs_build (steps : List (Step σ)) : ∃ ps, Forall₂ (Logs ctx) (build (watch steps)).filters ps ∧
    ps.map Prod.fst = (build steps).filters ∧ ps.flatMap Prod.snd = filterSites ctx.path steps := by
  rw [build_filters, build_filters]
  exact logs_steps ctx steps 0

theorem runFilters_cons (f : Filter σ) (fs : List (Filter σ)) (s : σ) : runFilters ctx (f :: fs) s = match f ctx s with
      | (some resp, s') => (some resp, s')
      | (none, s') => runFilters ctx fs s' := by
  rcases h : f ctx s with ⟨_ | resp, s'⟩
  · simp only [runFilters, bind, StateT.bind, h]
  · simp only [runFilters, bind, StateT.bind, h]
    rfl

/-- Filters act as the plain ones, and those that do not answer have all been called. -/
theorem runFilters_logs {ctx : Ctx} {fs : List (Filter (Traced σ))} {ps : List (Filter σ × List Site)}
    (h : Forall₂ (Logs ctx) fs ps) (s : Traced σ) :
    ∃ evs, runFilters ctx fs s = ((runFilters ctx (ps.map Prod.fst) s.1).1, ((runFilters ctx (ps.map Prod.fst) s.1).2, s.2 ++ evs)) ∧
      (∀ e ∈ evs, ∃ site q, e = .filtered site ctx q) ∧
      ((runFilters ctx fs s).1 = none → evs = (ps.flatMap Prod.snd).map (fun site => .filtered site ctx none)) := by
  induction h generalizing s with
  | nil => exact ⟨[], by rw [append_nil]; rfl, by simp, fun _ => rfl⟩
  | @cons f p fs ps hf _ ih =>
    rw [map_cons, runFilters_cons, runFilters_cons, hf s]
    rcases hp : p.1 ctx s.1 with ⟨_ | resp, w⟩
    · obtain ⟨evs, hrun, hev, hnone⟩ := ih (w, s.2 ++ p.2.map (fun site => .filtered site ctx none))
      refine ⟨p.2.map (fun site => .filtered site ctx none) ++ evs, ?_, fun e he => ?_, fun hn => ?_⟩
      · simp only [hrun, append_assoc]
      · rcases mem_append.mp he with he | he
        · obtain ⟨site, -, rfl⟩ := mem_map.mp he
          exact ⟨site, _, rfl⟩
        · exact hev e he
      · rw [hnone hn, flatMap_cons, map_append]
    · refine ⟨_, rfl, fun e he => ?_, fun h => (nomatch h)⟩
      obtain ⟨site, -, rfl⟩ := mem_map.mp he
      exact ⟨site, _, rfl⟩

/-! ## The watched router -/

/-- A result without the trace. -/
abbrev untraced {α : Type} (out : α × Traced σ) : α × σ := (out.1, out.2.1)

/-- A route with its handler watched. -/
inductive WatchesRoute : Route (Traced σ) → Route σ → Prop where
  | new (path : Str) (methods : List Method) (site : Site) (h : Handler σ) :
      WatchesRoute (.new path (watchHandler site h) methods) (.new path h methods)

/-- Every function of a router is watched. -/
structure Watches (r : Router (Traced σ)) (plain : Router σ) : Prop where
  auth : r.auth = plain.auth.map (watchFilter .authenticated)
  notFound : r.notFound = plain.notFound.map liftHandler
  methodNotAllowed : r.methodNotAllowed = plain.methodNotAllowed.map liftHandler
  strictSlash : r.strictSlash = plain.strictSlash
  routes : Forall₂ WatchesRoute r.routes plain.routes

theorem watches_items (i : Nat) (base : Str) (items : List (GroupItem σ)) (n : Nat) :
    Forall₂ WatchesRoute (((items.zipIdx n).map (fun x => x.1.watch ⟨i, x.2⟩)).flatMap (GroupItem.routes base))
      (items.flatMap (GroupItem.routes base)) := by
  induction items generalizing n with
  | nil => exact .nil
  | cons it items ih =>
    cases it with
    | filter f => exact ih (n + 1)
    | _ path h => exact .cons (.new (base ++ path) _ ⟨i, n⟩ h) (ih (n + 1))

variable {r : Router (Traced σ)} {plain : Router σ}

theorem Watches.apply (hr : Watches r plain) (i : Nat) (s : Step σ) : Watches ((s.watch i).apply r) (s.apply plain) := by
  cases s with
  | auth f => exact { hr with auth := rfl }
  | onNotFound h => exact { hr with notFound := rfl }
  | onMethodNotAllowed h => exact { hr with methodNotAllowed := rfl }
  | strictSlash strict => exact { hr with strictSlash := rfl }
  | filter f => exact { hr with }
  | group pathPrefix items =>
    have hroutes : Forall₂ WatchesRoute (r.routes ++ ((Step.group pathPrefix items).watch i).routes)
        (plain.routes ++ (Step.group pathPrefix items).routes) := rel_append hr.routes (watches_items i _ items 0)
    rw [← (Step.apply_parts _ r).1, ← (Step.apply_parts _ plain).1] at hroutes
    exact { hr with routes := hroutes }
  | _ => exact { hr with routes := rel_append hr.routes (.cons (.new _ _ ⟨i, 0⟩ _) .nil) }

theorem watches_build (steps : List (Step σ)) : Watches (build (watch steps)) (build steps) := by
  have hfold : ∀ (steps : List (Step σ)) (n : Nat) (r : Router (Traced σ)) (plain : Router σ), Watches r plain →
      Watches (((steps.zipIdx n).map (fun x => x.1.watch x.2)).foldl (fun r s => s.apply r) r)
        (steps.foldl (fun r s => s.apply r) plain) := by
    intro steps
    induction steps with
    | nil => exact fun n r plain hr => hr
    | cons s steps ih => exact fun n r plain hr => ih (n + 1) _ _ (hr.apply n s)
  exact hfold steps 0 Router.new Router.new ⟨rfl, rfl, rfl, rfl, .nil⟩

/-- What the loop over the routes finds in a watched router and in the plain one. -/
inductive WatchesChoice : Choice (Traced σ) → Choice σ → Prop where
  | none (pathExists : Bool) (allowed : List Method) : WatchesChoice ⟨none, pathExists, allowed⟩ ⟨none, pathExists, allowed⟩
  | some (site : Site) (h : Handler σ) (ps : Params) (pathExists : Bool) (allowed : List Method) :
      WatchesChoice ⟨some (watchHandler site h, ps), pathExists, allowed⟩ ⟨some (h, ps), pathExists, allowed⟩

theorem watches_choose (hr : Watches r plain) (path : Str) (method : Method) :
    WatchesChoice (choose r path method) (choose plain path method) := by
  have hfold : ∀ (routes : List (Route (Traced σ))) (plains : List (Route σ)), Forall₂ WatchesRoute routes plains →
      ∀ c c', WatchesChoice c c' → WatchesChoice (routes.foldl (consider plain.strictSlash path method) c)
        (plains.foldl (consider plain.strictSlash path method) c') := by
    intro routes plains h
    induction h with
    | nil => exact fun c c' hc => hc
    | cons hroute _ ih =>
      obtain ⟨pattern, methods, site, h⟩ := hroute
      refine fun c c' hc => ih _ _ ?_
      unfold consider Route.new
      dsimp only
      by_cases hslash : (plain.strictSlash && trailingSlash pattern != trailingSlash path) = true
      · rwa [if_pos hslash, if_pos hslash]
      rw [if_neg hslash, if_neg hslash]
      rcases matchPath (parsePattern pattern) path with _ | ps
      · exact hc
      · cases hc with
        | none => rcases methods.contains method with _ | _ <;> constructor
        | some => constructor
  rw [choose, hr.strictSlash]
  exact hfold _ _ hr.routes _ _ (.none _ _)

/-- Routing calls at most one handler of a route, and acts as in the plain router. -/
theorem watches_routeRequest (hr : Watches r plain) (ctx : Ctx) (s : Traced σ) :
    untraced (routeRequest r ctx s) = routeRequest plain ctx s.1 ∧
      ((routeRequest r ctx s).2.2 = s.2 ∨ ∃ site c, (routeRequest r ctx s).2.2 = s.2 ++ [.dispatched site c]) := by
  unfold routeRequest
  rw [hr.notFound, hr.methodNotAllowed]
  have hchoice := watches_choose hr ctx.path ctx.request.method
  generalize choose r ctx.path ctx.request.method = c, choose plain ctx.path ctx.request.method = c' at hchoice ⊢
  rcases hchoice with ⟨_ | _, allowed⟩ | ⟨site, h, ps, pathExists, allowed⟩
  · rcases plain.notFound with _ | h <;> exact ⟨rfl, .inl rfl⟩
  · rcases plain.methodNotAllowed with _ | h <;> exact ⟨rfl, .inl rfl⟩
  · exact ⟨rfl, .inr ⟨site, _, rfl⟩⟩

theorem watches_auth (hr : Watches r plain) (ctx : Ctx) (s : Traced σ) :
    ∃ evs, runFilters ctx r.auth.toList s =
        ((runFilters ctx plain.auth.toList s.1).1, ((runFilters ctx plain.auth.toList s.1).2, s.2 ++ evs)) ∧
      ∀ e ∈ evs, ∃ q, e = .authenticated ctx q := by
  rw [hr.auth]
  cases plain.auth with
  | none => exact ⟨[], by rw [append_nil]; rfl, by simp⟩
  | some g =>
    have hg : watchFilter .authenticated g ctx s = ((g ctx s.1).1, ((g ctx s.1).2, s.2 ++ [.authenticated ctx (g ctx s.1).1])) := rfl
    refine ⟨[.authenticated ctx (g ctx s.1).1], ?_, fun e he => ⟨_, mem_singleton.mp he⟩⟩
    rw [Option.map_some, Option.toList_some, Option.toList_some, runFilters_cons, runFilters_cons, hg]
    rcases g ctx s.1 with ⟨_ | resp, w⟩ <;> rfl

theorem coreDispatch_eq (r : Router σ) (ctx : Ctx) (s : σ) : coreDispatch r ctx s = match runFilters ctx r.auth.toList s with
      | (some resp, s') => (resp, s')
      | (none, s') =>
        match runFilters ctx r.filters s' with
        | (some resp, s'') => (resp, s'')
        | (none, s'') => routeRequest r ctx s'' := by
  rcases h : runFilters ctx r.auth.toList s with ⟨_ | resp, s'⟩
  · rcases h' : runFilters ctx r.filters s' with ⟨_ | resp, s''⟩
    · simp only [coreDispatch, bind, StateT.bind, h, h']
    · simp only [coreDispatch, bind, StateT.bind, h, h']
      rfl
  · simp only [coreDispatch, bind, StateT.bind, h]
    rfl

/-- The watched router answers as the plain one and leaves the same state. -/
theorem handle_watch (steps : List (Step σ)) (req : Request) (s : Traced σ) :
    untraced ((build (watch steps)).handle req s) = (build steps).handle req s.1 := by
  have hw := watches_build steps
  obtain ⟨ps, hps, hplain, -⟩ := logs_build ⟨req, []⟩ steps
  obtain ⟨auth, hauth, -⟩ := watches_auth hw ⟨req, []⟩ s
  rw [handle_build, handle_build, coreDispatch_eq, coreDispatch_eq, hauth]
  rcases runFilters ⟨req, []⟩ (build steps).auth.toList s.1 with ⟨_ | resp, w⟩
  · obtain ⟨evs, hrun, -⟩ := runFilters_logs hps (w, s.2 ++ auth)
    simp only [hrun, hplain]
    rcases runFilters ⟨req, []⟩ (build steps).filters w with ⟨_ | resp, w'⟩
    · exact (watches_routeRequest hw ⟨req, []⟩ _).1
    · rfl
  · rfl

/-- A request that reaches a handler has passed every filter that runs for its path. -/
theorem trace_of_dispatched {req : Request} {w : σ} {c : Ctx} (hd : .dispatched site c ∈ trace steps req w) :
    ∃ auth, (∀ e ∈ auth, ∃ q, e = .authenticated ⟨req, []⟩ q) ∧ trace steps req w =
      auth ++ (filterSites req.uri.path steps).map (fun site => .filtered site ⟨req, []⟩ none) ++ [.dispatched site c] := by
  have hw := watches_build steps
  obtain ⟨ps, hps, -, hflat⟩ := logs_build ⟨req, []⟩ steps
  obtain ⟨auth, hauth, hauthev⟩ := watches_auth hw ⟨req, []⟩ (w, [])
  have hnotauth : .dispatched site c ∉ auth := by
    intro hm
    obtain ⟨q, h⟩ := hauthev _ hm
    cases h
  rw [trace, handle_build, coreDispatch_eq, hauth] at hd ⊢
  generalize runFilters ⟨req, []⟩ (build steps).auth.toList w = out at hd ⊢
  rcases out with ⟨_ | resp, w1⟩
  · obtain ⟨evs, hrun, hev, hnone⟩ := runFilters_logs hps (w1, auth)
    have hnot : .dispatched site c ∉ auth ++ evs := by
      intro hm
      rcases mem_append.mp hm with hm | hm
      · exact hnotauth hm
      · obtain ⟨site', q, h⟩ := hev _ hm
        cases h
    simp only [nil_append] at hd ⊢
    rcases hq : runFilters ⟨req, []⟩ (build (watch steps)).filters (w1, auth) with ⟨_ | resp, s2⟩
    · rw [hq] at hd hrun hnone
      obtain ⟨w2, rfl⟩ : ∃ w2, s2 = (w2, auth ++ evs) := ⟨_, (Prod.mk.inj hrun).2⟩
      refine ⟨auth, hauthev, ?_⟩
      rw [← show ps.flatMap Prod.snd = filterSites req.uri.path steps from hflat, ← hnone rfl]
      rcases (watches_routeRequest hw ⟨req, []⟩ (w2, auth ++ evs)).2 with h | ⟨site', c', h⟩
      · simp only [h] at hd
        exact absurd hd hnot
      · simp only [h] at hd ⊢
        rcases mem_append.mp hd with hd | hd
        · exact absurd hd hnot
        · rw [mem_singleton.mp hd]
    · rw [hq] at hd hrun
      obtain rfl : s2 = (_, auth ++ evs) := (Prod.mk.inj hrun).2
      exact absurd hd hnot
  · exact absurd hd hnotauth

end Ferroly.Turbo
