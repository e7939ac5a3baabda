import Ferroly.Lemmas.RouterTrace

/-!
# Group filters

A group's filters run for the requests whose path starts with the group's prefix as a text; its routes match by the parts of the
path between slashes. The two agree for the usual spelling of a path and a prefix without parameters, but not in general.
-/

namespace Ferroly.Turbo

open Http List

variable {σ : Type}

/-- Whether a filter of a group was called for a request before the handler, and did not answer. -/
def PassedFilter (steps : List (Step σ)) (req : Request) (w : σ) (filter handler : Site) (ctx : Ctx) : Prop :=
  ∃ before after, trace steps req w = before ++ .dispatched handler ctx :: after ∧ .filtered filter ⟨req, []⟩ none ∈ before

/-- For a request that reaches a handler of a group: every filter of the group has been called before and has not answered exactly
when the group has no filter or the path starts with the group's prefix. -/
theorem group_filters_pass_iff (steps : List (Step σ)) (req : Request) (w : σ) (i j : Nat) (pathPrefix : Str)
    (items : List (GroupItem σ)) (ctx : Ctx) (hg : steps[i]? = some (.group pathPrefix items))
    (hd : .dispatched ⟨i, j⟩ ctx ∈ trace steps req w) :
    (∀ (k : Nat) (f : Filter σ), items[k]? = some (.filter f) → PassedFilter steps req w ⟨i, k⟩ ⟨i, j⟩ ctx) ↔
      (∀ (k : Nat) (f : Filter σ), items[k]? ≠ some (.filter f)) ∨ startsWith req.uri.path (groupBase pathPrefix) = true := by
  obtain ⟨auth, hauth, htrace⟩ := trace_of_dispatched hd
  constructor
  · intro hpass
    by_cases hnone : ∀ (k : Nat) (f : Filter σ), items[k]? ≠ some (.filter f)
    · exact .inl hnone
    · push Not at hnone
      obtain ⟨k, f, hk⟩ := hnone
      obtain ⟨before, after, hsplit, hmem⟩ := hpass k f hk
      have hin : .filtered ⟨i, k⟩ ⟨req, []⟩ none ∈ trace steps req w := by
        rw [hsplit]
        exact mem_append_left _ hmem
      rw [htrace, mem_append, mem_append] at hin
      rcases hin with (hin | hin) | hin
      · obtain ⟨q, hq⟩ := hauth _ hin
        cases hq
      · obtain ⟨site, hsite, heq⟩ := mem_map.mp hin
        cases heq
        exact .inr ((mem_filterSites hg).mp hsite).1
      · cases mem_singleton.mp hin
  · intro hcond k f hk
    have hstart : startsWith req.uri.path (groupBase pathPrefix) = true := by
      rcases hcond with hnone | hstart
      · exact absurd hk (hnone k f)
      · exact hstart
    refine ⟨_, [], htrace, mem_append_right _ (mem_map.mpr ⟨⟨i, k⟩, ?_, rfl⟩)⟩
    exact (mem_filterSites hg).mpr ⟨hstart, f, hk⟩

/-- A filter that lets everything or nothing through, and one route. -/
def adminItems (passes : Bool) : List (GroupItem Unit) :=
  [.filter (fun _ => pure (if passes then none else some (HttpResponse.new ⟨401⟩))),
    .get "/x".toList (fun _ => pure (HttpResponse.new .OK))]

/-- A router with these under `/admin`. -/
def adminSteps (passes : Bool) : List (Step Unit) := [.group "/admin".toList (adminItems passes)]

/-- A request for a path. -/
def getRequest (path : String) : Request := ⟨.get, ⟨[], [], 0, path.toList, none⟩, HeaderMap.new, []⟩

/-- When the filter lets it through, `/admin/x` has passed it. -/
theorem group_filters_pass_admin :
    .dispatched ⟨0, 1⟩ ⟨getRequest "/admin/x", []⟩ ∈ trace (adminSteps true) (getRequest "/admin/x") () ∧
      ∀ (k : Nat) (f : Filter Unit), (adminItems true)[k]? = some (.filter f) →
        PassedFilter (adminSteps true) (getRequest "/admin/x") () ⟨0, k⟩ ⟨0, 1⟩ ⟨getRequest "/admin/x", []⟩ :=
  have hd : .dispatched ⟨0, 1⟩ ⟨getRequest "/admin/x", []⟩ ∈ trace (adminSteps true) (getRequest "/admin/x") () := by
    decide
  ⟨hd, (group_filters_pass_iff (adminSteps true) (getRequest "/admin/x") () 0 1 "/admin".toList (adminItems true)
    ⟨getRequest "/admin/x", []⟩ rfl hd).mpr (.inr rfl)⟩

/-- `//admin/x` reaches the handler although the filter lets nothing through: it is not called. -/
theorem group_filter_bypassed :
    .dispatched ⟨0, 1⟩ ⟨getRequest "//admin/x", []⟩ ∈ trace (adminSteps false) (getRequest "//admin/x") () ∧
      ¬PassedFilter (adminSteps false) (getRequest "//admin/x") () ⟨0, 0⟩ ⟨0, 1⟩ ⟨getRequest "//admin/x", []⟩ := by
  have htrace : trace (adminSteps false) (getRequest "//admin/x") () = [.dispatched ⟨0, 1⟩ ⟨getRequest "//admin/x", []⟩] := rfl
  refine ⟨by rw [htrace]; exact mem_singleton_self _, ?_⟩
  rintro ⟨before, after, hsplit, hmem⟩
  rw [htrace] at hsplit
  have hin : .filtered ⟨0, 0⟩ ⟨getRequest "//admin/x", []⟩ none ∈ [Event.dispatched ⟨0, 1⟩ ⟨getRequest "//admin/x", []⟩] := by
    rw [hsplit]
    exact mem_append_left _ hmem
  cases mem_singleton.mp hin

end Ferroly.Turbo
