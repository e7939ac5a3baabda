import Ferroly.Lemmas.RouterTrace
import Ferroly.Turbo.Spec

/-!
# Dispatch: what the loops compute

The loops over segments, filters and routes against what they are for.
-/

namespace Ferroly.Turbo

open Http List

variable {σ : Type}

/-! ## Parameters -/

section

variable {strict : Bool} {req : Request} {c : Choice σ} {route : Route σ}

end

/-- Filters that do not answer are followed by others. -/
theorem Asked.append {ctx : Ctx} {fs gs : List (Filter σ)} {s s' s'' : σ} {answer : Option HttpResponse} (h : Asked ctx fs s none s')
    (h' : Asked ctx gs s' answer s'') : Asked ctx (fs ++ gs) s answer s'' := by
  generalize hn : (none : Option HttpResponse) = a at h
  induction h with
  | done s => exact h'
  | answers hf => cases hn
  | passes hf hmore ih => exact .passes hf (ih h' hn)

theorem Asked.append_left {ctx : Ctx} {fs gs : List (Filter σ)} {s s' : σ} {resp : HttpResponse} (h : Asked ctx fs s (some resp) s') :
    Asked ctx (fs ++ gs) s (some resp) s' := by
  generalize hn : some resp = a at h
  induction h with
  | done s => cases hn
  | answers hf =>
    cases hn
    exact .answers hf
  | passes hf hmore ih => exact .passes hf (ih hn)

end Ferroly.Turbo
