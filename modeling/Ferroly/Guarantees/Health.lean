import Ferroly.Lemmas.JsonRead
import Ferroly.Lifecycle.Health

/-!
# Guarantees of the health report

The text of a report is a JSON document whatever the names of the checks are. The endpoint answers with two reports: its status comes
from one and its body from the next, so every check runs twice.
-/

namespace Ferroly.Lifecycle

open List Json

variable {report : List (Str × HealthStatus)}

/-- The worst status of a report. -/
def worst (report : List (Str × HealthStatus)) : HealthStatus :=
  if report.any (·.2 = .down) then .down else if report.any (·.2 = .degraded) then .degraded else .up

theorem escapes_name : Escapes escapeOf := by
  refine ⟨fun {c e} h => ?_, fun {c} h => ?_⟩
  · unfold escapeOf at h
    iterate 5
      split at h
      · cases h; subst_vars; exact ⟨_, rfl, fun _ _ => rfl⟩
    split at h
    next hc =>
      cases h
      exact ⟨_, rfl, parseEscape_hex4 hc⟩
    · cases h
  · constructor <;> rintro rfl <;> simp [escapeOf] at h

theorem escapeJsonInto_eq (out s : Str) : escapeJsonInto out s = out ++ escapedBy escapeOf s := by
  induction s generalizing out with
  | nil => simp [escapeJsonInto, escapedBy]
  | cons c s ih => simp [escapeJsonInto, ih, escapedBy]

theorem quoteBy_asStr (status : HealthStatus) : quoteBy escapeOf status.asStr = '"' :: (status.asStr ++ ['"']) := by
  cases status <;> rfl

namespace HealthRegistry

theorem entriesLoop_eq (s : Str) (i : Nat) (report : List (Str × HealthStatus)) : entriesLoop s i report =
    s ++ joinComma (i == 0) (report.map fun e => quoteBy escapeOf e.1 ++ ':' :: quoteBy escapeOf e.2.asStr) := by
  induction report generalizing s i with
  | nil => simp [entriesLoop, joinComma]
  | cons e report ih =>
    rw [entriesLoop, ih, escapeJsonInto_eq, map_cons, joinComma, quoteBy_asStr, quoteBy]
    cases i <;> simp [sepText]

theorem overallLoop_eq (w : HealthStatus) : overallLoop w report =
    if report.any (·.2 = .down) then .down else if report.any (·.2 = .degraded) then .degraded else w := by
  induction report generalizing w with
  | nil => rfl
  | cons e report ih =>
    obtain ⟨name, status⟩ := e
    cases status <;> simp [overallLoop, ih, -any_eq_true]

theorem foldl_worsen (w : HealthStatus) : report.foldl worsen w =
    if report.any (·.2 = .down) then .down else if w = .up ∧ report.any (·.2 = .degraded) then .degraded else w := by
  induction report generalizing w with
  | nil => simp
  | cons e report ih =>
    obtain ⟨name, status⟩ := e
    cases status <;> cases w <;> simp [worsen, ih, -any_eq_true]

theorem all_up_iff : (report.all fun e => e.2 == .up) = true ↔ worst report = .up := by
  rw [worst]
  induction report with
  | nil => simp
  | cons e report ih =>
    obtain ⟨name, status⟩ := e
    cases status with
    | up => simpa [-any_eq_true, -all_eq_true] using ih
    | degraded | down => simp [-any_eq_true, -all_eq_true, ite_eq_iff]

/-- The two entries of a report's document: the key, the text of the value, the value, and how deep it is nested. -/
def documentEntries (report : List (Str × HealthStatus)) : List (Str × Str × Value × Nat) :=
  [("overall".toList, quoteBy escapeOf (worst report).asStr, .str (worst report).asStr, 0),
    ("checks".toList, objectText escapeOf Prod.fst (fun e => quoteBy escapeOf e.2.asStr) report,
      .object (report.map fun e => (e.1, .str e.2.asStr)), 1)]

theorem jsonText_eq (report : List (Str × HealthStatus)) :
    jsonText report = objectText escapeOf Prod.fst (fun e => e.2.1) (documentEntries report) := by
  have hoverall : report.foldl worsen .up = worst report := by simp [foldl_worsen, worst, -any_eq_true]
  rw [jsonText, hoverall, entriesLoop_eq, objectText, documentEntries]
  simp [joinComma, sepText, quoteBy_asStr, objectText]
  rfl

/-- The document of a report. -/
theorem fromStr_jsonText (report : List (Str × HealthStatus)) : fromStr (jsonText report) =
    .ok (.object ((documentEntries report).map fun e => (e.1, e.2.2.1))) := by
  have hentries : ∀ e ∈ documentEntries report, ReadsText e.2.1 e.2.2.1 e.2.2.2 := by
    intro e he
    simp only [documentEntries, mem_cons, not_mem_nil, or_false] at he
    rcases he with rfl | rfl
    · exact readsText_string escapes_name _
    · exact readsText_object escapes_name Prod.fst (fun e _ => readsText_string escapes_name _) (fun k => by simp)
  have hdocument : ReadsText (jsonText report) (.object ((documentEntries report).map fun e => (e.1, e.2.2.1))) (1 + 1) := by
    rw [jsonText_eq]
    exact readsText_object escapes_name Prod.fst hentries (fun k => by simp [documentEntries])
  refine (fromStr_text hdocument ?_).trans (if_pos (by decide))
  rw [jsonText_eq]
  exact startsItem_of_head (by decide) (by decide) (by decide)

variable {σ : Type}

/-- Every check from position `i` on runs once. -/
theorem reportFrom_ran (checks : List (Str × (σ → HealthStatus × σ))) (i : Nat) (w : Probed σ) :
    (reportFrom i checks w).2.ran = w.ran ++ range' i checks.length := by
  induction checks generalizing i w with
  | nil => simp [reportFrom]
  | cons c checks ih => simp [reportFrom, ih, range'_succ]

/-- Checks with fixed statuses are reported as they are. -/
theorem reportFrom_fixed (checks : List (Str × HealthStatus × (σ → σ))) (i : Nat) (w : Probed σ) :
    (reportFrom i (checks.map fun c => (c.1, fun s => (c.2.1, c.2.2 s))) w).1 = checks.map fun c => (c.1, c.2.1) := by
  induction checks generalizing i w with
  | nil => rfl
  | cons c checks ih => simp [reportFrom, ih]

/-- Checks that answer the same each time, whatever they do to the state: the text of the report is read back as the worst status and
the statuses in order, and it agrees with the other two aggregates. -/
theorem report_read_back (checks : List (Str × HealthStatus × (σ → σ))) (w : Probed σ) :
    let r : HealthRegistry σ := ⟨checks.map fun c => (c.1, fun s => (c.2.1, c.2.2 s))⟩
    let report := checks.map fun c => (c.1, c.2.1)
    fromStr (r.toJson w).1 = .ok (.object [("overall".toList, .str (worst report).asStr),
      ("checks".toList, .object (report.map fun e => (e.1, .str e.2.asStr)))]) ∧
    (r.overall w).1 = worst report ∧ ((r.isReady w).1 = true ↔ worst report = .up) := by
  intro r report
  have hreport : (r.report w).1 = report := reportFrom_fixed checks 0 w
  simp only [toJson, overall, isReady, hreport, fromStr_jsonText, overallLoop_eq]
  exact ⟨rfl, rfl, all_up_iff⟩

/-- A body that reports the aggregate `down`. -/
def SaysDown (body : Bytes) : Prop := ∃ entries, fromSlice body = .ok (.object (("overall".toList, .str "down".toList) :: entries))

theorem fromSlice_jsonText (report : List (Str × HealthStatus)) : fromSlice (utf8 (jsonText report)) =
    .ok (.object ((documentEntries report).map fun e => (e.1, e.2.2.1))) := by
  rw [← fromStr_jsonText, fromSlice, fromUtf8_utf8]

theorem saysDown_iff (report : List (Str × HealthStatus)) : SaysDown (utf8 (jsonText report)) ↔ worst report = .down := by
  rw [SaysDown, fromSlice_jsonText, documentEntries]
  generalize worst report = status
  simp only [map_cons, Except.ok.injEq, Value.object.injEq]
  refine ⟨fun ⟨entries, h⟩ => ?_, fun h => ⟨_, by rw [h]; rfl⟩⟩
  have htext : status.asStr = "down".toList := Value.str.inj (Prod.mk.inj (cons.inj h).1).2
  cases status with
  | down => rfl
  | up | degraded => exact absurd htext (by decide)

/-- The status of the endpoint comes from one run of the checks and the body from the next, so every check runs twice. Status and body
agree and each check runs once exactly if there are no checks. -/
theorem health_endpoint_iff (r : HealthRegistry σ) (w : Probed σ) :
    ((r.health w).1.status = .SERVICE_UNAVAILABLE ↔ worst (r.report w).1 = .down) ∧
    (SaysDown (r.health w).1.body ↔ worst (r.report (r.report w).2).1 = .down) ∧
    (r.health w).2.ran = w.ran ++ range r.checks.length ++ range r.checks.length ∧
    (((r.health w).1.status = .SERVICE_UNAVAILABLE ↔ SaysDown (r.health w).1.body) ∧
      (r.health w).2.ran = w.ran ++ range r.checks.length ↔ r.checks = []) := by
  have hstatus : (r.health w).1.status = .SERVICE_UNAVAILABLE ↔ worst (r.report w).1 = .down := by
    have hcode : (r.health w).1.status = if worst (r.report w).1 = .down then .SERVICE_UNAVAILABLE else .OK := by
      rw [worst, ← overallLoop_eq]
      rfl
    rw [hcode]
    split <;> simp [*, Http.StatusCode.SERVICE_UNAVAILABLE, Http.StatusCode.OK]
  have hbody := saysDown_iff (r.report (r.report w).2).1
  have hran : (r.health w).2.ran = w.ran ++ range r.checks.length ++ range r.checks.length := by
    have h := fun w => reportFrom_ran r.checks 0 w
    simp only [health, overall, toJson, report, h, range_eq_range']
  refine ⟨hstatus, hbody, hran, fun ⟨_, hone⟩ => ?_, fun hnone => ⟨?_, ?_⟩⟩
  · simpa [hran] using hone
  · have hempty : ∀ w, (r.report w).1 = [] := by
      intro w
      rw [report, hnone, reportFrom]
    rw [hstatus, hempty]
    refine Iff.trans ?_ hbody.symm
    rw [hempty]
  · rw [hran, hnone]
    simp

/-- One check that is down at its first run and up at the next. -/
theorem health_alternating :
    let r : HealthRegistry Bool := ⟨[("db".toList, fun up => (if up then .up else .down, !up))]⟩
    (r.health ⟨false, []⟩).1.status = .SERVICE_UNAVAILABLE ∧ ¬SaysDown (r.health ⟨false, []⟩).1.body ∧
      (r.health ⟨false, []⟩).2.ran = [0, 0] :=
  ⟨rfl, fun h => absurd ((saysDown_iff _).mp h) (by decide), rfl⟩

end HealthRegistry

end Ferroly.Lifecycle
