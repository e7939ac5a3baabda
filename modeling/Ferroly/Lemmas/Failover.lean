import Ferroly.Genai.Spec

/-!
# The loop over the candidates

What one call of a provider can do, with and without retries, and from it what the loop of the model router does: each candidate has a
fate, what is recorded of it agrees with it, and the result is the verdict.
-/

namespace Ferroly.Genai

open Clients List DefaultRouter Ferroly.Task

variable {last : Option GenAiError}

variable {α β : Type}

/-! ## Calls -/

/-- Every call of a provider ends, if there is no deadline for it. -/
def Env.answers (env : Env α) (limit : Option Nat) : Prop := limit = none → ∀ log p req, (env.reply log p req).took.isSome = true

/-- What a part of the calls for one candidate did: it only called the provider; it did not panic; the deadline struck only if there is
one; and it ended if the provider answers. -/
structure Called (env : Env α) (provider : Str) (request : CompletionRequest) (limit : Option Nat) (w : World α)
    (o : Except (Fault CallEnd) β × World α) : Prop where
  log : ∃ n, o.2.log = w.log ++ replicate n (.called provider request)
  noPanic : o.1 ≠ .error .panic
  noLate : limit = none → o.1 ≠ .error (.error .late)
  ends : env.answers limit → o.1 ≠ .error .diverge

/-- A part of the calls for one candidate. -/
def Calling (env : Env α) (provider : Str) (request : CompletionRequest) (limit : Option Nat) (t : Task (World α) CallEnd β) : Prop :=
  ∀ w, Called env provider request limit w (t w)

section Calling

variable {env : Env α} {provider : Str} {request : CompletionRequest} {limit : Option Nat}

variable {γ : Type}

theorem Called.trans {w : World α} {o : Except (Fault CallEnd) β × World α} {o' : Except (Fault CallEnd) γ × World α}
    (h : Called env provider request limit w o) (h' : Called env provider request limit o.2 o') :
    Called env provider request limit w o' := by
  refine ⟨?_, h'.noPanic, h'.noLate, h'.ends⟩
  obtain ⟨n, hn⟩ := h.log
  obtain ⟨m, hm⟩ := h'.log
  exact ⟨n + m, by rw [hm, hn, append_assoc, replicate_append_replicate]⟩

theorem Called.error {w w' : World α} {e : Fault CallEnd}
    (h : Called env provider request limit w ((.error e : Except (Fault CallEnd) β), w')) :
    Called env provider request limit w ((.error e : Except (Fault CallEnd) γ), w') :=
  ⟨h.log, by simpa using h.noPanic, by simpa using h.noLate, by simpa using h.ends⟩

variable {t : Task (World α) CallEnd β}

theorem Calling.bind {f : β → Task (World α) CallEnd γ} (ht : Calling env provider request limit t)
    (hf : ∀ b, Calling env provider request limit (f b)) :
    Calling env provider request limit (t >>= f) := by
  intro w
  have h := ht w
  refine bind_post (P := Called env provider request limit w) ?_ ?_
  · intro e w' heq
    rw [heq] at h
    exact h.error
  · intro b w' heq
    rw [heq] at h
    exact h.trans (hf b w')

theorem called_same {w w' : World α} {b : β} (hlog : w'.log = w.log) : Called env provider request limit w (.ok b, w') :=
  ⟨⟨0, by rw [hlog]; exact (append_nil _).symm⟩, nofun, fun _ => nofun, fun _ => nofun⟩

theorem calling_pure (b : β) : Calling env provider request limit (pure b : Task (World α) CallEnd β) := fun _ => called_same rfl

variable {e : GenAiError}

theorem called_failed {w : World α} :
    Called env provider request limit w ((.error (.error (.failed e)) : Except (Fault CallEnd) β), w) :=
  ⟨⟨0, (append_nil _).symm⟩, nofun, fun _ => nofun, fun _ => nofun⟩

theorem calling_failed : Calling env provider request limit (fail (.failed e) : Task (World α) CallEnd β) :=
  fun _ => called_failed

/-- A wait ends if what is waited for does or there is a deadline. -/
theorem calling_wait {took : Option Nat} (htook : env.answers limit → limit = none → took.isSome = true) :
    Calling env provider request limit (wait limit took : Task (World α) CallEnd Unit) := by
  intro w
  unfold wait
  rcases took with _ | d
  · rcases limit with _ | t
    · exact ⟨⟨0, (append_nil _).symm⟩, nofun, fun _ => nofun, fun h => absurd (htook h rfl) nofun⟩
    · exact ⟨⟨0, (append_nil _).symm⟩, nofun, nofun, fun _ => nofun⟩
  · rcases limit with _ | t
    · exact called_same rfl
    · dsimp only
      split
      · exact called_same rfl
      · exact ⟨⟨0, (append_nil _).symm⟩, nofun, nofun, fun _ => nofun⟩

theorem calling_complete : Calling env provider request limit (complete env limit provider request) := by
  refine Calling.bind (fun w => ⟨⟨1, rfl⟩, nofun, fun _ => nofun, fun _ => nofun⟩) (fun _ => ?_)
  refine Calling.bind (fun w => called_same rfl) (fun w => ?_)
  refine Calling.bind (calling_wait (fun h hlimit => h hlimit _ _ _)) (fun _ => ?_)
  split
  · exact calling_pure _
  · exact calling_failed

/-- A call whose error is looked at, but not if it was late. -/
theorem Calling.attempt {f : Except CallEnd β → Task (World α) CallEnd β} (ht : Calling env provider request limit t)
    (hok : ∀ b, Calling env provider request limit (f (.ok b))) (hfailed : ∀ e, Calling env provider request limit (f (.error (.failed e))))
    (hlate : f (.error .late) = fail .late) :
    Calling env provider request limit ((t.attempt : Task (World α) CallEnd (Except CallEnd β)) >>= f) := by
  intro w
  have h := ht w
  revert h
  rw [bind_apply]
  unfold Task.attempt
  rcases t w with ⟨((_ | e) | _ | _) | b, w1⟩ <;> intro h
  · dsimp only
    rw [hlate]
    exact h
  · exact h.trans (hfailed e w1)
  · exact h.error
  · exact h.error
  · exact h.trans (hok b w1)

theorem calling_retryLoop (policy : RetryPolicy) (left attempt : Nat) :
    Calling env provider request limit (retryLoop policy retryIf (fun d => wait limit (some d))
      (complete env limit provider request) left attempt) := by
  induction left generalizing attempt with
  | zero =>
    unfold retryLoop
    exact calling_complete.attempt (fun b => calling_pure b) (fun e => calling_failed) rfl
  | succ left ih =>
    unfold retryLoop
    refine calling_complete.attempt (fun b => calling_pure b) (fun e => ?_) rfl
    dsimp only
    split
    · exact calling_failed
    · exact Calling.bind (calling_wait (fun _ _ => rfl)) (fun _ => ih (attempt + 1))

theorem calling_callWithRetry (r : DefaultRouter) : Calling env provider request limit (r.callWithRetry env limit provider request) := by
  unfold callWithRetry
  split
  · exact calling_retryLoop _ _ _
  · exact calling_complete

end Calling

/-! ## The parts of a turn -/

section Turn

variable (r : DefaultRouter) (env : Env α) (task : RoutingTask)

/-- Other events do not matter to when the clock was last read. -/
theorem lastRead_append {log es : List (Event α)} (h : ∀ o e, e ∈ es → reading o e = o) : lastRead (log ++ es) = lastRead log := by
  unfold lastRead
  rw [foldl_append]
  generalize log.foldl reading none = o
  induction es with
  | nil => rfl
  | cons e es ih =>
    rw [foldl_cons, h o e mem_cons_self]
    exact ih (fun o e he => h o e (mem_cons_of_mem _ he))

theorem remaining_cases (w : World α) : (∃ now dl w', task.deadline = some dl ∧ dl ≤ now ∧ w'.log = w.log ++ [.read now] ∧
        remaining env task w = (.error (.error .deadlineExceeded), w')) ∨
      ∃ left es w', InTime task es ∧ left.isSome = task.deadline.isSome ∧
        (∀ dl, task.deadline = some dl → ∃ now, left = some (dl - now) ∧ now < dl ∧ lastRead w'.log = some now) ∧
        w'.log = w.log ++ es ∧
        remaining env task w = (.ok left, w') := by
  unfold remaining
  rcases hdl : task.deadline with _ | dl
  · exact .inr ⟨none, [], w, .unbounded hdl, rfl, nofun, (append_nil _).symm, rfl⟩
  · by_cases hle : dl ≤ w.now + env.delay w.log
    · exact .inl ⟨_, dl, _, rfl, hle, rfl, congrFun (if_pos hle) _⟩
    · refine .inr ⟨some (dl - (w.now + env.delay w.log)), _, ⟨_, w.breakers, _⟩, .before _ dl hdl (Nat.lt_of_not_le hle), rfl, ?_, rfl,
        congrFun (if_neg hle) _⟩
      rintro dl' ⟨⟩
      exact ⟨_, rfl, Nat.lt_of_not_le hle, foldl_append⟩

theorem canExecute_log (c : Candidate) (w : World α) :
    ∃ w', (r.canExecute env c : Task (World α) RouterError Bool) w = (.ok true, w') ∧
        w'.log = w.log ++ (if r.breakerCfg.isSome then [.admitted (breakerKey c)] else []) ∨
      (r.canExecute env c : Task (World α) RouterError Bool) w = (.ok false, w') ∧
        w'.log = w.log ++ [.refused (breakerKey c)] ∧ r.breakerCfg.isSome = true := by
  unfold canExecute
  rcases hcfg : r.breakerCfg with _ | cfg
  · exact ⟨w, .inl ⟨rfl, (append_nil _).symm⟩⟩
  · dsimp only
    split
    · exact ⟨_, .inl ⟨rfl, rfl⟩⟩
    · exact ⟨_, .inr ⟨rfl, rfl, rfl⟩⟩

theorem onExecution_log (c : Candidate) (success : Bool) (w : World α) :
    ∃ w', (r.onExecution env c success : Task (World α) RouterError Unit) w = (.ok (), w') ∧ w'.log = w.log ++ reports r c success := by
  unfold onExecution reports
  rcases r.breakerCfg with _ | cfg
  · exact ⟨w, rfl, (append_nil _).symm⟩
  · exact ⟨_, rfl, rfl⟩

/-- The outcome of a candidate is recorded, after the calls of its provider. -/
theorem outcome_log {provider : Str} {req : CompletionRequest} {call : Option Nat → Task (World α) CallEnd α}
    (hcall : ∀ limit, Calling env provider req limit (call limit)) (left : Option Nat) (w : World α) :
    (¬env.answers left ∧ ∃ w', (outcome left call : Task (World α) RouterError _) w = (.error .diverge, w')) ∨
      ∃ n o w', (outcome left call : Task (World α) RouterError _) w = (.ok o, w') ∧
        w'.log = w.log ++ replicate n (.called provider req) ++ [.ended o] ∧ (o = none → left.isSome = true) ∧
        (o = none → (call (left.map (w.now + ·)) w).1 = .error (.error .late)) := by
  unfold outcome
  rw [bind_of_ok (p := get) rfl, bind_apply]
  unfold attempt
  have h := hcall (left.map (w.now + ·)) w
  revert h
  rcases call (left.map (w.now + ·)) w with ⟨((_ | e) | _ | _) | v, w1⟩ <;> rintro ⟨⟨n, hn⟩, hpanic, hlate, hends⟩
  · refine .inr ⟨n, none, _, rfl, by rw [← hn], fun _ => ?_, fun _ => rfl⟩
    rcases left with _ | t
    · exact absurd rfl (hlate rfl)
    · rfl
  · exact .inr ⟨n, some (.error e), _, rfl, by rw [← hn], nofun, nofun⟩
  · exact absurd rfl hpanic
  · refine .inl ⟨fun h => hends (fun hnone => h ?_) rfl, _, rfl⟩
    rcases left with _ | t
    · rfl
    · cases hnone
  · exact .inr ⟨n, some (.ok v), _, rfl, by rw [← hn], nofun, nofun⟩

end Turn

/-! ## The loop -/

/-- The result from the fates of the candidates that are left, with the number of those tried before and the last error. -/
def verdictFrom (tried : Nat) (last : Option GenAiError) (fates : List (Fate α)) : Except RouterError α :=
  match fates.findSome? Fate.settles with
  | some result => result
  | none =>
    .error (giveUp (tried + (fates.filterMap Fate.error?).length) ((fates.filterMap Fate.error?).getLast?.or last))

variable {result : Except RouterError α}

theorem verdictFrom_settled {tried : Nat} {f : Fate α} (hf : f.settles = some result) : verdictFrom tried last [f] = result := by
  unfold verdictFrom
  rw [findSome?_cons, hf]

variable {fates : List (Fate α)}

theorem verdictFrom_skip {tried : Nat} {f : Fate α} (hf : f.settles = none) (he : f.error? = none) :
    verdictFrom tried last (f :: fates) = verdictFrom tried last fates := by
  unfold verdictFrom
  rw [findSome?_cons, hf, filterMap_cons_none he]

theorem verdictFrom_error {tried : Nat} {e : GenAiError} (hf : (Fate.answered (.error e) : Fate α).settles = none) :
    verdictFrom tried last (.answered (.error e) :: fates) = verdictFrom (tried + 1) (some e) fates := by
  have hlast : ∀ l : List GenAiError, (e :: l).getLast?.or last = l.getLast?.or (some e) := by
    intro l
    rw [getLast?_cons]
    rcases l.getLast? with _ | x <;> rfl
  have herror : (Fate.answered (.error e) : Fate α).error? = some e := rfl
  unfold verdictFrom
  rw [findSome?_cons, hf, filterMap_cons_some herror, hlast, length_cons, Nat.add_right_comm, Nat.add_assoc]

section Loop

variable {r : DefaultRouter} {env : Env α} {task : RoutingTask} {request : CompletionRequest}
  {call : Option Nat → Str → CompletionRequest → Task (World α) CallEnd α} {onLate : Candidate → Task (World α) RouterError Unit}
  {reportsLate : Bool} {prompt : Prop}

/-- A call of a provider that begins after the clock was read ends before the deadline. -/
def Prompt (task : RoutingTask) (call : Option Nat → Str → CompletionRequest → Task (World α) CallEnd α) : Prop :=
  ∀ dl, task.deadline = some dl → ∀ w now p req, lastRead w.log = some now → now < dl →
    (call (some (w.now + (dl - now))) p req w).1 ≠ .error (.error .late)

/-- The loop over some candidates ends with the verdict on their fates, if the providers answer or there is a deadline; and no candidate
is late if the calls are prompt. -/
def Concludes (r : DefaultRouter) (env : Env α) (task : RoutingTask) (request : CompletionRequest) (reportsLate : Bool) (prompt : Prop)
    (cs : List Candidate) (tried : Nat) (last : Option GenAiError) (w : World α) (o : Except (Fault RouterError) α × World α) : Prop :=
  (¬env.answers task.deadline ∧ o.1 = .error .diverge) ∨
    ∃ fs es w', Course (Told r task request reportsLate) cs fs es ∧ w'.log = w.log ++ es ∧ (prompt → Fate.late ∉ fs) ∧
      o = ((verdictFrom tried last fs).mapError Fault.error, w')

variable {c : Candidate} {cs : List Candidate} {tried : Nat} {w w1 : World α} {es : List (Event α)}
  {o : Except (Fault RouterError) α × World α}

/-- A candidate settles the result. -/
theorem Concludes.stop {f : Fate α} (result : Except RouterError α) (htold : Told r task request reportsLate c f es)
    (hf : f.settles = some result) (hlog : w1.log = w.log ++ es) (hprompt : prompt → f ≠ .late) :
    Concludes r env task request reportsLate prompt (c :: cs) tried last w (result.mapError Fault.error, w1) := by
  refine .inr ⟨[f], es, w1, .stop c cs f es htold (by rw [hf]; rfl), hlog, ?_, ?_⟩
  · intro hp hmem
    exact hprompt hp (mem_singleton.mp hmem).symm
  · rw [verdictFrom_settled hf]

/-- After a candidate whose fate does not end the search, the rest of the loop decides. -/
theorem Concludes.go {f : Fate α} {tried' : Nat} {last' : Option GenAiError} (htold : Told r task request reportsLate c f es)
    (hf : f.settles = none) (hverdict : ∀ fs, verdictFrom tried last (f :: fs) = verdictFrom tried' last' fs)
    (hlog : w1.log = w.log ++ es) (h : Concludes r env task request reportsLate prompt cs tried' last' w1 o) :
    Concludes r env task request reportsLate prompt (c :: cs) tried last w o := by
  rcases h with h | ⟨fs, es', w', hcourse, hlog', hlate, rfl⟩
  · exact .inl h
  · refine .inr ⟨f :: fs, es ++ es', w', .go c cs f fs es es' htold hf hcourse, ?_, ?_, by rw [hverdict]⟩
    · rw [hlog', hlog, append_assoc]
    · intro hp hmem
      rcases mem_cons.mp hmem with rfl | hmem
      · cases hf
      · exact hlate hp hmem

theorem failover_concludes (hcall : ∀ limit p req, Calling env p req limit (call limit p req))
    (hlate : ∀ c w, ∃ w', onLate c w = (.ok (), w') ∧ w'.log = w.log ++ if reportsLate then reports r c false else [])
    (cs : List Candidate) (tried : Nat) (last : Option GenAiError) (w : World α) :
    Concludes r env task request reportsLate (Prompt task call) cs tried last w
      (r.failover env task request call onLate cs tried last w) := by
  induction cs generalizing tried last w with
  | nil => exact .inr ⟨[], [], w, .done, (append_nil _).symm, fun _ => not_mem_nil, by rcases last with _ | e <;> rfl⟩
  | cons c cs ih =>
    rw [failover]
    rcases remaining_cases env task w with ⟨now, dl, w1, hdl, hle, hlog, hrun⟩ | ⟨left, es, w1, htime, hleft, hread, hlog, hrun⟩
    · rw [bind_of_error hrun]
      exact .stop (.error .deadlineExceeded) (.expired now dl hdl hle) rfl hlog (fun _ => nofun)
    rw [bind_of_ok hrun]
    split
    · rename_i hnot
      exact .go (.unregistered es htime hnot) rfl (fun _ => verdictFrom_skip rfl rfl) hlog (ih tried last w1)
    rename_i hmem
    rw [not_not] at hmem
    obtain ⟨w2, ⟨hrun2, hlog2⟩ | ⟨hrun2, hlog2, hcfg⟩⟩ := canExecute_log r env c w1
    swap
    · rw [bind_of_ok hrun2]
      exact .go (.refused es htime hmem hcfg) rfl (fun _ => verdictFrom_skip rfl rfl) (by rw [hlog2, hlog, append_assoc]) (ih tried last w2)
    -- The candidate is tried.
    rw [bind_of_ok hrun2, Bool.not_true, if_neg Bool.false_ne_true, bind_of_ok (p := tell (.dispatched c)) rfl]
    rcases outcome_log env (fun limit => hcall limit c.provider (r.prepare task request c)) left
      ⟨w2.now, w2.breakers, w2.log ++ [.dispatched c]⟩ with ⟨hanswers, w3, hrun3⟩ | ⟨n, o, w3, hrun3, hlog3, hnone, hstruck⟩
    · refine .inl ⟨fun h => hanswers (fun hnone => h ?_), by rw [bind_of_error hrun3]⟩
      rw [← Option.not_isSome_iff_eq_none, ← hleft, hnone]
      exact Bool.false_ne_true
    rw [bind_of_ok hrun3]
    have htried : w3.log = w.log ++ (es ++ attempted r task request c n o) := by
      rw [hlog3, hlog2, hlog]
      unfold attempted
      simp only [append_assoc]
    rcases o with _ | result
    · obtain ⟨w4, hrun4, hlog4⟩ := hlate c w3
      refine Eq.mpr (congrArg _ (bind_of_ok hrun4)) ?_
      have hdl : task.deadline.isSome = true := hleft ▸ hnone rfl
      refine Concludes.stop (.error .deadlineExceeded) (.late es n htime hmem hdl) rfl ?_ ?_
      · rw [hlog4, htried, append_assoc, append_assoc]
      · intro hprompt _
        obtain ⟨dl, hdl⟩ := Option.isSome_iff_exists.mp hdl
        obtain ⟨now, rfl, hlt, hnow⟩ := hread dl hdl
        refine hprompt dl hdl _ now c.provider (r.prepare task request c) ?_ hlt (hstruck rfl)
        rw [← hnow]
        refine (lastRead_append ?_).trans ?_
        · intro o e he
          rw [mem_singleton.mp he]
          rfl
        · rw [hlog2]
          refine lastRead_append ?_
          intro o e he
          split at he
          · rw [mem_singleton.mp he]
            rfl
          · cases he
    obtain ⟨w4, hrun4, hlog4⟩ := onExecution_log r env c result.isOk w3
    have htold : Told r task request reportsLate c (.answered result) _ := .answered es n result htime hmem
    have hlog5 : w4.log = w.log ++ (es ++ (attempted r task request c n (some result) ++ reports r c result.isOk)) := by
      rw [hlog4, htried, append_assoc, append_assoc]
    dsimp only
    rw [bind_of_ok hrun4]
    rcases result with e | v
    swap
    · exact .stop (.ok v) htold rfl hlog5 (fun _ => nofun)
    dsimp only
    split
    · rename_i hretry
      exact .go htold (if_pos hretry) (fun _ => verdictFrom_error (if_pos hretry)) hlog5 (ih (tried + 1) (some e) w4)
    · rename_i hretry
      exact .stop (.error (.genAi e)) htold (if_neg hretry) hlog5 (fun _ => nofun)

end Loop

/-! ## What a course says -/

variable {n : Nat} {success : Bool}

section Course

variable {r : DefaultRouter} {task : RoutingTask} {request : CompletionRequest} {reportsLate : Bool} {c : Candidate} {cs : List Candidate}
  {f : Fate α} {fs : List (Fate α)} {es : List (Event α)}

theorem InTime.dispatch (h : InTime task es) : es.filterMap Event.dispatch? = [] := by
  cases h <;> rfl

theorem attempted_dispatch (o : Option (Except GenAiError α)) : (attempted r task request c n o).filterMap Event.dispatch? = [c] := by
  have hcalls : (replicate n (Event.called c.provider (r.prepare task request c) : Event α)).filterMap Event.dispatch? = [] := by
    rw [filterMap_eq_nil_iff]
    intro e he
    rw [eq_of_mem_replicate he]
    rfl
  unfold attempted
  rw [filterMap_append, filterMap_append, hcalls]
  split <;> rfl

theorem reports_dispatch : (reports r c success : List (Event α)).filterMap Event.dispatch? = [] := by
  unfold reports
  split <;> rfl

/-- A candidate is dispatched just in case it is tried. -/
theorem Told.dispatch (h : Told r task request reportsLate c f es) : es.filterMap Event.dispatch? = match f with
      | .late => [c]
      | .answered _ => [c]
      | _ => [] := by
  cases h with
  | expired now dl hdl hle => rfl
  | unregistered es hes hnot => exact hes.dispatch
  | refused es hes hmem hb =>
    rw [filterMap_append, hes.dispatch]
    rfl
  | late es n hes hmem hdl =>
    rw [filterMap_append, filterMap_append, hes.dispatch, attempted_dispatch]
    split
    · rw [reports_dispatch]
      rfl
    · rfl
  | answered es n result hes hmem =>
    rw [filterMap_append, filterMap_append, hes.dispatch, attempted_dispatch, reports_dispatch]
    rfl

theorem Told.dispatch_sublist (h : Told r task request reportsLate c f es) : (es.filterMap Event.dispatch?).Sublist [c] := by
  rw [h.dispatch]
  split
  · exact List.Sublist.refl _
  · exact List.Sublist.refl _
  · exact nil_sublist _

/-- The candidates are dispatched in order, some of them left out. -/
theorem Course.dispatch (h : Course (Told r task request reportsLate) cs fs es) : (es.filterMap Event.dispatch?).Sublist cs := by
  induction h with
  | done => exact List.Sublist.refl _
  | stop c cs f es ht hf => exact ht.dispatch_sublist.trans (singleton_sublist.mpr mem_cons_self)
  | go c cs f fs es es' ht hf _ ih =>
    rw [filterMap_append]
    exact ht.dispatch_sublist.append ih

/-- If no candidate settles the result, as many were dispatched as have failed. -/
theorem Course.dispatch_length (h : Course (Told r task request reportsLate) cs fs es) (hfs : fs.findSome? Fate.settles = none) :
    (es.filterMap Event.dispatch?).length = (fs.filterMap Fate.error?).length := by
  induction h with
  | done => rfl
  | stop c cs f es ht hf =>
    rw [findSome?_cons] at hfs
    rcases hsettles : f.settles with _ | result
    · rw [hsettles] at hf
      cases hf
    · rw [hsettles] at hfs
      cases hfs
  | go c cs f fs es es' ht hf _ ih =>
    rw [findSome?_cons, hf] at hfs
    rw [filterMap_append, length_append, ih hfs, ht.dispatch]
    cases f with
    | expired | late => cases hf
    | unregistered | refused => exact Nat.zero_add _
    | answered result =>
      cases result with
      | ok v => cases hf
      | error e => exact Nat.add_comm _ _

theorem settles_cases (h : fs.findSome? Fate.settles = some result) :
    (∃ v, result = .ok v) ∨ result = .error .deadlineExceeded ∨ ∃ e, result = .error (.genAi e) := by
  obtain ⟨f, -, hf⟩ := exists_of_findSome?_eq_some h
  cases f with
  | expired | late => exact .inr (.inl (Option.some.inj hf).symm)
  | unregistered => cases hf
  | refused => cases hf
  | answered result =>
    cases result with
    | ok v => exact .inl ⟨v, (Option.some.inj hf).symm⟩
    | error e =>
      rw [Fate.settles] at hf
      split at hf
      · cases hf
      · exact .inr (.inr ⟨e, (Option.some.inj hf).symm⟩)

/-- The error that all routes failed counts the candidates that were dispatched, and that there is no route says that none was. -/
theorem Course.counts (h : Course (Told r task request reportsLate) cs fs es) :
    (∀ n e, verdict fs = .error (.allRoutesFailed n e) → n = (es.filterMap Event.dispatch?).length ∧ 0 < n) ∧
      ∀ reason, verdict fs = .error (.noRoute reason) → es.filterMap Event.dispatch? = [] := by
  unfold verdict
  rcases hfs : fs.findSome? Fate.settles with _ | result
  · have hlength := h.dispatch_length hfs
    rcases hlast : (fs.filterMap Fate.error?).getLast? with _ | e
    · refine ⟨nofun, fun reason _ => ?_⟩
      rw [getLast?_eq_none_iff.mp hlast] at hlength
      exact length_eq_zero_iff.mp hlength
    · refine ⟨?_, nofun⟩
      rintro n e' ⟨⟩
      refine ⟨hlength.symm, length_pos_iff.mpr ?_⟩
      intro hnil
      rw [hnil] at hlast
      cases hlast
  · rcases settles_cases hfs with ⟨v, rfl⟩ | rfl | ⟨e, rfl⟩
    · exact ⟨nofun, nofun⟩
    · exact ⟨nofun, nofun⟩
    · exact ⟨nofun, nofun⟩

end Course

/-! ## Breakers -/

section Paired

variable {r : DefaultRouter} {task : RoutingTask} {request : CompletionRequest} {c : Candidate} {cs : List Candidate}
  {f : Fate α} {fs : List (Fate α)} {es : List (Event α)}

theorem paired_append {es' : List (Event α)} (h : paired es) (h' : paired es') : paired (es ++ es') := by
  unfold paired at *
  rw [foldl_append, h, h']

theorem InTime.paired (h : InTime task es) : paired es := by
  cases h <;> rfl

/-- Calls of a provider do not matter to the breakers. -/
theorem foldl_pairing_called (o : Option (Option Str)) (p : Str) (req : CompletionRequest) :
    (replicate n (Event.called p req : Event α)).foldl pairing o = o := by
  induction n with
  | zero => rfl
  | succ n ih =>
    have hone : pairing o (Event.called p req : Event α) = o := by rcases o with _ | _ | k <;> rfl
    rw [replicate_succ, foldl_cons, hone, ih]

/-- A candidate that was tried is paired when it is reported. -/
theorem attempted_paired (o : Option (Except GenAiError α)) : paired (attempted r task request c n o ++ reports r c success) := by
  unfold paired attempted reports
  rw [foldl_append, foldl_append, foldl_append, foldl_append]
  split
  · simp only [foldl_cons, foldl_nil, pairing, foldl_pairing_called, if_true]
  · simp only [foldl_cons, foldl_nil, pairing, foldl_pairing_called]

theorem Told.paired {reportsLate : Bool} (h : Told r task request reportsLate c f es)
    (hlate : f = .late → reportsLate = true ∨ r.breakerCfg = none) : paired es := by
  cases h with
  | expired now dl hdl hle => rfl
  | unregistered es hes hnot => exact hes.paired
  | refused es hes hmem hb => exact paired_append hes.paired rfl
  | late es n hes hmem hdl =>
    refine paired_append hes.paired ?_
    have hreports : (if reportsLate then reports r c false else []) = (reports r c false : List (Event α)) := by
      rcases hlate rfl with h | h
      · exact if_pos h
      · unfold reports
        rw [h]
        exact ite_self _
    rw [hreports]
    exact attempted_paired none
  | answered es n result hes hmem => exact paired_append hes.paired (attempted_paired _)

theorem Course.paired {told : Candidate → Fate α → List (Event α) → Prop} (h : Course told cs fs es)
    (htold : ∀ c f es, told c f es → f ∈ fs → paired es) : Genai.paired es := by
  induction h with
  | done => rfl
  | stop c cs f es ht hf => exact htold c f es ht mem_cons_self
  | go c cs f fs es es' ht hf _ ih =>
    exact paired_append (htold c f es ht mem_cons_self) (ih (fun c f es ht hmem => htold c f es ht (mem_cons_of_mem _ hmem)))

end Paired

/-! ## The two functions -/

section Execute

variable (r : DefaultRouter) (env : Env α) (task : RoutingTask) (request : CompletionRequest) (route : Route) (w : World α)

theorem execute_concludes :
    Concludes r env task request true (Prompt task (r.callWithRetry env)) route.attempts 0 none w (r.execute env task request route w) :=
  failover_concludes (fun _ _ _ => calling_callWithRetry r) (fun c w => onExecution_log r env c false w) _ _ _ _

theorem executeStream_concludes :
    Concludes r env task request false (Prompt task (complete env)) route.attempts 0 none w (r.executeStream env task request route w) :=
  failover_concludes (fun _ _ _ => calling_complete) (fun _ w => ⟨w, rfl, (append_nil _).symm⟩) _ _ _ _

/-- A provider that answers in time is not cut off. -/
theorem prompt_complete (h : ∀ dl, task.deadline = some dl → env.inTime dl) : Prompt task (complete env) := by
  intro dl hdl w now p req hread hlt
  have hlast : lastRead (w.log ++ [.called p req]) = some now := by
    rw [lastRead_append, hread]
    intro o e he
    rw [mem_singleton.mp he]
    rfl
  obtain ⟨d, htook, hle⟩ := h dl hdl _ p req now hlast hlt
  unfold complete
  rw [bind_of_ok (p := tell (.called p req)) rfl, bind_of_ok (p := get) rfl]
  have hwait : wait (some (w.now + (dl - now))) (env.reply (w.log ++ [.called p req]) p req).took
      (⟨w.now, w.breakers, w.log ++ [.called p req]⟩ : World α) = (.ok (), ⟨w.now + d, w.breakers, w.log ++ [.called p req]⟩) := by
    rw [htook]
    exact if_pos (by dsimp only; omega)
  rw [bind_of_ok hwait]
  rcases hresult : (env.reply (w.log ++ [.called p req]) p req).result with e | v
  · rw [hresult]
    exact nofun
  · rw [hresult]
    exact nofun

end Execute

end Ferroly.Genai
