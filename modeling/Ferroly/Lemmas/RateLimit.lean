import Mathlib.Tactic.Linarith
import Mathlib.Tactic.Ring
import Ferroly.Turbo.RateLimit

/-!
# What a bucket holds

All that the limiter does is said by the tokens each key has from now on: a key without a bucket has a full one. A sweep changes none
of them, and a request takes at most one from its own key.
-/

namespace Ferroly.Turbo

open List Http RateState

variable {κ : Type} [DecidableEq κ] {rate : Rate}

/-- The tokens of a key at a time. -/
def RateState.level (rate : Rate) (st : RateState κ) (key : κ) (now : ℚ) : ℚ :=
  ((st.buckets.lookup key).getD ⟨rate.burst, now⟩).refilled rate now

section

variable (hrate : 0 ≤ rate.perSecond)

include hrate

theorem Bucket.refilled_mono (b : Bucket) {s t : ℚ} (h : s ≤ t) : b.refilled rate s ≤ b.refilled rate t := by
  have hsince : durationSince s b.last ≤ durationSince t b.last := max_le_max (by linarith) le_rfl
  exact min_le_min_right _ (by linarith [mul_le_mul_of_nonneg_right hsince hrate])

/-- A bucket gains no more than the rate says. -/
theorem Bucket.refilled_le (b : Bucket) {s t : ℚ} (h : s ≤ t) : b.refilled rate t ≤ b.refilled rate s + (t - s) * rate.perSecond := by
  have hsince : durationSince t b.last ≤ durationSince s b.last + (t - s) := by
    have hle : s - b.last ≤ durationSince s b.last := le_max_left _ _
    have hnonneg : 0 ≤ durationSince s b.last := le_max_right _ _
    exact max_le (by linarith) (by linarith)
  have hmul := mul_le_mul_of_nonneg_right hsince hrate
  have hgain := mul_nonneg (sub_nonneg.mpr h) hrate
  rcases min_choice (b.tokens + durationSince s b.last * rate.perSecond) rate.burst with hs | hs
  · refine (min_le_left _ _).trans ?_
    rw [Bucket.refilled]
    linarith
  · refine (min_le_right _ _).trans ?_
    rw [Bucket.refilled]
    linarith

end

theorem Bucket.refilled_le_burst (b : Bucket) (now : ℚ) : b.refilled rate now ≤ rate.burst := min_le_right _ _

namespace RateState

variable {st : RateState κ} {key k : κ} {now t : ℚ}

theorem level_none (h : st.buckets.lookup key = none) : st.level rate key now = rate.burst := by
  simp [level, h, Bucket.refilled, durationSince]

theorem level_some {b : Bucket} (h : st.buckets.lookup key = some b) : st.level rate key now = b.refilled rate now := by
  rw [level, h, Option.getD_some]

theorem level_le_burst (st : RateState κ) (key : κ) (now : ℚ) : st.level rate key now ≤ rate.burst :=
  Bucket.refilled_le_burst _ _

theorem level_le (hrate : 0 ≤ rate.perSecond) (st : RateState κ) (key : κ) (h : now ≤ t) :
    st.level rate key t ≤ st.level rate key now + (t - now) * rate.perSecond := by
  rcases hb : st.buckets.lookup key with _ | b
  · rw [level_none hb, level_none hb]
    linarith [mul_nonneg (sub_nonneg.mpr h) hrate]
  · rw [level_some hb, level_some hb]
    exact b.refilled_le hrate h

/-- A bucket that is dropped is full, and stays full. -/
theorem level_sweep (hrate : 0 ≤ rate.perSecond) (st : RateState κ) (key : κ) (h : now ≤ t) :
    (st.sweep rate now).level rate key t = st.level rate key t := by
  unfold sweep
  split
  · rcases hb : st.buckets.lookup key with _ | b
    · rw [level_none hb, level_none (by rw [HashMap.lookup_retain, hb, Option.filter_none])]
    · by_cases hlt : b.refilled rate now < rate.burst
      · have hkept : (st.buckets.retain fun _ b => b.refilled rate now < rate.burst).lookup key = some b := by
          simp [HashMap.lookup_retain, hb, hlt]
        rw [level_some hb, level_some hkept]
      · have hdropped : (st.buckets.retain fun _ b => b.refilled rate now < rate.burst).lookup key = none := by
          simp [HashMap.lookup_retain, hb, not_lt.mp hlt]
        rw [level_some hb, level_none hdropped]
        exact le_antisymm ((not_lt.mp hlt).trans (b.refilled_mono hrate h)) (b.refilled_le_burst t)
  · rfl

/-- What a request takes from the tokens of a key. -/
def price (rate : Rate) (st : RateState κ) (key : κ) (now : ℚ) : ℚ := if 1 ≤ st.level rate key now then 1 else 0

theorem spend_eq (st : RateState κ) (key : κ) (now : ℚ) : st.spend rate key now = (decide (1 ≤ st.level rate key now),
      { st with buckets := st.buckets.insert key ⟨st.level rate key now - st.price rate key now, now⟩ }) := by
  rw [price]
  by_cases h : 1 ≤ st.level rate key now
  · rw [if_pos h, decide_eq_true h]
    exact if_pos h
  · rw [if_neg h, sub_zero, decide_eq_false h]
    exact if_neg h

theorem level_spend_self (h : now ≤ t) : (st.spend rate key now).2.level rate key t =
      min (st.level rate key now - st.price rate key now + (t - now) * rate.perSecond) rate.burst := by
  rw [level_some (by rw [spend_eq, AList.lookup_insert]), Bucket.refilled, durationSince, max_eq_left (sub_nonneg.mpr h)]

theorem level_spend_ne (h : k ≠ key) : (st.spend rate key now).2.level rate k t = st.level rate k t := by
  rw [level, level, spend_eq, AList.lookup_insert_ne h]

/-- No key owes tokens. -/
theorem level_spend_nonneg (st : RateState κ) (key : κ) (hrate : 0 ≤ rate.perSecond) (hburst : 0 ≤ rate.burst) (h : now ≤ t) (hk : 0 ≤ st.level rate k t)
    (hkey : 0 ≤ st.level rate key now) : 0 ≤ (st.spend rate key now).2.level rate k t := by
  by_cases hne : k = key
  · subst hne
    rw [level_spend_self h, price]
    refine le_min ?_ hburst
    have hgain := mul_nonneg (sub_nonneg.mpr h) hrate
    split <;> linarith
  · rw [level_spend_ne hne]
    exact hk

end RateState

/-! ## Runs -/

variable {keyOf : Ctx → κ}

theorem limitRun_swept (r : Ctx × ℚ) (rs : List (Ctx × ℚ)) (st : RateState κ) : limitRun (rateLimit rate keyOf) (r :: rs) st =
      (r, limitAnswer (decide (1 ≤ (st.sweep rate r.2).level rate (keyOf r.1) r.2))) ::
        limitRun (rateLimit rate keyOf) rs ((st.sweep rate r.2).spend rate (keyOf r.1) r.2).2 := by
  rw [limitRun, rateLimit, spend_eq]

theorem limitRun_unswept (r : Ctx × ℚ) (rs : List (Ctx × ℚ)) (st : RateState κ) :
    limitRun (rateLimitUnswept rate keyOf) (r :: rs) st = (r, limitAnswer (decide (1 ≤ st.level rate (keyOf r.1) r.2))) ::
        limitRun (rateLimitUnswept rate keyOf) rs (st.spend rate (keyOf r.1) r.2).2 := by
  rw [limitRun, rateLimitUnswept, spend_eq]

/-- Two limiters that give every key the same tokens from now on answer alike, swept or not. -/
theorem limitRun_eq (hrate : 0 ≤ rate.perSecond) {requests : List (Ctx × ℚ)} {st st' : RateState κ} {now : ℚ}
    (hst : ∀ key t, now ≤ t → st.level rate key t = st'.level rate key t) (hfrom : ∀ r ∈ requests, now ≤ r.2)
    (htimes : requests.Pairwise (fun r r' => r.2 ≤ r'.2)) :
    limitRun (rateLimit rate keyOf) requests st = limitRun (rateLimitUnswept rate keyOf) requests st' := by
  induction requests generalizing st st' now with
  | nil => rfl
  | cons r rs ih =>
    obtain ⟨hnext, htimes⟩ := pairwise_cons.mp htimes
    have hlevel : ∀ key t, r.2 ≤ t → (st.sweep rate r.2).level rate key t = st'.level rate key t := by
      intro key t ht
      rw [level_sweep hrate st key ht, hst key t ((hfrom r mem_cons_self).trans ht)]
    have hspent : ∀ key t, r.2 ≤ t → ((st.sweep rate r.2).spend rate (keyOf r.1) r.2).2.level rate key t =
        (st'.spend rate (keyOf r.1) r.2).2.level rate key t := by
      intro key t ht
      by_cases hne : key = keyOf r.1
      · rw [hne, level_spend_self ht, level_spend_self ht, RateState.price, RateState.price, hlevel (keyOf r.1) r.2 le_rfl]
      · rw [level_spend_ne hne, level_spend_ne hne, hlevel key t ht]
    rw [limitRun_swept, limitRun_unswept, hlevel (keyOf r.1) r.2 le_rfl, ih hspent hnext htimes]

/-- Whether a request of a key was let through in a window of time. -/
def admittedIn (keyOf : Ctx → κ) (key : κ) (start stop : ℚ) (e : (Ctx × ℚ) × Option HttpResponse) : Bool :=
  e.2.isNone && decide (keyOf e.1.1 = key ∧ start ≤ e.1.2 ∧ e.1.2 ≤ stop)

theorem admittedIn_answer (key : κ) (start stop : ℚ) (r : Ctx × ℚ) (admitted : Bool) :
    admittedIn keyOf key start stop (r, limitAnswer admitted) =
      (admitted && decide (keyOf r.1 = key ∧ start ≤ r.2 ∧ r.2 ≤ stop)) := by
  rcases admitted with _ | _ <;> rfl

section

variable (key : κ) (start : ℚ) {stop : ℚ} {requests : List (Ctx × ℚ)} {st : RateState κ} {now : ℚ}

/-- No request after the window is in it. -/
theorem countP_late (limit : ℚ → Filter (RateState κ)) (hlate : ∀ r ∈ requests, stop < r.2) :
    (limitRun limit requests st).countP (admittedIn keyOf key start stop) = 0 := by
  induction requests generalizing st with
  | nil => rfl
  | cons r rs ih =>
    have hr := not_le.mpr (hlate r mem_cons_self)
    have hnot : ∀ answer, ¬admittedIn keyOf key start stop (r, answer) = true := by simp [admittedIn, hr]
    exact (countP_cons_of_neg (hnot _)).trans (ih (forall_mem_cons.mp hlate).2)

variable (hrate : 0 ≤ rate.perSecond) (hburst : 0 ≤ rate.burst)
  (hst : ∀ key t, now ≤ t → 0 ≤ st.level rate key t) (hfrom : ∀ r ∈ requests, now ≤ r.2)
  (htimes : requests.Pairwise (fun r r' => r.2 ≤ r'.2))

include hrate hburst hst hfrom htimes

/-- From a time in the window on, a key is let through no more often than the tokens it has and gains allow. -/
theorem countP_le_level (hnow : now ≤ stop) :
    ((limitRun (rateLimitUnswept rate keyOf) requests st).countP (admittedIn keyOf key start stop) : ℚ) ≤
      st.level rate key now + (stop - now) * rate.perSecond := by
  induction requests generalizing st now with
  | nil =>
    exact add_nonneg (hst key now le_rfl) (mul_nonneg (sub_nonneg.mpr hnow) hrate)
  | cons r rs ih =>
    obtain ⟨hnext, htimes⟩ := pairwise_cons.mp htimes
    have hr : now ≤ r.2 := hfrom r mem_cons_self
    have hgain := st.level_le hrate key hr
    rcases lt_or_ge stop r.2 with hlate | hin
    · rw [countP_late key start _ (forall_mem_cons.mpr ⟨hlate, fun r' hr' => hlate.trans_le (hnext r' hr')⟩)]
      exact add_nonneg (hst key now le_rfl) (mul_nonneg (sub_nonneg.mpr hnow) hrate)
    · have hrest := ih (fun k t ht => st.level_spend_nonneg (keyOf r.1) hrate hburst ht (hst k t (hr.trans ht)) (hst _ _ hr))
        hnext htimes hin
      rw [limitRun_unswept, countP_cons, admittedIn_answer, Nat.cast_add]
      by_cases hkey : keyOf r.1 = key
      · rw [hkey] at hrest ⊢
        rw [level_spend_self le_rfl] at hrest
        have hspent := min_le_left (st.level rate key r.2 - st.price rate key r.2 + (r.2 - r.2) * rate.perSecond) rate.burst
        have hprice : ((if (decide (1 ≤ st.level rate key r.2) && decide (key = key ∧ start ≤ r.2 ∧ r.2 ≤ stop)) = true
            then 1 else 0 : ℕ) : ℚ) ≤ st.price rate key r.2 := by
          rw [RateState.price]
          by_cases h : 1 ≤ st.level rate key r.2 <;> simp [h]
          split <;> simp
        linarith
      · rw [level_spend_ne (Ne.symm hkey)] at hrest
        simp only [hkey, false_and, decide_false, Bool.and_false, Bool.false_eq_true, if_false, Nat.cast_zero]
        linarith

/-- In a window of time, a key is let through no more often than a full bucket and what it gains in the window allow. -/
theorem countP_le_burst (hwindow : start ≤ stop) :
    ((limitRun (rateLimitUnswept rate keyOf) requests st).countP (admittedIn keyOf key start stop) : ℚ) ≤
      rate.burst + (stop - start) * rate.perSecond := by
  induction requests generalizing st now with
  | nil =>
    exact add_nonneg hburst (mul_nonneg (sub_nonneg.mpr hwindow) hrate)
  | cons r rs ih =>
    have hr : now ≤ r.2 := hfrom r mem_cons_self
    obtain ⟨hnext, hrest⟩ := pairwise_cons.mp htimes
    rcases lt_or_ge r.2 start with hearly | hstarted
    · have hnot := not_le.mpr hearly
      rw [limitRun_unswept, countP_cons_of_neg (by simp [admittedIn_answer, hnot])]
      exact ih (fun k t ht => st.level_spend_nonneg _ hrate hburst ht (hst k t (hr.trans ht)) (hst _ _ hr)) hnext hrest
    · rcases lt_or_ge stop r.2 with hlate | hin
      · rw [countP_late key start _ (forall_mem_cons.mpr ⟨hlate, fun r' hr' => hlate.trans_le (hnext r' hr')⟩)]
        exact add_nonneg hburst (mul_nonneg (sub_nonneg.mpr hwindow) hrate)
      · have hgain := mul_le_mul_of_nonneg_right (sub_le_sub_left hstarted stop) hrate
        refine (countP_le_level key start hrate hburst (fun k t ht => hst k t (hr.trans ht))
          (forall_mem_cons.mpr ⟨le_rfl, hnext⟩) htimes hin).trans (add_le_add (st.level_le_burst key r.2) hgain)

end

end Ferroly.Turbo
