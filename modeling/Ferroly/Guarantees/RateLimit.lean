import Ferroly.Lemmas.RateLimit

/-!
# Rate limiting

Dropping full buckets changes no answer, and no key is let through more often than its rate says.
-/

namespace Ferroly.Turbo

open Http

variable {κ : Type} [DecidableEq κ]

/-- For all requests at times that do not decrease, the filter answers each as the filter that never drops a bucket. -/
theorem sweep_lossless (rate : Rate) (keyOf : Ctx → κ) (created : ℚ) (requests : List (Ctx × ℚ)) (hrate : 0 ≤ rate.perSecond)
    (htimes : requests.Pairwise (fun r r' => r.2 ≤ r'.2)) :
    limitRun (rateLimit rate keyOf) requests (RateState.new created) =
      limitRun (rateLimitUnswept rate keyOf) requests (RateState.new created) := by
  rcases requests with _ | ⟨r, rs⟩
  · rfl
  · exact limitRun_eq hrate (fun _ _ _ => rfl) (List.forall_mem_cons.mpr ⟨le_rfl, (List.pairwise_cons.mp htimes).1⟩) htimes

/-- A request for a path. -/
def sampleCtx (path : Str) : Ctx := ⟨⟨.get, ⟨[], [], 0, path, none⟩, HeaderMap.new, []⟩, []⟩

/-- Three requests by path; before the third, the bucket of the first is dropped. -/
def sampleTimes : List (Ctx × ℚ) := [(sampleCtx "a".toList, 0), (sampleCtx "b".toList, 59), (sampleCtx "a".toList, 60)]

theorem sampleTimes_ordered : sampleTimes.Pairwise (fun r r' => r.2 ≤ r'.2) := by
  norm_num [sampleTimes]

theorem sweep_lossless_sample : limitRun (rateLimit ⟨1, 1⟩ Ctx.path) sampleTimes (RateState.new 0) =
      limitRun (rateLimitUnswept ⟨1, 1⟩ Ctx.path) sampleTimes (RateState.new 0) :=
  sweep_lossless ⟨1, 1⟩ Ctx.path 0 sampleTimes zero_le_one sampleTimes_ordered

/-- For all requests at times that do not decrease, every key and every window of time: the requests of the key that are let through
in the window are no more than the burst and what the rate gives in its length. -/
theorem rate_bounded (rate : Rate) (keyOf : Ctx → κ) (created : ℚ) (requests : List (Ctx × ℚ)) (key : κ) (start length : ℚ)
    (hrate : 0 ≤ rate.perSecond) (hburst : 0 ≤ rate.burst) (hlength : 0 ≤ length)
    (htimes : requests.Pairwise (fun r r' => r.2 ≤ r'.2)) :
    ((limitRun (rateLimit rate keyOf) requests (RateState.new created)).countP
      (admittedIn keyOf key start (start + length)) : ℚ) ≤ rate.burst + rate.perSecond * length := by
  rcases requests with _ | ⟨r, rs⟩
  · exact add_nonneg hburst (mul_nonneg hrate hlength)
  have hfrom : ∀ r' ∈ r :: rs, r.2 ≤ r'.2 := List.forall_mem_cons.mpr ⟨le_rfl, (List.pairwise_cons.mp htimes).1⟩
  have hfull : ∀ key t, r.2 ≤ t → 0 ≤ (RateState.new created : RateState κ).level rate key t := fun _ _ _ => by
    rw [RateState.level_none (AList.lookup_empty _)]
    exact hburst
  rw [limitRun_eq hrate (fun _ _ _ => rfl) hfrom htimes]
  refine (countP_le_burst key start hrate hburst hfull hfrom htimes (le_add_of_nonneg_right hlength)).trans_eq ?_
  rw [add_sub_cancel_left, mul_comm]

theorem rate_bounded_sample : ((limitRun (rateLimit ⟨1, 1⟩ Ctx.path) sampleTimes (RateState.new 0)).countP
      (admittedIn Ctx.path "a".toList 0 (0 + 60)) : ℚ) ≤ 1 + 1 * 60 :=
  rate_bounded ⟨1, 1⟩ Ctx.path 0 sampleTimes "a".toList 0 60 zero_le_one zero_le_one (by norm_num) sampleTimes_ordered

section

open List RateState

/-- For all requests at times that do not decrease, a key is answered as if there were no requests of the other keys, by any limiter
that has the same tokens for it. -/
theorem keys_apart {rate : Rate} {keyOf : Ctx → κ} {requests : List (Ctx × ℚ)} {key : κ} {st st' : RateState κ}
    (hrate : 0 ≤ rate.perSecond) (hst : ∀ r ∈ requests, ∀ t ≥ r.2, st.level rate key t = st'.level rate key t)
    (htimes : requests.Pairwise (fun r r' => r.2 ≤ r'.2)) :
    (limitRun (rateLimit rate keyOf) requests st).filter (fun e => keyOf e.1.1 = key) =
      limitRun (rateLimit rate keyOf) (requests.filter (fun r => keyOf r.1 = key)) st' := by
  induction requests generalizing st st' with
  | nil => rfl
  | cons r rs ih =>
    obtain ⟨hnext, htimes⟩ := pairwise_cons.mp htimes
    have hlevel : ∀ t ≥ r.2, (st.sweep rate r.2).level rate key t = st'.level rate key t := by
      intro t ht
      rw [level_sweep hrate st key ht, hst r mem_cons_self t ht]
    rw [limitRun_swept, filter_cons, filter_cons]
    split
    · next hkey =>
      have hkey : keyOf r.1 = key := of_decide_eq_true hkey
      have hsweep := level_sweep hrate st' key (le_refl r.2)
      rw [limitRun_swept, hkey, hlevel r.2 le_rfl, hsweep]
      congr 1
      refine ih (fun r' hr' t ht => ?_) htimes
      have ht := (hnext r' hr').trans ht
      rw [level_spend_self ht, level_spend_self ht, price, price, hlevel r.2 le_rfl, hsweep]
    · next hkey =>
      refine ih (fun r' hr' t ht => ?_) htimes
      rw [level_spend_ne (fun h => hkey (decide_eq_true h.symm)), hlevel t ((hnext r' hr').trans ht)]

theorem keys_apart_sample : (limitRun (rateLimit ⟨1, 1⟩ Ctx.path) sampleTimes (.new 0)).filter (fun e => e.1.1.path = "a".toList) =
      limitRun (rateLimit ⟨1, 1⟩ Ctx.path) (sampleTimes.filter (fun r => r.1.path = "a".toList)) (.new 0) :=
  keys_apart zero_le_one (fun _ _ _ _ => rfl) sampleTimes_ordered

end

end Ferroly.Turbo
