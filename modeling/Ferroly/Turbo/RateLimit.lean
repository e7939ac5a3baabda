import Mathlib.Data.Rat.Lemmas
import Mathlib.Algebra.Order.Ring.Unbundled.Rat
import Ferroly.Lib.Hash
import Ferroly.Turbo.Router

/-!
# The rate limit filter

Token buckets by key, with a sweep that drops full buckets. Rates, tokens and the times of the clock are exact; the clock is read once
for each request and is given to the filter.
-/

namespace Ferroly.Turbo

open Http

variable {κ : Type} [DecidableEq κ]

/-- How many tokens a bucket gains in a second, and how many it holds. -/
structure Rate where
  perSecond : ℚ
  burst : ℚ

/-- The tokens of a key, and when they were counted. -/
structure Bucket where
  tokens : ℚ
  last : ℚ
  deriving DecidableEq

/-- The time passed since an earlier one; none if that is not earlier. -/
def durationSince (now earlier : ℚ) : ℚ := max (now - earlier) 0

/-- The tokens of a bucket at a time. -/
def Bucket.refilled (rate : Rate) (b : Bucket) (now : ℚ) : ℚ :=
  min (b.tokens + durationSince now b.last * rate.perSecond) rate.burst

/-- The seconds between two sweeps. -/
def SWEEP_INTERVAL : ℚ := 60

structure RateState (κ : Type) where
  buckets : HashMap κ Bucket
  lastSweep : ℚ

namespace RateState

def new (now : ℚ) : RateState κ := ⟨∅, now⟩

/-- Drop the buckets that are full again, if it is time to. -/
def sweep (rate : Rate) (now : ℚ) (st : RateState κ) : RateState κ :=
  if SWEEP_INTERVAL ≤ durationSince now st.lastSweep then
    ⟨st.buckets.retain (fun _ b => b.refilled rate now < rate.burst), now⟩
  else st

/-- Take a token from the bucket of a key, which is a full one if there is none; whether there was a token to take. -/
def spend (rate : Rate) (key : κ) (now : ℚ) (st : RateState κ) : Bool × RateState κ :=
  let entry := (st.buckets.lookup key).getD ⟨rate.burst, now⟩
  let tokens := entry.refilled rate now
  if 1 ≤ tokens then (true, { st with buckets := st.buckets.insert key ⟨tokens - 1, now⟩ })
  else (false, { st with buckets := st.buckets.insert key ⟨tokens, now⟩ })

end RateState

/-- The answer of the filter: none lets the request through. -/
def limitAnswer (admitted : Bool) : Option HttpResponse :=
  if admitted then none else some (HttpResponse.text .TOO_MANY_REQUESTS "429 Too Many Requests".toList)

/-- The filter, for a request at a time. -/
def rateLimit (rate : Rate) (keyOf : Ctx → κ) (now : ℚ) : Filter (RateState κ) := fun ctx st =>
  let (admitted, st) := (st.sweep rate now).spend rate (keyOf ctx) now
  (limitAnswer admitted, st)

/-- The filter that never drops a bucket. -/
def rateLimitUnswept (rate : Rate) (keyOf : Ctx → κ) (now : ℚ) : Filter (RateState κ) := fun ctx st =>
  let (admitted, st) := st.spend rate (keyOf ctx) now
  (limitAnswer admitted, st)

/-- Requests one after the other, each at its time, with the answers of a filter. -/
def limitRun (limit : ℚ → Filter (RateState κ)) : List (Ctx × ℚ) → RateState κ → List ((Ctx × ℚ) × Option HttpResponse)
  | [], _ => []
  | r :: rs, st =>
    let (answer, st) := limit r.2 r.1 st
    (r, answer) :: limitRun limit rs st

end Ferroly.Turbo
