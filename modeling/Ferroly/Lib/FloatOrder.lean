import Ferroly.Lib.Float

/-!
# Comparing floating-point numbers

Numbers are compared by their signed codes, a NaN with nothing. The codes are in the order of their values, and rounding keeps the
order against the numbers of the format; so a comparison with a whole number that has an exact code is exact.
-/

namespace Ferroly

namespace FloatFmt

variable (F : FloatFmt)

/-- The next code is the next significand. -/
theorem units_shift_succ {s m : Nat} (hm : m < 2 ^ (F.frac + 1)) (h : s = 0 ∨ 2 ^ F.frac ≤ m) :
    F.units (s * 2 ^ F.frac + m + 1) = (m + 1) * 2 ^ s := by
  by_cases hlast : m + 1 < 2 ^ (F.frac + 1)
  · rw [Nat.add_assoc, F.units_shift hlast (by omega)]
  · -- the significand is full: the next code is the first of the next exponent
    have hfull : m + 1 = 2 * 2 ^ F.frac := by rw [Nat.pow_succ] at hm hlast; omega
    have hnext : s * 2 ^ F.frac + m + 1 = (s + 1) * 2 ^ F.frac + 2 ^ F.frac := by rw [Nat.add_assoc, hfull]; ring
    have hlt : 2 ^ F.frac < 2 ^ (F.frac + 1) := Nat.pow_lt_pow_right (by decide) (Nat.lt_succ_self _)
    rw [hnext, F.units_shift hlt (.inr le_rfl), hfull]
    ring

/-- The codes are in the order of their values. -/
theorem units_strictMono : StrictMono F.units := by
  refine strictMono_nat_of_lt_succ (fun k => ?_)
  obtain ⟨s, m, hm, h, rfl⟩ := F.exists_shift k
  rw [F.units_shift hm h, F.units_shift_succ hm h]
  exact Nat.mul_lt_mul_of_pos_right (Nat.lt_succ_self m) (Nat.two_pow_pos s)

/-- Rounding a quotient of units: of the two codes around it the nearer one, or the even one in the middle. -/
theorem round_spec {d : Nat} (hd : 0 < d) (n : Nat) : ∃ k, F.units k * d ≤ n ∧ n < F.units (k + 1) * d ∧
    F.round n d = min (if 2 * n < (F.units k + F.units (k + 1)) * d then k
      else if (F.units k + F.units (k + 1)) * d < 2 * n then k + 1 else k + k % 2) F.inf := by
  generalize hq : n / d = q
  have hp : 0 < 2 ^ (q.log2 - F.frac) := Nat.two_pow_pos _
  have hm : q / 2 ^ (q.log2 - F.frac) < 2 ^ (F.frac + 1) := by
    rw [Nat.div_lt_iff_lt_mul hp, ← Nat.pow_add]
    by_cases h0 : q = 0
    · rw [h0]
      exact Nat.two_pow_pos _
    · exact (Nat.log2_lt h0).mp (by omega)
  have hlow : q.log2 - F.frac = 0 ∨ 2 ^ F.frac ≤ q / 2 ^ (q.log2 - F.frac) := by
    by_cases hs : q.log2 - F.frac = 0
    · exact .inl hs
    · right
      have h0 : q ≠ 0 := by
        rintro rfl
        simp at hs
      rw [Nat.le_div_iff_mul_le hp, ← Nat.pow_add, show F.frac + (q.log2 - F.frac) = q.log2 by omega]
      exact Nat.log2_self_le h0
  have hunits := F.units_shift hm hlow
  have hnext := F.units_shift_succ hm hlow
  refine ⟨(q.log2 - F.frac) * 2 ^ F.frac + q / 2 ^ (q.log2 - F.frac), ?_, ?_, ?_⟩
  · rw [hunits, ← Nat.le_div_iff_mul_le hd, hq]
    exact Nat.div_mul_le_self _ _
  · rw [hnext, ← Nat.div_lt_iff_lt_mul hd, hq]
    exact Nat.lt_mul_of_div_lt (Nat.lt_succ_self _) hp
  · have hmid : (2 * (q / 2 ^ (q.log2 - F.frac)) + 1) * 2 ^ (q.log2 - F.frac) * d =
        (q / 2 ^ (q.log2 - F.frac) * 2 ^ (q.log2 - F.frac) + (q / 2 ^ (q.log2 - F.frac) + 1) * 2 ^ (q.log2 - F.frac)) * d := by ring
    rw [hunits, hnext]
    simp only [round, hq, hmid]

/-- Rounding does not go below a number of the format that is not above. -/
theorem le_round {k n d : Nat} (hd : 0 < d) (hk : k ≤ F.inf) (h : F.units k * d ≤ n) : k ≤ F.round n d := by
  obtain ⟨c, -, hlt, hround⟩ := F.round_spec hd n
  have hkc : k < c + 1 := F.units_strictMono.lt_iff_lt.mp (Nat.lt_of_mul_lt_mul_right (h.trans_lt hlt))
  rw [hround]
  refine Nat.le_min.mpr ⟨?_, hk⟩
  split_ifs <;> omega

/-- Whole numbers that the significand can hold are numbers of the format. -/
theorem exists_whole (hF : (F.low + 2) * 2 ^ F.frac ≤ F.inf) {n : Nat} (hn : n < 2 ^ (F.frac + 1)) :
    ∃ k, k < F.inf ∧ F.units k = n * 2 ^ F.low ∧ F.round (n * 2 ^ F.low) 1 = k := by
  obtain ⟨k, hk, hlt⟩ := F.exists_code F.low hn
  have hround := F.round_exact Nat.one_pos (hlt.trans_le hF).le
  rw [Nat.mul_one, hk] at hround
  exact ⟨k, hlt.trans_le hF, hk, hround⟩

end FloatFmt

namespace Flt

variable {F : FloatFmt}

/-- The place of a number in the order: its code, negative if the number is. -/
def place : Flt F → Option Int
  | .num neg k => some (if neg then -(k.val : Int) else k.val)
  | .nan => none

/-- `x <= y`: false if either is a NaN. -/
def le (x y : Flt F) : Bool :=
  match x.place, y.place with
  | some a, some b => decide (a ≤ b)
  | _, _ => false

/-- `x < y`: false if either is a NaN. -/
def lt (x y : Flt F) : Bool :=
  match x.place, y.place with
  | some a, some b => decide (a < b)
  | _, _ => false

/-- The order of two numbers: none if either is a NaN. -/
def partialCmp (x y : Flt F) : Option Ordering :=
  match x.place, y.place with
  | some a, some b => some (compare a b)
  | _, _ => none

/-- Whether the number is, exactly, greater than a whole number. -/
def exceeds (n : Nat) : Flt F → Bool
  | .num neg k => !neg && (decide (k.val = F.inf) || decide (n * 2 ^ F.low < F.units k.val))
  | .nan => false

/-- Whether the number is, exactly, at most a whole number. -/
def atMost (n : Nat) : Flt F → Bool
  | .num neg k => neg || (decide (k.val ≠ F.inf) && decide (F.units k.val ≤ n * 2 ^ F.low))
  | .nan => false

theorem lt_eq_not_le {x y : Flt F} (hx : x.isNan = false) (hy : y.isNan = false) : x.lt y = !y.le x := by
  cases x with
  | nan => cases hx
  | num a k =>
    cases y with
    | nan => cases hy
    | num b l =>
      simp only [le, place]
      rw [← decide_not]
      exact decide_eq_decide.mpr not_le.symm

theorem atMost_eq_not_exceeds {x : Flt F} (hx : x.isNan = false) (n : Nat) : x.atMost n = !x.exceeds n := by
  cases x with
  | nan => cases hx
  | num neg k =>
    simp only [atMost, exceeds, Bool.not_and, Bool.not_not, Bool.not_or, ← decide_not, not_lt]

section Whole

variable (hF : (F.low + 2) * 2 ^ F.frac ≤ F.inf) {n : Nat} (hn : n < 2 ^ (F.frac + 1))
include hF hn

/-- A whole number that the significand can hold has the code of its value. -/
theorem ofInt_whole : ∃ k, ∃ hk : k < F.inf, F.units k = n * 2 ^ F.low ∧ ofInt F n = .num false ⟨k, by omega⟩ := by
  obtain ⟨k, hlt, hk, hround⟩ := F.exists_whole hF hn
  refine ⟨k, hlt, hk, ?_⟩
  rw [ofInt, Int.natAbs_natCast, hround, ofCode, decide_eq_false (by omega)]
  simp only [Nat.min_eq_left hlt.le]

/-- Comparing a number with a whole number that the significand can hold is exact. -/
theorem le_ofInt_whole (x : Flt F) : x.le (ofInt F n) = x.atMost n := by
  obtain ⟨k, hk, hunits, heq⟩ := ofInt_whole hF hn
  rw [heq]
  cases x with
  | nan => rfl
  | num neg l =>
    cases neg with
    | true =>
      simp only [le, place, if_true]
      exact decide_eq_true (by simp only [Bool.false_eq_true, if_false]; omega)
    | false =>
      have hmono := F.units_strictMono.le_iff_le (a := l.val) (b := k)
      simp only [le, place, atMost, Bool.false_eq_true, if_false]
      rw [← Bool.decide_and]
      refine decide_eq_decide.mpr ?_
      omega

/-- An integer rounded and compared with such a whole number compares as it is. -/
theorem ofInt_le_ofInt_whole (i : Int) : (ofInt F i).le (ofInt F n) = decide (i ≤ n) := by
  obtain ⟨k, hk, hunits, heq⟩ := ofInt_whole hF hn
  rw [heq]
  simp only [le, place, Bool.false_eq_true, if_false]
  refine decide_eq_decide.mpr ?_
  by_cases hneg : i < 0
  · rw [decide_eq_true hneg]
    simp only [if_true]
    omega
  · obtain ⟨m, rfl⟩ := Int.eq_ofNat_of_zero_le (not_lt.mp hneg)
    rw [decide_eq_false hneg, Int.natAbs_natCast]
    simp only [Bool.false_eq_true, if_false, Int.ofNat_le]
    by_cases hm : m < 2 ^ (F.frac + 1)
    · obtain ⟨l, hl, hlu, hround⟩ := F.exists_whole hF hm
      have hmono := F.units_strictMono.le_iff_le (a := l) (b := k)
      rw [hround, Nat.min_eq_left hl.le, ← hmono, hlu, hunits]
      exact Nat.mul_le_mul_right_iff (Nat.two_pow_pos _)
    · -- past the significand the code is above that of every whole number the significand holds
      have hgt : k < F.round (m * 2 ^ F.low) 1 := by
        obtain ⟨l, hl, -⟩ := F.exists_code (m := 2 ^ F.frac) (F.low + 1) (Nat.pow_lt_pow_right (by decide) (Nat.lt_succ_self _))
        have hl' : F.units l = 2 ^ (F.frac + 1) * 2 ^ F.low := by rw [hl]; ring
        have hkl : k < l := by
          rw [← F.units_strictMono.lt_iff_lt, hunits, hl']
          exact Nat.mul_lt_mul_of_pos_right hn (Nat.two_pow_pos _)
        have hnext : F.units (k + 1) ≤ m * 2 ^ F.low := by
          calc F.units (k + 1) ≤ F.units l := F.units_strictMono.monotone hkl
            _ = 2 ^ (F.frac + 1) * 2 ^ F.low := hl'
            _ ≤ m * 2 ^ F.low := Nat.mul_le_mul_right _ (not_lt.mp hm)
        exact F.le_round Nat.one_pos hk (by rw [Nat.mul_one]; exact hnext)
      omega

end Whole

end Flt

end Ferroly
