import Ferroly.Lib.Digits
import Mathlib.Data.Nat.Log
import Mathlib.Tactic.Ring
import Mathlib.Tactic.Positivity

/-!
# Binary floating-point numbers and their decimal text

The finite nonnegative numbers of a binary interchange format, in increasing order, are numbered by their bit patterns: the
code `e * 2 ^ frac + f` stands for `f * 2 ^ -low` when the exponent field `e` is zero and for
`(2 ^ frac + f) * 2 ^ (e - 1) * 2 ^ -low` otherwise, and the first code past them is infinity. A number is a sign and a code, or
not a number. Rounding is to the nearest code, ties to the even one; reading decimal text is exact and then rounded once, as
Rust's `FromStr` for the float types. The NaN payload, which no text shows, is left out.
-/

namespace Ferroly

open List

variable {n scale : Nat} {part whole : Str}

/-- A binary format: the width of its fraction field, the exponent of its least positive number `2 ^ -low`, and the code of
infinity. -/
structure FloatFmt where
  frac : Nat
  low : Nat
  inf : Nat
  deriving DecidableEq, Repr

/-- The format of `f64`. -/
def binary64 : FloatFmt := ⟨52, 1074, 2047 * 2 ^ 52⟩

/-- The format of `f32`. -/
def binary32 : FloatFmt := ⟨23, 149, 255 * 2 ^ 23⟩

/-- The value of a code, in units of `2 ^ -low`. -/
def FloatFmt.units (F : FloatFmt) (k : Nat) : Nat :=
  if k / 2 ^ F.frac = 0 then k else (2 ^ F.frac + k % 2 ^ F.frac) * 2 ^ (k / 2 ^ F.frac - 1)

/-- The code nearest to `n / d` units, ties to even; infinity when every finite code is too small. -/
def FloatFmt.round (F : FloatFmt) (n d : Nat) : Nat :=
  let s := (n / d).log2 - F.frac
  let m := n / d / 2 ^ s
  let k := s * 2 ^ F.frac + m
  let mid := (2 * m + 1) * 2 ^ s * d
  min (if 2 * n < mid then k else if mid < 2 * n then k + 1 else k + k % 2) F.inf

/-- A floating-point number of a format. -/
inductive Flt (F : FloatFmt) where
  | num (neg : Bool) (mag : Fin (F.inf + 1))
  | nan
  deriving DecidableEq, Repr

/-- Rust's `f64`. -/
abbrev F64 := Flt binary64

/-- Rust's `f32`. -/
abbrev F32 := Flt binary32

namespace Flt

variable {F : FloatFmt}

/-- The number of a sign and a code, a code past infinity being infinity. -/
def ofCode (F : FloatFmt) (neg : Bool) (k : Nat) : Flt F := .num neg ⟨min k F.inf, by omega⟩

/-- Neither infinite nor NaN. -/
def isFinite : Flt F → Bool
  | .num _ k => decide (k.val < F.inf)
  | .nan => false

def isNan : Flt F → Bool
  | .nan => true
  | .num _ _ => false

def isInfinite : Flt F → Bool
  | .num _ k => decide (k.val = F.inf)
  | .nan => false

/-- Whether the sign bit is set. -/
def isNeg : Flt F → Bool
  | .num neg _ => neg
  | .nan => false

/-- Whether a finite number is an integer. -/
def isIntegral : Flt F → Bool
  | .num _ k => decide (F.units k.val % 2 ^ F.low = 0)
  | .nan => false

/-- `f < 0.0`: negative and not a zero. -/
def ltZero : Flt F → Bool
  | .num neg k => neg && decide (k.val ≠ 0)
  | .nan => false

/-- `f >= 0.0`: a NaN is not, both zeros are. -/
def geZero : Flt F → Bool
  | .num neg k => !neg || decide (k.val = 0)
  | .nan => false

def infinity (F : FloatFmt) : Flt F := ofCode F false F.inf

def negInfinity (F : FloatFmt) : Flt F := ofCode F true F.inf

theorem finite_or_special (f : Flt F) : f.isFinite = true ∨ f = .nan ∨ f = infinity F ∨ f = negInfinity F := by
  rcases f with ⟨neg, k, hk⟩ | _
  · rcases Nat.lt_or_ge k F.inf with h | h
    · exact .inl (decide_eq_true h)
    · obtain rfl : k = F.inf := by omega
      cases neg <;> simp [infinity, negInfinity, ofCode]
  · exact .inr (.inl rfl)

/-- The number nearest to an integer: `i as f64`. -/
def ofInt (F : FloatFmt) (i : Int) : Flt F := ofCode F (decide (i < 0)) (F.round (i.natAbs * 2 ^ F.low) 1)

/-- The same number in another format, rounded: `x as f32`, `x as f64`. -/
def convert (G : FloatFmt) : Flt F → Flt G
  | .num neg k =>
    if k.val = F.inf then ofCode G neg G.inf else ofCode G neg (G.round (F.units k.val * 2 ^ G.low) (2 ^ F.low))
  | .nan => .nan

/-- The integer part, clamped to `lo ≤ · ≤ hi`, a NaN being zero: `x as i64`, `x as u64`. -/
def toInt (lo hi : Int) : Flt F → Int
  | .num neg k =>
    let t : Int := F.units k.val / 2 ^ F.low
    max lo (min hi (if neg then -t else t))
  | .nan => 0

end Flt

/-! ## Decimal text -/

/-- The number a digit string after a radix point shift stands for, rounded: `digits * 10 ^ (exp - scale)`. -/
def decimalCode (F : FloatFmt) (digits : Nat) (scale : Nat) (exp : Int) : Nat :=
  let e := exp - scale
  if 0 ≤ e then F.round (digits * 10 ^ e.toNat * 2 ^ F.low) 1 else F.round (digits * 2 ^ F.low) (10 ^ (-e).toNat)

/-- The exponent after the mantissa: nothing, or `e`, an optional sign and at least one digit. -/
def parseExponent : Str → Option Int
  | [] => some 0
  | c :: t =>
    if c = 'e' ∨ c = 'E' then
      match t with
      | '-' :: u => (parseDigits 10 u).map (fun n => -(n : Int))
      | '+' :: u => (parseDigits 10 u).map (fun n => (n : Int))
      | u => (parseDigits 10 u).map (fun n => (n : Int))
    else none

/-- A decimal number without a sign, as a code: digits with at most one point, at least one digit in all, and an exponent. -/
def parseMagnitude (F : FloatFmt) (s : Str) : Option Nat :=
  let whole := s.takeWhile Char.isDigit
  let rest := s.dropWhile Char.isDigit
  let part := match rest with
    | '.' :: t => t.takeWhile Char.isDigit
    | _ => []
  let tail := match rest with
    | '.' :: t => t.dropWhile Char.isDigit
    | t => t
  if whole = [] ∧ part = [] then none
  else (parseExponent tail).map (fun e => decimalCode F (Nat.ofDigitChars 10 (whole ++ part) 0) part.length e)

/-- Whether a number's text is negative, and the text after its sign. -/
def splitSign : Str → Bool × Str
  | '-' :: t => (true, t)
  | '+' :: t => (false, t)
  | t => (false, t)

/-- Reading a float: an optional sign, then `inf`, `infinity` or `nan` in any case, or a decimal number. -/
def parseFloat (F : FloatFmt) (s : Str) : Option (Flt F) :=
  let neg := (splitSign s).1
  let body := (splitSign s).2
  let low := toAsciiLowercase body
  if low = "inf".toList ∨ low = "infinity".toList then some (Flt.ofCode F neg F.inf)
  else if low = "nan".toList then some .nan
  else (parseMagnitude F body).map (Flt.ofCode F neg)

/-- The text `-?whole(.part)?` of a sign and two digit strings, the point only before a nonempty second one. -/
def plainText (neg : Bool) (whole part : Str) : Str :=
  (if neg then ['-'] else []) ++ whole ++ (if part = [] then [] else '.' :: part)

/-- Decimal text without an exponent: an optional minus sign, at least one digit, and a point only between digits. -/
def PlainDecimal (s : Str) : Prop :=
  ∃ neg whole part, s = plainText neg whole part ∧ whole ≠ [] ∧ (∀ c ∈ whole, c.isDigit) ∧ ∀ c ∈ part, c.isDigit

/-- A way to write the finite numbers of a format: without an exponent, and read back exactly. -/
structure FloatDisplay (F : FloatFmt) where
  toText : Flt F → Str
  plain : ∀ x : Flt F, x.isFinite = true → PlainDecimal (toText x)
  inverse : ∀ x : Flt F, x.isFinite = true → parseFloat F (toText x) = some x

/-- A display of Rust's `f64`. -/
abbrev F64Display := FloatDisplay binary64

/-- A display that shows a point exactly in the numbers that are no integers, as Rust's does. -/
def FloatDisplay.PointsFractions {F : FloatFmt} (D : FloatDisplay F) : Prop :=
  ∀ x : Flt F, x.isFinite = true → ('.' ∈ D.toText x ↔ x.isIntegral = false)

/-! ## Rounding -/

namespace FloatFmt

variable (F : FloatFmt)

/-- The code of a significand `m` shifted by `s`: nothing shifted, or the leading bit of `m` set. -/
theorem units_shift {s m : Nat} (hm : m < 2 ^ (F.frac + 1)) (h : s = 0 ∨ 2 ^ F.frac ≤ m) :
    F.units (s * 2 ^ F.frac + m) = m * 2 ^ s := by
  have hp : 0 < 2 ^ F.frac := Nat.two_pow_pos _
  by_cases hlt : m < 2 ^ F.frac
  · have hs : s = 0 := by omega
    simp [units, hs, Nat.div_eq_of_lt hlt]
  · obtain ⟨r, rfl⟩ : ∃ r, m = 2 ^ F.frac + r := ⟨m - 2 ^ F.frac, by omega⟩
    have hr : r < 2 ^ F.frac := by omega
    have e : s * 2 ^ F.frac + (2 ^ F.frac + r) = r + 2 ^ F.frac * (s + 1) := by ring
    rw [units, e, Nat.add_mul_div_left _ _ hp, Nat.add_mul_mod_self_left, Nat.div_eq_of_lt hr, Nat.mod_eq_of_lt hr]
    simp

/-- Every code is a significand and a shift. -/
theorem exists_shift (k : Nat) : ∃ s m, m < 2 ^ (F.frac + 1) ∧ (s = 0 ∨ 2 ^ F.frac ≤ m) ∧ k = s * 2 ^ F.frac + m := by
  have hk := Nat.div_add_mod k (2 ^ F.frac)
  by_cases h : k / 2 ^ F.frac = 0
  · refine ⟨0, k, ?_, .inl rfl, by simp⟩
    rw [h] at hk
    omega
  · obtain ⟨e, he⟩ := Nat.exists_eq_succ_of_ne_zero h
    refine ⟨e, 2 ^ F.frac + k % 2 ^ F.frac, by rw [Nat.pow_succ]; omega, .inr (by omega), ?_⟩
    rw [he, Nat.mul_succ, Nat.mul_comm] at hk
    omega

/-- The shift that rounding chooses for a number that is a significand and a shift is that shift. -/
theorem log2_shift {s m : Nat} (hm : m < 2 ^ (F.frac + 1)) (h : s = 0 ∨ 2 ^ F.frac ≤ m) : (m * 2 ^ s).log2 - F.frac = s := by
  by_cases h0 : m = 0
  · have hs : s = 0 := by omega
    simp [h0, hs]
  have hne : m * 2 ^ s ≠ 0 := Nat.mul_ne_zero h0 (Nat.two_pow_pos _).ne'
  rcases h with rfl | hlow
  · have : (m * 2 ^ 0).log2 < F.frac + 1 := (Nat.log2_lt hne).mpr (by simpa using hm)
    omega
  · have hlog : (m * 2 ^ s).log2 = F.frac + s := by
      rw [Nat.log2_eq_iff hne, Nat.pow_add, show F.frac + s + 1 = F.frac + 1 + s by omega, Nat.pow_add]
      exact ⟨Nat.mul_le_mul_right _ hlow, Nat.mul_lt_mul_of_pos_right hm (Nat.two_pow_pos _)⟩
    omega

/-- Rounding a number of the format gives its code. -/
theorem round_exact {k d : Nat} (hd : 0 < d) (hk : k ≤ F.inf) : F.round (F.units k * d) d = k := by
  obtain ⟨s, m, hm, h, rfl⟩ := F.exists_shift k
  have hp : 0 < 2 ^ s := Nat.two_pow_pos _
  have hlt : 2 * (m * 2 ^ s * d) < (2 * m + 1) * 2 ^ s * d := by
    have : 0 < 2 ^ s * d := Nat.mul_pos hp hd
    calc 2 * (m * 2 ^ s * d) = 2 * m * (2 ^ s * d) := by ring
      _ < (2 * m + 1) * (2 ^ s * d) := Nat.mul_lt_mul_of_pos_right (by omega) this
      _ = (2 * m + 1) * 2 ^ s * d := by ring
  simp only [round, F.units_shift hm h, Nat.mul_div_cancel _ hd, F.log2_shift hm h, Nat.mul_div_cancel _ hp, if_pos hlt]
  exact Nat.min_eq_left hk

/-- Rounding depends on the quotient only. -/
theorem round_scale {c : Nat} (hc : 0 < c) (n d : Nat) : F.round (c * n) (c * d) = F.round n d := by
  have e1 : ∀ a b : Nat, (2 * a + 1) * b * (c * d) = c * ((2 * a + 1) * b * d) := by intro a b; ring
  have e2 : 2 * (c * n) = c * (2 * n) := by ring
  simp only [round, Nat.mul_div_mul_left _ _ hc, e1, e2, Nat.mul_lt_mul_left hc]

end FloatFmt

/-! ## Reading plain decimal text -/

/-- The digits, the point and the digits after it, read back. -/
theorem parseMagnitude_plain (F : FloatFmt) (hne : whole ≠ []) (hw : ∀ c ∈ whole, c.isDigit) (hp : ∀ c ∈ part, c.isDigit) :
    parseMagnitude F (whole ++ (if part = [] then [] else '.' :: part)) =
      some (decimalCode F (Nat.ofDigitChars 10 (whole ++ part) 0) part.length 0) := by
  have hall : ∀ t : Str, (∀ c ∈ t, c.isDigit) → t.takeWhile Char.isDigit = t ∧ t.dropWhile Char.isDigit = [] := by
    intro t ht
    exact ⟨takeWhile_eq_self_iff.mpr ht, dropWhile_eq_nil_iff.mpr ht⟩
  by_cases hpe : part = []
  · subst hpe
    simp [parseMagnitude, (hall whole hw).1, (hall whole hw).2, hne, parseExponent]
  · have h1 : (whole ++ '.' :: part).takeWhile Char.isDigit = whole := by
      rw [takeWhile_append_of_pos hw]
      simp
    have h2 : (whole ++ '.' :: part).dropWhile Char.isDigit = '.' :: part := by
      rw [dropWhile_append_of_pos hw]
      simp
    simp [parseMagnitude, hpe, h1, h2, (hall part hp).1, (hall part hp).2, parseExponent]

/-- Text that begins with a digit, as plain decimal text does after its sign, is none of the words a float may be. -/
theorem toAsciiLowercase_ne_word {c d : Char} {t u : Str} (hc : c.isDigit = true) (hd : d.isDigit = false) :
    toAsciiLowercase (c :: t) ≠ d :: u := by
  intro h
  have hn := isDigit_toNat hc
  simp only [toAsciiLowercase, map_cons, toLower_eq_self (c := c) (by omega), cons.injEq] at h
  exact ne_of_isDigit hc hd h.1

theorem splitSign_plainText (neg : Bool) (part : Str) (hne : whole ≠ []) (hw : ∀ c ∈ whole, c.isDigit) :
    splitSign (plainText neg whole part) = (neg, whole ++ (if part = [] then [] else '.' :: part)) := by
  obtain ⟨c, w, rfl⟩ := exists_cons_of_ne_nil hne
  have hc := hw c mem_cons_self
  cases neg with
  | true => rfl
  | false =>
    have h1 : c ≠ '-' := ne_of_isDigit hc (by decide)
    have h2 : c ≠ '+' := ne_of_isDigit hc (by decide)
    simp [plainText, splitSign, h1, h2]

/-- Plain decimal text reads as its sign and the code of its digits. -/
theorem parseFloat_plain (F : FloatFmt) (neg : Bool) (hne : whole ≠ []) (hw : ∀ c ∈ whole, c.isDigit) (hp : ∀ c ∈ part, c.isDigit) :
    parseFloat F (plainText neg whole part) =
      some (Flt.ofCode F neg (decimalCode F (Nat.ofDigitChars 10 (whole ++ part) 0) part.length 0)) := by
  have hm := parseMagnitude_plain F hne hw hp
  obtain ⟨c, w, rfl⟩ := exists_cons_of_ne_nil hne
  have hc := hw c mem_cons_self
  rw [parseFloat, splitSign_plainText neg part hne hw, hm, cons_append]
  have h1 : ∀ t, toAsciiLowercase (c :: t) ≠ "inf".toList := fun t => toAsciiLowercase_ne_word hc (by decide)
  have h2 : ∀ t, toAsciiLowercase (c :: t) ≠ "infinity".toList := fun t => toAsciiLowercase_ne_word hc (by decide)
  have h3 : ∀ t, toAsciiLowercase (c :: t) ≠ "nan".toList := fun t => toAsciiLowercase_ne_word hc (by decide)
  simp only [h1, h2, h3, or_self, if_false, Option.map_some]

/-- Without an exponent, the digits over a power of ten. -/
theorem decimalCode_zero (F : FloatFmt) : decimalCode F n scale 0 = F.round (n * 2 ^ F.low) (10 ^ scale) := by
  cases scale with
  | zero => simp [decimalCode]
  | succ s =>
    congr 2

/-- Zeros at the end of the digits after the point change nothing. -/
theorem decimalCode_zeros (F : FloatFmt) (n scale z : Nat) : decimalCode F (n * 10 ^ z) (scale + z) 0 = decimalCode F n scale 0 := by
  rw [decimalCode_zero, decimalCode_zero, Nat.pow_add, Nat.mul_comm (10 ^ scale),
    show n * 10 ^ z * 2 ^ F.low = 10 ^ z * (n * 2 ^ F.low) by ring]
  exact F.round_scale (by positivity) _ _

/-- A point and a zero after an integer change nothing. -/
theorem parseFloat_plain_zero (F : FloatFmt) (neg : Bool) (hne : whole ≠ []) (hw : ∀ c ∈ whole, c.isDigit) :
    parseFloat F (plainText neg whole ['0']) = parseFloat F (plainText neg whole []) := by
  have hd : Nat.ofDigitChars 10 (whole ++ ['0']) 0 = Nat.ofDigitChars 10 (whole ++ []) 0 * 10 ^ 1 := by
    rw [Nat.ofDigitChars_append, append_nil, Nat.mul_comm]
    rfl
  rw [parseFloat_plain F neg hne hw (by simp), parseFloat_plain F neg hne hw (by simp), hd]
  exact congrArg (fun k => some (Flt.ofCode F neg k)) (decimalCode_zeros F _ 0 1)

/-! ## Changing the format -/

/-- Every significand of the format, shifted, is a number of it, of a code the shift bounds. -/
theorem FloatFmt.exists_code (F : FloatFmt) {m : Nat} (t : Nat) (hm : m < 2 ^ (F.frac + 1)) :
    ∃ k, F.units k = m * 2 ^ t ∧ k < (t + 2) * 2 ^ F.frac := by
  induction t generalizing m with
  | zero =>
    refine ⟨m, ?_, ?_⟩
    · have := F.units_shift (s := 0) hm (.inl rfl)
      simpa using this
    · omega
  | succ t ih =>
    by_cases hlow : 2 ^ F.frac ≤ m
    · refine ⟨(t + 1) * 2 ^ F.frac + m, F.units_shift hm (.inr hlow), ?_⟩
      calc (t + 1) * 2 ^ F.frac + m < (t + 1) * 2 ^ F.frac + 2 ^ F.frac * 2 := by omega
        _ = (t + 1 + 2) * 2 ^ F.frac := by ring
    · obtain ⟨k, hk, hb⟩ := ih (m := m * 2) (by rw [Nat.pow_succ]; omega)
      refine ⟨k, by rw [hk]; ring, ?_⟩
      have : (t + 2) * 2 ^ F.frac ≤ (t + 1 + 2) * 2 ^ F.frac := Nat.mul_le_mul_right _ (by omega)
      omega

/-- Widening a single-precision number and narrowing it back changes nothing. -/
theorem Flt.convert_convert (x : F32) : (x.convert binary64).convert binary32 = x := by
  cases x with
  | nan => rfl
  | num neg k =>
    obtain ⟨k, hk⟩ := k
    by_cases hinf : k = binary32.inf
    · subst hinf
      simp [Flt.convert, Flt.ofCode]
    obtain ⟨s, m, hm, h, hks⟩ := binary32.exists_shift k
    have hkinf : k < binary32.inf := by omega
    have hs : s ≤ 254 := by
      simp only [binary32] at hkinf hks hm h
      omega
    have hu : binary32.units k = m * 2 ^ s := by rw [hks, binary32.units_shift hm h]
    -- the gap between the two least exponents, kept as a variable so that no power of it is ever computed
    obtain ⟨g, hg, hg'⟩ : ∃ g, binary64.low = g + binary32.low ∧ g ≤ 925 := ⟨925, rfl, Nat.le_refl _⟩
    obtain ⟨k', hk', hb⟩ := binary64.exists_code (m := m) (s + g) (by
      have : (2 : Nat) ^ (binary32.frac + 1) ≤ 2 ^ (binary64.frac + 1) := by decide
      omega)
    have hk'inf : k' < binary64.inf := by
      have h1 : (s + g + 2) * 2 ^ binary64.frac ≤ 1181 * 2 ^ binary64.frac := Nat.mul_le_mul_right _ (by omega)
      have h2 : 1181 * 2 ^ binary64.frac < binary64.inf := by decide
      exact (hb.trans_le h1).trans h2
    have e1 : binary32.units k * 2 ^ binary64.low = binary64.units k' * 2 ^ binary32.low := by
      rw [hu, hk', hg, Nat.pow_add, Nat.pow_add, Nat.mul_assoc, Nat.mul_assoc, Nat.mul_assoc]
    have r1 : binary64.round (binary32.units k * 2 ^ binary64.low) (2 ^ binary32.low) = k' := by
      rw [e1]
      exact binary64.round_exact (Nat.two_pow_pos _) hk'inf.le
    have r2 : binary32.round (binary64.units k' * 2 ^ binary32.low) (2 ^ binary64.low) = k := by
      rw [← e1]
      exact binary32.round_exact (Nat.two_pow_pos _) hkinf.le
    simp only [Flt.convert, hinf, if_false, r1, Flt.ofCode, Nat.min_eq_left hk'inf.le, hk'inf.ne, r2, Nat.min_eq_left hkinf.le]

/-- Converting to the same format changes nothing. -/
theorem Flt.convert_self {F : FloatFmt} (x : Flt F) : x.convert F = x := by
  cases x with
  | nan => rfl
  | num neg k =>
    have hk : k.val ≤ F.inf := Nat.le_of_lt_succ k.isLt
    rw [Flt.convert]
    split
    next h => exact congrArg (Flt.num neg) (Fin.ext (by rw [h]; exact Nat.min_self _))
    next h =>
      rw [F.round_exact (Nat.two_pow_pos _) hk]
      exact congrArg (Flt.num neg) (Fin.ext (Nat.min_eq_left hk))

/-- Widening keeps a number finite. -/
theorem Flt.isFinite_convert {x : F32} (h : x.isFinite = true) : (x.convert binary64).isFinite = true := by
  by_contra hn
  have hc := Flt.convert_convert x
  cases x with
  | nan => cases h
  | num neg k =>
    cases hx : (Flt.num neg k : F32).convert binary64 with
    | nan => simp [Flt.convert] at hx; split at hx <;> cases hx
    | num neg' k' =>
      rw [hx] at hc hn
      simp only [Flt.isFinite, decide_eq_true_eq] at hn h
      have hk' : k'.val = binary64.inf := by omega
      simp only [Flt.convert, hk', if_true, Flt.ofCode, Flt.num.injEq] at hc
      have := congrArg Fin.val hc.2
      simp only at this
      omega

/-! ## Exact decimal text

Every binary number has a finite decimal expansion, so writing all of it, without the zeros at its end, is a display in the
sense of `FloatDisplay`. It is what Rust writes wherever the exact expansion is also the shortest text that reads back. -/

/-- The digits after the point of `n / 10 ^ scale`, without the zeros at the end. -/
def fractionDigits (n scale : Nat) : Str :=
  let digits := Nat.toDigits 10 (n % 10 ^ scale)
  (replicate (scale - digits.length) '0' ++ digits).rdropWhile (· == '0')

/-- The exact decimal expansion of a number. -/
def exactText (F : FloatFmt) : Flt F → Str
  | .num neg k =>
    if k.val = F.inf then (if neg then "-inf".toList else "inf".toList)
    else
      let n := F.units k.val * 5 ^ F.low
      plainText neg (Nat.toDigits 10 (n / 10 ^ F.low)) (fractionDigits n F.low)
  | .nan => "NaN".toList

/-- The digits after the point and the zeros that are dropped are the digits of a remainder, written out to the scale. -/
theorem fractionDigits_zeros (hs : 0 < scale) : ∃ z, (fractionDigits n scale).length + z = scale ∧
    Nat.ofDigitChars 10 (fractionDigits n scale ++ replicate z '0') 0 = n % 10 ^ scale := by
  have hlt : n % 10 ^ scale < 10 ^ scale := Nat.mod_lt _ (by positivity)
  have hlen : (Nat.toDigits 10 (n % 10 ^ scale)).length ≤ scale := (Nat.length_toDigits_le_iff (by omega) hs).mpr hlt
  rw [fractionDigits]
  generalize hpad : replicate (scale - (Nat.toDigits 10 (n % 10 ^ scale)).length) '0' ++ Nat.toDigits 10 (n % 10 ^ scale) = padded
  have hzeros : padded.rtakeWhile (· == '0') = replicate (padded.rtakeWhile (· == '0')).length '0' :=
    eq_replicate_iff.mpr ⟨rfl, fun c hc => by simpa using mem_rtakeWhile_imp hc⟩
  refine ⟨(padded.rtakeWhile (· == '0')).length, ?_, ?_⟩
  · rw [← length_append, rdropWhile_append_rtakeWhile, ← hpad, length_append, length_replicate]
    omega
  · rw [← hzeros, rdropWhile_append_rtakeWhile, ← hpad, Nat.ofDigitChars_append, Nat.ofDigitChars_replicate_zero, Nat.mul_zero,
      Nat.ofDigitChars_ten_toDigits]

/-- The digits of the integer part and of the fraction, read together over the scale, are the number. -/
theorem decimalCode_fractionDigits (F : FloatFmt) (hs : 0 < scale) :
    decimalCode F (Nat.ofDigitChars 10 (Nat.toDigits 10 (n / 10 ^ scale) ++ fractionDigits n scale) 0)
      (fractionDigits n scale).length 0 = F.round (n * 2 ^ F.low) (10 ^ scale) := by
  obtain ⟨z, hlen, hval⟩ := fractionDigits_zeros (n := n) hs
  have hn : Nat.ofDigitChars 10 (Nat.toDigits 10 (n / 10 ^ scale) ++ fractionDigits n scale) 0 * 10 ^ z = n := by
    have h1 : Nat.ofDigitChars 10 (Nat.toDigits 10 (n / 10 ^ scale) ++ fractionDigits n scale ++ replicate z '0') 0 =
        Nat.ofDigitChars 10 (Nat.toDigits 10 (n / 10 ^ scale) ++ fractionDigits n scale) 0 * 10 ^ z := by
      rw [Nat.ofDigitChars_append, Nat.ofDigitChars_replicate_zero, Nat.mul_comm]
    rw [← h1, append_assoc, Nat.ofDigitChars_append, Nat.ofDigitChars_ten_toDigits,
      Nat.ofDigitChars_eq_ofDigitChars_zero, hval, length_append, length_replicate, hlen]
    exact Nat.div_add_mod n (10 ^ scale)
  have h2 := decimalCode_zeros F
    (Nat.ofDigitChars 10 (Nat.toDigits 10 (n / 10 ^ scale) ++ fractionDigits n scale) 0) (fractionDigits n scale).length z
  rw [← h2, hn, hlen, decimalCode_zero]

theorem isDigit_fractionDigits : ∀ c ∈ fractionDigits n scale, c.isDigit := by
  intro c hc
  have hmem := (List.rdropWhile_prefix _ _).subset hc
  rcases mem_append.mp hmem with h | h
  · rw [(mem_replicate.mp h).2]
    rfl
  · exact isDigit_toDigits _ c h

/-- Exact decimal text reads back. -/
theorem parseFloat_exactText (F : FloatFmt) (hl : 0 < F.low) (x : Flt F) (hx : x.isFinite = true) :
    parseFloat F (exactText F x) = some x := by
  cases x with
  | nan => cases hx
  | num neg k =>
    simp only [Flt.isFinite, decide_eq_true_eq] at hx
    have hp : (10 : Nat) ^ F.low = 5 ^ F.low * 2 ^ F.low := by rw [← Nat.mul_pow]
    simp only [exactText, if_neg hx.ne]
    rw [parseFloat_plain F neg Nat.toDigits_ne_nil (isDigit_toDigits _) isDigit_fractionDigits,
      decimalCode_fractionDigits F hl, Nat.mul_assoc, ← hp, F.round_exact (by positivity) hx.le]
    simp [Flt.ofCode, Nat.min_eq_left hx.le]

/-- Exact decimal text is a display of the doubles. -/
def exactDisplay : FloatDisplay binary64 where
  toText := exactText binary64
  plain x hx := by
    cases x with
    | nan => cases hx
    | num neg k =>
      simp only [Flt.isFinite, decide_eq_true_eq] at hx
      simp only [exactText, if_neg hx.ne]
      exact ⟨neg, _, _, rfl, Nat.toDigits_ne_nil, isDigit_toDigits _, isDigit_fractionDigits⟩
  inverse x hx := parseFloat_exactText binary64 (by decide) x hx

/-- There are no digits after the point exactly when nothing is left after the scale. -/
theorem fractionDigits_eq_nil (hs : 0 < scale) : fractionDigits n scale = [] ↔ n % 10 ^ scale = 0 := by
  constructor
  · intro h
    obtain ⟨z, -, hval⟩ := fractionDigits_zeros (n := n) hs
    rw [h, nil_append, Nat.ofDigitChars_replicate_zero] at hval
    exact hval.symm
  · intro h
    rw [fractionDigits, h, rdropWhile_eq_nil_iff]
    intro c hc
    rcases mem_append.mp hc with hc | hc
    · simp [(mem_replicate.mp hc).2]
    · simpa using hc

theorem mem_plainText_point {neg : Bool} (hw : ∀ c ∈ whole, c.isDigit) : '.' ∈ plainText neg whole part ↔ part ≠ [] := by
  have hd : ∀ s : Str, (∀ c ∈ s, c.isDigit) → '.' ∉ s := fun s hs h => absurd (hs _ h) (by decide)
  rw [plainText]
  by_cases hpe : part = []
  · cases neg <;> simp [hd whole hw]
  · simp [hpe]

theorem exactDisplay_pointsFractions : exactDisplay.PointsFractions := by
  intro x hx
  cases x with
  | nan => cases hx
  | num neg k =>
    simp only [Flt.isFinite, decide_eq_true_eq] at hx
    have hp : (10 : Nat) ^ binary64.low = 5 ^ binary64.low * 2 ^ binary64.low := by rw [← Nat.mul_pow]
    have hmod : binary64.units k.val * 5 ^ binary64.low % 10 ^ binary64.low = 0 ↔ binary64.units k.val % 2 ^ binary64.low = 0 := by
      rw [hp, Nat.mul_comm, Nat.mul_mod_mul_left, Nat.mul_eq_zero]
      exact or_iff_right (by positivity)
    simp only [exactDisplay, exactText, if_neg hx.ne]
    rw [mem_plainText_point (isDigit_toDigits _), ne_eq,
      fractionDigits_eq_nil (by decide), hmod, Flt.isIntegral, decide_eq_false_iff_not]

end Ferroly
