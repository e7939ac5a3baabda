import Ferroly.Lib.Text

/-!
# Numbers in positional notation

Reading an integer in a radix as Rust's `from_str_radix` does: an optional sign, at least one digit, digits of the radix only,
and a value that fits the width. Writing is `Nat.toDigits`.
-/

namespace Ferroly

open List

variable {c : Char} {d e n radix : Nat} {s : Str}

/-- The value of a digit in a radix of at most 36, letters in either case. -/
def digitVal (radix : Nat) (c : Char) : Option Nat :=
  let n := c.toNat
  let v := if 48 ≤ n ∧ n ≤ 57 then n - 48
    else if 97 ≤ n ∧ n ≤ 122 then n - 87
    else if 65 ≤ n ∧ n ≤ 90 then n - 55
    else radix
  if v < radix then some v else none

/-- The number written by the digits of a string after those already read, whose value is `acc`. -/
def parseDigitsFrom (radix : Nat) : Nat → Str → Option Nat
  | acc, [] => some acc
  | acc, c :: s =>
    match digitVal radix c with
    | some d => parseDigitsFrom radix (acc * radix + d) s
    | none => none

/-- The number written by a nonempty string of digits. -/
def parseDigits (radix : Nat) (s : Str) : Option Nat :=
  match s with
  | [] => none
  | s => parseDigitsFrom radix 0 s

/-- An unsigned integer of `bits` bits in a radix: `uN::from_str_radix`. -/
def parseUnsigned (bits radix : Nat) (s : Str) : Option Nat :=
  let digits := match s with
    | '+' :: t => t
    | t => t
  (parseDigits radix digits).bind (fun n => if n < 2 ^ bits then some n else none)

/-- A signed integer of `bits` bits in a radix: `iN::from_str_radix`. -/
def parseSigned (bits radix : Nat) (s : Str) : Option Int :=
  match s with
  | '-' :: t => (parseDigits radix t).bind (fun n => if n ≤ 2 ^ (bits - 1) then some (-(n : Int)) else none)
  | '+' :: t => (parseDigits radix t).bind (fun n => if n < 2 ^ (bits - 1) then some (n : Int) else none)
  | t => (parseDigits radix t).bind (fun n => if n < 2 ^ (bits - 1) then some (n : Int) else none)

/-- Without a sign, an unsigned integer is its digits. -/
theorem parseUnsigned_of_head {bits : Nat} (h : s.head? ≠ some '+') :
    parseUnsigned bits radix s = (parseDigits radix s).bind (fun n => if n < 2 ^ bits then some n else none) := by
  unfold parseUnsigned
  split
  · exact absurd rfl h
  · rfl

theorem digitVal_plus : digitVal radix '+' = none := by
  simp [digitVal]

/-- Digits are letters or decimal digits. -/
theorem digitVal_range (h : digitVal radix c = some e) :
    (48 ≤ c.toNat ∧ c.toNat ≤ 57) ∨ (97 ≤ c.toNat ∧ c.toNat ≤ 122) ∨ (65 ≤ c.toNat ∧ c.toNat ≤ 90) := by
  by_contra hn
  rw [not_or, not_or] at hn
  simp only [digitVal, if_neg hn.1, if_neg hn.2.1, if_neg hn.2.2, Nat.lt_irrefl] at h
  cases h

theorem isWhitespace_of_range (h : (48 ≤ c.toNat ∧ c.toNat ≤ 57) ∨ (97 ≤ c.toNat ∧ c.toNat ≤ 122) ∨
    (65 ≤ c.toNat ∧ c.toNat ≤ 90)) : isWhitespace c = false := by
  simp only [isWhitespace, Bool.or_eq_false_iff, Bool.and_eq_false_iff, decide_eq_false_iff_not, beq_eq_false_iff_ne]
  omega

theorem eq_zero_of_digitVal (h : digitVal radix c = some 0) : c = '0' := by
  have hn : c.toNat = '0'.toNat := by
    have hz : '0'.toNat = 48 := rfl
    simp only [digitVal, Option.ite_none_right_eq_some, Option.some.injEq] at h
    split_ifs at h <;> omega
  exact Char.toNat_inj.mp hn

/-- What is read as a number has digits only. -/
theorem digitVal_of_parseDigitsFrom {acc : Nat} (h : parseDigitsFrom radix acc s = some n) :
    ∀ c ∈ s, ∃ e, digitVal radix c = some e := by
  induction s generalizing acc with
  | nil => exact nofun
  | cons d s ih =>
    rw [parseDigitsFrom] at h
    rcases hd : digitVal radix d with _ | e
    · rw [hd] at h
      cases h
    · rw [hd] at h
      intro c hc
      rcases mem_cons.mp hc with rfl | hc
      · exact ⟨e, hd⟩
      · exact ih h c hc

/-- What is read as a number has at least one digit and digits only. -/
theorem digitVal_of_parseDigits (h : parseDigits radix s = some n) : s ≠ [] ∧ ∀ c ∈ s, ∃ e, digitVal radix c = some e := by
  cases s with
  | nil => cases h
  | cons c s => exact ⟨cons_ne_nil _ _, digitVal_of_parseDigitsFrom h⟩

/-- A number has no white space around it. -/
theorem trim_of_parseDigits (h : parseDigits radix s = some n) : trim s = s := by
  obtain ⟨-, hall⟩ := digitVal_of_parseDigits h
  refine trim_of_forall_not (fun c hc => ?_)
  obtain ⟨e, he⟩ := hall c hc
  exact isWhitespace_of_range (digitVal_range he)

/-- What is no digit is not in a number. -/
theorem not_mem_of_parseDigits (h : parseDigits radix s = some n) (hc : digitVal radix c = none) : c ∉ s := by
  intro hmem
  obtain ⟨e, he⟩ := (digitVal_of_parseDigits h).2 c hmem
  rw [hc] at he
  cases he

/-- What is read as an unsigned integer has a sign and digits only. -/
theorem mem_of_parseUnsigned {bits : Nat} (h : parseUnsigned bits radix s = some n) (hc : c ∈ s) :
    c = '+' ∨ ∃ e, digitVal radix c = some e := by
  by_cases hplus : s.head? = some '+'
  · obtain ⟨t, rfl⟩ := head?_eq_some_iff.mp hplus
    have hbind : (parseDigits radix t).bind (fun n => if n < 2 ^ bits then some n else none) = some n := h
    obtain ⟨m, hm, -⟩ := Option.bind_eq_some_iff.mp hbind
    exact (mem_cons.mp hc).imp_right ((digitVal_of_parseDigits hm).2 c)
  · rw [parseUnsigned_of_head hplus, Option.bind_eq_some_iff] at h
    obtain ⟨m, hm, -⟩ := h
    exact .inr ((digitVal_of_parseDigits hm).2 c hc)

/-- A number without a sign is read as an unsigned integer if it fits. -/
theorem parseUnsigned_of_parseDigits (bits : Nat) (h : parseDigits radix s = some n) :
    parseUnsigned bits radix s = if n < 2 ^ bits then some n else none := by
  have hhead : s.head? ≠ some '+' := fun hplus => not_mem_of_parseDigits h digitVal_plus (mem_of_head? hplus)
  rw [parseUnsigned_of_head hhead, h, Option.bind_some]

/-- More digits do not make a number smaller. -/
theorem le_of_parseDigitsFrom {acc : Nat} (hr : 0 < radix) (h : parseDigitsFrom radix acc s = some n) : acc ≤ n := by
  induction s generalizing acc with
  | nil => exact (Option.some.inj h).le
  | cons c s ih =>
    rw [parseDigitsFrom] at h
    rcases hd : digitVal radix c with _ | e
    · rw [hd] at h
      cases h
    · rw [hd] at h
      calc acc ≤ acc * radix := Nat.le_mul_of_pos_right acc hr
        _ ≤ acc * radix + e := Nat.le_add_right _ _
        _ ≤ n := ih h

/-! ## Reading what was written -/

theorem parseDigitsFrom_append (radix : Nat) (s t : Str) (acc : Nat) :
    parseDigitsFrom radix acc (s ++ t) = (parseDigitsFrom radix acc s).bind (fun a => parseDigitsFrom radix a t) := by
  induction s generalizing acc with
  | nil => rfl
  | cons c s ih =>
    simp only [cons_append, parseDigitsFrom]
    cases digitVal radix c with
    | none => rfl
    | some d => exact ih _

/-- The digit of a value below sixteen has that value in every radix above it. -/
theorem digitVal_digitChar (h : d < 16) (hr : d < radix) : digitVal radix d.digitChar = some d := by
  have hd : ∀ e < 16, e.digitChar.toNat = if e < 10 then e + 48 else e + 87 := by decide
  simp only [digitVal, hd d h]
  by_cases h10 : d < 10
  · have h1 : 48 ≤ d + 48 ∧ d + 48 ≤ 57 := by omega
    simp [h10, h1, hr]
  · have h1 : ¬(48 ≤ d + 87 ∧ d + 87 ≤ 57) := by omega
    have h2 : 97 ≤ d + 87 ∧ d + 87 ≤ 122 := by omega
    simp only [if_neg h10, if_neg h1, if_pos h2, Nat.add_sub_cancel, if_pos hr]

/-- Digits are ASCII. -/
theorem toNat_of_digitVal (h : digitVal radix c = some e) : c.toNat < 0x80 := by
  have := digitVal_range h
  omega

/-- Digits in any spelling `g` of their values. -/
theorem parseDigitsFrom_map_toDigits {b : Nat} {g : Char → Char} (hb : 1 < b)
    (hg : ∀ d < b, digitVal b (g d.digitChar) = some d) (n : Nat) :
    parseDigitsFrom b 0 ((Nat.toDigits b n).map g) = some n := by
  induction n using Nat.strong_induction_on with
  | _ n ih =>
    by_cases hn : n < b
    · rw [Nat.toDigits_of_lt_base hn]
      simp [parseDigitsFrom, hg n hn]
    · have hm : n % b < b := Nat.mod_lt n (by omega)
      have hq : n / b < n := Nat.div_lt_self (by omega) hb
      rw [Nat.toDigits_of_base_le hb (by omega), map_append, parseDigitsFrom_append, ih _ hq]
      simp only [Option.bind_some, map_cons, map_nil, parseDigitsFrom, hg _ hm]
      rw [Nat.div_add_mod' n b]

/-- Reading the digits of a number gives the number. -/
theorem parseDigits_toDigits {b : Nat} (hb : 1 < b) (hb' : b ≤ 16) (n : Nat) : parseDigits b (Nat.toDigits b n) = some n := by
  have h := parseDigitsFrom_map_toDigits (g := id) hb (fun d hd => digitVal_digitChar (Nat.lt_of_lt_of_le hd hb') hd) n
  rw [map_id] at h
  cases hs : Nat.toDigits b n with
  | nil => exact absurd hs Nat.toDigits_ne_nil
  | cons c s => rw [hs] at h; exact h

/-! ## Decimal digits -/

theorem isDigit_toNat (h : c.isDigit = true) : 48 ≤ c.toNat ∧ c.toNat ≤ 57 := by
  simp only [Char.isDigit, Bool.and_eq_true, decide_eq_true_eq] at h
  exact h

theorem ne_of_isDigit {d : Char} (h : c.isDigit = true) (hd : d.isDigit = false) : c ≠ d := by
  rintro rfl
  rw [h] at hd
  cases hd

theorem isDigit_toDigits (n : Nat) : ∀ c ∈ Nat.toDigits 10 n, c.isDigit := fun _ hc =>
  Nat.isDigit_of_mem_toDigits (by omega) (by omega) hc

theorem digitVal_of_isDigit (h : c.isDigit = true) : digitVal 10 c = some (c.toNat - '0'.toNat) := by
  have hn := isDigit_toNat h
  have hz : '0'.toNat = 48 := rfl
  have hlt : c.toNat - 48 < 10 := by omega
  simp only [digitVal, hz, if_pos hn, if_pos hlt]

theorem isDigit_of_digitVal (h : digitVal 10 c = some d) : c.isDigit = true := by
  simp only [Char.isDigit, Bool.and_eq_true, decide_eq_true_eq]
  show 48 ≤ c.toNat ∧ c.toNat ≤ 57
  simp only [digitVal, Option.ite_none_right_eq_some] at h
  split_ifs at h <;> omega

theorem parseDigitsFrom_digits (acc : Nat) (h : ∀ c ∈ s, c.isDigit = true) :
    parseDigitsFrom 10 acc s = some (Nat.ofDigitChars 10 s acc) := by
  induction s generalizing acc with
  | nil => simp [parseDigitsFrom]
  | cons c s ih =>
    rw [parseDigitsFrom, digitVal_of_isDigit (h c mem_cons_self), Nat.mul_comm]
    exact ih _ (forall_mem_cons.mp h).2

theorem parseDigits_digits (hne : s ≠ []) (h : ∀ c ∈ s, c.isDigit = true) : parseDigits 10 s = some (Nat.ofDigitChars 10 s 0) := by
  obtain ⟨c, t, rfl⟩ := exists_cons_of_ne_nil hne
  exact parseDigitsFrom_digits 0 h

/-- What is read as a decimal number has at least one digit and digits only. -/
theorem isDigit_of_parseDigits (h : parseDigits 10 s = some n) : s ≠ [] ∧ ∀ c ∈ s, c.isDigit = true := by
  obtain ⟨hne, hall⟩ := digitVal_of_parseDigits h
  refine ⟨hne, fun c hc => ?_⟩
  obtain ⟨e, he⟩ := hall c hc
  exact isDigit_of_digitVal he

theorem parseDigits_eq_none (hc : c ∈ s) (hd : c.isDigit = false) : parseDigits 10 s = none := by
  cases h : parseDigits 10 s with
  | none => rfl
  | some n => rw [(isDigit_of_parseDigits h).2 c hc] at hd; cases hd

/-- Upper-case letters are the same digits. -/
theorem digitVal_toUpper : ∀ d < 16, digitVal 16 d.digitChar.toUpper = some d := by decide

/-- Decimal digits begin with a digit, hence with no sign. -/
theorem toDigits_cons (n : Nat) : ∃ c t, Nat.toDigits 10 n = c :: t ∧ c.isDigit = true := by
  obtain ⟨c, t, h⟩ := exists_cons_of_ne_nil (l := Nat.toDigits 10 n) Nat.toDigits_ne_nil
  exact ⟨c, t, h, isDigit_toDigits n c (by rw [h]; exact mem_cons_self)⟩

theorem parseSigned_toDigits (bits n : Nat) :
    parseSigned bits 10 (Nat.toDigits 10 n) = if n < 2 ^ (bits - 1) then some (n : Int) else none := by
  have h := parseDigits_toDigits (b := 10) (by decide) (by decide) n
  obtain ⟨c, t, ht, hc⟩ := toDigits_cons n
  have h1 : c ≠ '-' := ne_of_isDigit hc (by decide)
  have h2 : c ≠ '+' := ne_of_isDigit hc (by decide)
  rw [ht] at h ⊢
  simp [parseSigned, h1, h2, h]

theorem parseUnsigned_toDigits (bits n : Nat) : parseUnsigned bits 10 (Nat.toDigits 10 n) = if n < 2 ^ bits then some n else none :=
  parseUnsigned_of_parseDigits bits (parseDigits_toDigits (by decide) (by decide) n)

/-- Hexadecimal digits in upper case are read back. -/
theorem parseDigits_toUpper (n : Nat) : parseDigits 16 ((Nat.toDigits 16 n).map Char.toUpper) = some n := by
  have h := parseDigitsFrom_map_toDigits (g := Char.toUpper) (by decide) digitVal_toUpper n
  obtain ⟨c, t, ht⟩ := exists_cons_of_ne_nil (l := Nat.toDigits 16 n) Nat.toDigits_ne_nil
  rw [ht] at h ⊢
  exact h

end Ferroly
