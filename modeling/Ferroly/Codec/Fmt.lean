import Ferroly.Codec.Value

/-!
# Scalar writers

The writers the encoders share: each appends the text of a scalar to the output. How `f64` is displayed is a parameter, a
`FloatDisplay`.
-/

namespace Ferroly

open List

variable (D : F64Display)

namespace Fmt

/-- The digit loop of `write_u64`: fills the slots of the buffer from the last one down until the number is used up. The slots
never run out on a `u64` (`writeU64_eq`). -/
def writeU64Loop : Nat → Nat → Str → Str
  | 0, _, buf => buf
  | i + 1, n, buf =>
    let buf := Nat.digitChar (n % 10) :: buf
    if n / 10 = 0 then buf else writeU64Loop i (n / 10) buf

/-- Append the decimal form of `u`: the buffer has 20 slots. -/
def writeU64 (out : Str) (u : U64) : Str := out ++ writeU64Loop 20 u.val []

/-- `i.unsigned_abs()`. -/
def unsignedAbs (i : I64) : U64 := ⟨i.val.natAbs, by omega⟩

/-- Append the decimal form of `i`. -/
def writeI64 (out : Str) (i : I64) : Str :=
  let out := if i.val < 0 then out ++ ['-'] else out
  writeU64 out (unsignedAbs i)

/-- Append `f` in plain form, a non-finite value as `null`. -/
def writeF64 (D : FloatDisplay binary64) (out : Str) (f : F64) : Str :=
  if f.isFinite then out ++ D.toText f else out ++ "null".toList

/-- The characters that tell a float from an integer. -/
def isFloatMark (c : Char) : Bool := c == '.' || c == 'e' || c == 'E' || c == 'n' || c == 'i'

/-- Append `f` in JSON form: an integer-valued float gets a trailing `.0`, a non-finite value becomes `null`. -/
def writeJsonF64 (D : FloatDisplay binary64) (out : Str) (f : F64) : Str :=
  if !f.isFinite then out ++ "null".toList
  else
    let text := D.toText f
    if !text.any isFloatMark then out ++ text ++ ".0".toList else out ++ text

/-! ## What the writers append -/

theorem writeU64Loop_eq (i n : Nat) (buf : Str) (h : n < 10 ^ i) (hi : 0 < i) : writeU64Loop i n buf = Nat.toDigits 10 n ++ buf := by
  induction i generalizing n buf with
  | zero => omega
  | succ i ih =>
    rw [writeU64Loop]
    by_cases h10 : n / 10 = 0
    · have hn : n < 10 := by omega
      simp only [if_pos h10, Nat.toDigits_of_lt_base hn, Nat.mod_eq_of_lt hn, cons_append, nil_append]
    · have hlt : n / 10 < 10 ^ i := by
        omega
      have hpos : 0 < i := by
        rcases Nat.eq_zero_or_pos i with rfl | hp
        · simp at hlt; omega
        · exact hp
      simp only [if_neg h10]
      rw [ih _ _ hlt hpos, Nat.toDigits_of_base_le (by decide) (by omega : 10 ≤ n)]
      simp

variable (out : Str)

/-- `write_u64` appends the decimal digits. -/
theorem writeU64_eq (u : U64) : writeU64 out u = out ++ Nat.toDigits 10 u.val := by
  have h : u.val < 10 ^ 20 := Nat.lt_trans u.property (by decide)
  rw [writeU64, writeU64Loop_eq 20 u.val [] h (by decide), append_nil]

/-- The sign of an integer. -/
def signText (i : I64) : Str := if i.val < 0 then ['-'] else []

theorem writeI64_eq (i : I64) : writeI64 out i = out ++ (signText i ++ Nat.toDigits 10 i.val.natAbs) := by
  rw [writeI64, writeU64_eq, signText]
  split <;> simp [unsignedAbs]

theorem writeF64_eq (f : F64) : writeF64 D out f = out ++ writeF64 D [] f := by
  unfold writeF64
  split <;> rfl

theorem writeJsonF64_eq (f : F64) : writeJsonF64 D out f = out ++ writeJsonF64 D [] f := by
  simp only [writeJsonF64]
  split
  · simp
  · split <;> simp

end Fmt

/-! ## Reading integers -/

/-- The `i64` of an integer in range. -/
def I64.ofInt? (i : Int) : Option I64 := if h : -(2 ^ 63) ≤ i ∧ i < 2 ^ 63 then some ⟨i, h⟩ else none

/-- The `u64` of a number in range. -/
def U64.ofNat? (n : Nat) : Option U64 := if h : n < 2 ^ 64 then some ⟨n, h⟩ else none

/-- `text.parse::<i64>().ok()`. -/
def parseI64 (s : Str) : Option I64 := (parseSigned 64 10 s).bind I64.ofInt?

/-- `text.parse::<u64>().ok()`. -/
def parseU64 (s : Str) : Option U64 := (parseUnsigned 64 10 s).bind U64.ofNat?

/-- `text.parse::<f64>().ok()`. -/
def parseF64 (s : Str) : Option F64 := parseFloat binary64 s

theorem I64.ofInt?_val (i : I64) : I64.ofInt? i.val = some i := by
  rw [I64.ofInt?, dif_pos i.property]

/-- An `i64` is read back from its text. -/
theorem parseI64_text (i : I64) : parseI64 (Fmt.signText i ++ Nat.toDigits 10 i.val.natAbs) = some i := by
  rw [Fmt.signText]
  split
  · have h := parseDigits_toDigits (b := 10) (by decide) (by decide) i.val.natAbs
    have hle : i.val.natAbs ≤ 2 ^ 63 := by omega
    have hval : -(i.val.natAbs : Int) = i.val := by omega
    simp only [parseI64, parseSigned, cons_append, nil_append, h, Option.bind_some, if_pos hle, hval, I64.ofInt?_val]
  · have hlt : i.val.natAbs < 2 ^ 63 := by omega
    have hval : (i.val.natAbs : Int) = i.val := by omega
    rw [nil_append, parseI64, parseSigned_toDigits 64, if_pos hlt, Option.bind_some, hval, I64.ofInt?_val]

/-- The digits of a `u64` read as an `i64`: they are one as long as it fits. -/
theorem parseI64_toDigits (u : U64) : parseI64 (Nat.toDigits 10 u.val) = if h : u.val < 2 ^ 63 then some (u.toI64 h) else none := by
  rw [parseI64, parseSigned_toDigits]
  by_cases h : u.val < 2 ^ 63
  · rw [if_pos h, dif_pos h, Option.bind_some]
    exact I64.ofInt?_val (u.toI64 h)
  · rw [if_neg h, dif_neg h, Option.bind_none]

/-- A `u64` is read back from its digits. -/
theorem parseU64_toDigits (u : U64) : parseU64 (Nat.toDigits 10 u.val) = some u := by
  rw [parseU64, parseUnsigned_toDigits, if_pos u.property, Option.bind_some, U64.ofNat?, dif_pos u.property]

/-! ## The characters of a number -/

/-- The characters of a number. -/
def isNumberChar (c : Char) : Bool := c.isDigit || c == '-' || c == '.'

theorem isNumberChar_ne {c d : Char} (h : isNumberChar c = true) (hd : isNumberChar d = false) : c ≠ d := by
  rintro rfl
  rw [h] at hd
  cases hd

variable {c : Char}

theorem isNumberChar_toNat (h : isNumberChar c = true) : 45 ≤ c.toNat ∧ c.toNat ≤ 57 := by
  simp only [isNumberChar, Bool.or_eq_true, beq_iff_eq] at h
  rcases h with (h | rfl) | rfl
  · have := isDigit_toNat h
    omega
  · decide
  · decide

theorem not_isWhitespace_of_isNumberChar (h : isNumberChar c = true) : isWhitespace c = false := by
  have := isNumberChar_toNat h
  simp only [isWhitespace, Bool.or_eq_false_iff, Bool.and_eq_false_iff, decide_eq_false_iff_not, beq_eq_false_iff_ne]
  omega

theorem isNumberChar_of_isDigit (h : c.isDigit = true) : isNumberChar c = true := by
  simp [isNumberChar, h]

/-- A sign, digits, and digits after a point. -/
theorem isNumberChar_plainText {neg : Bool} {whole part : Str} (hw : ∀ c ∈ whole, c.isDigit = true)
    (hp : ∀ c ∈ part, c.isDigit = true) : ∀ c ∈ plainText neg whole part, isNumberChar c = true := by
  intro c hc
  rw [plainText, mem_append, mem_append] at hc
  rcases hc with (hc | hc) | hc
  · cases neg with
    | true => rw [if_pos rfl, mem_singleton] at hc; rw [hc]; rfl
    | false => exact absurd hc not_mem_nil
  · exact isNumberChar_of_isDigit (hw c hc)
  · by_cases hpe : part = []
    · rw [if_pos hpe] at hc
      exact absurd hc not_mem_nil
    · rw [if_neg hpe, mem_cons] at hc
      rcases hc with rfl | hc
      · rfl
      · exact isNumberChar_of_isDigit (hp c hc)

/-- A signed integer in plain form. -/
theorem signText_eq_plainText (i : I64) :
    Fmt.signText i ++ Nat.toDigits 10 i.val.natAbs = plainText (decide (i.val < 0)) (Nat.toDigits 10 i.val.natAbs) [] := by
  simp [Fmt.signText, plainText]

/-- An unsigned integer in plain form. -/
theorem toDigits_eq_plain (n : Nat) : Nat.toDigits 10 n = plainText false (Nat.toDigits 10 n) [] := by
  simp [plainText]

/-! ## Integers in plain form -/

section PlainText

variable {neg : Bool} {whole : Str}

/-- An integer in plain form, read as an `i64`. -/
theorem parseI64_plainText (hne : whole ≠ []) (hw : ∀ c ∈ whole, c.isDigit = true) : parseI64 (plainText neg whole []) =
      I64.ofInt? (if neg then -(Nat.ofDigitChars 10 whole 0 : Int) else (Nat.ofDigitChars 10 whole 0 : Int)) := by
  have hd := parseDigits_digits hne hw
  generalize Nat.ofDigitChars 10 whole 0 = n at hd
  cases neg with
  | true =>
    simp only [plainText, if_true, append_nil, singleton_append, parseI64, parseSigned, hd, Option.bind_some]
    by_cases hn : n ≤ 2 ^ 63
    · rw [if_pos hn, Option.bind_some]
    · rw [if_neg hn, Option.bind_none, I64.ofInt?, dif_neg (by omega)]
  | false =>
    obtain ⟨c, w, rfl⟩ := exists_cons_of_ne_nil hne
    have h1 : c ≠ '-' := ne_of_isDigit (hw c mem_cons_self) (by decide)
    have h2 : c ≠ '+' := ne_of_isDigit (hw c mem_cons_self) (by decide)
    have hs : parseSigned 64 10 (c :: w) = if n < 2 ^ 63 then some (n : Int) else none := by
      simp [parseSigned, h1, h2, hd]
    simp only [plainText, Bool.false_eq_true, if_false, if_true, append_nil, nil_append, parseI64, hs]
    by_cases hn : n < 2 ^ 63
    · rw [if_pos hn, Option.bind_some]
    · rw [if_neg hn, Option.bind_none, I64.ofInt?, dif_neg (by omega)]

/-- An integer in plain form, read as a `u64`. -/
theorem parseU64_plainText (hne : whole ≠ []) (hw : ∀ c ∈ whole, c.isDigit = true) :
    parseU64 (plainText neg whole []) = if neg then none else U64.ofNat? (Nat.ofDigitChars 10 whole 0) := by
  have hd := parseDigits_digits hne hw
  generalize Nat.ofDigitChars 10 whole 0 = n at hd
  cases neg with
  | true =>
    have hm : parseDigits 10 ('-' :: whole) = none := parseDigits_eq_none mem_cons_self (by decide)
    simp [plainText, parseU64, parseUnsigned, hm]
  | false =>
    obtain ⟨c, w, rfl⟩ := exists_cons_of_ne_nil hne
    have h2 : c ≠ '+' := ne_of_isDigit (hw c mem_cons_self) (by decide)
    have hs : parseUnsigned 64 10 (c :: w) = if n < 2 ^ 64 then some n else none := by
      simp [parseUnsigned, h2, hd]
    simp only [plainText, Bool.false_eq_true, if_false, if_true, append_nil, nil_append, parseU64, hs]
    by_cases hn : n < 2 ^ 64
    · rw [if_pos hn, Option.bind_some]
    · rw [if_neg hn, Option.bind_none, U64.ofNat?, dif_neg hn]

end PlainText

/-- A finite float's text, with `.0` after it unless it has one of the marks of a float, has a point and reads back: the marks
are a point and characters that no plain decimal text has. -/
theorem pointed_plain {f : F64} (hf : f.isFinite = true) {mark : Char → Bool} (hdot : mark '.' = true) (hminus : mark '-' = false)
    (hdigit : ∀ c : Char, c.isDigit = true → mark c = false) :
    ∃ neg whole part, (if !(D.toText f).any mark then D.toText f ++ ".0".toList else D.toText f) = plainText neg whole part ∧
      whole ≠ [] ∧ (∀ c ∈ whole, c.isDigit) ∧ (∀ c ∈ part, c.isDigit) ∧ part ≠ [] ∧
      parseF64 (plainText neg whole part) = some f := by
  obtain ⟨neg, whole, part, htext, hne, hw, hp⟩ := D.plain f hf
  have hinv := D.inverse f hf
  have hmark : (plainText neg whole part).any mark = decide (part ≠ []) := by
    have hnot : ∀ t : Str, (∀ c ∈ t, c.isDigit = true) → t.any mark = false := by
      intro t ht
      rw [any_eq_false]
      intro c hc
      rw [hdigit c (ht c hc)]
      exact Bool.false_ne_true
    have hsign : (if neg then ['-'] else []).any mark = false := by cases neg <;> simp [hminus]
    rw [plainText, any_append, any_append, hsign, hnot whole hw, Bool.false_or, Bool.false_or]
    cases part with
    | nil => rfl
    | cons c part => simp [hdot]
  by_cases hpe : part = []
  · refine ⟨neg, whole, ['0'], ?_, hne, hw, by simp, by simp, ?_⟩
    · subst hpe
      rw [htext, hmark]
      simp [plainText]
    · rw [htext, hpe] at hinv
      rw [parseF64, parseFloat_plain_zero binary64 neg hne hw, hinv]
  · refine ⟨neg, whole, part, ?_, hne, hw, hp, hpe, ?_⟩
    · rw [htext, hmark]
      simp [hpe]
    · rw [parseF64, ← htext, hinv]

/-- Text with a point is no integer. -/
theorem parseInt_of_point {s : Str} (h : '.' ∈ s) : parseI64 s = none ∧ parseU64 s = none := by
  have hd : ∀ t : Str, '.' ∈ t → parseDigits 10 t = none := fun t ht => parseDigits_eq_none ht (by decide)
  constructor
  · unfold parseI64 parseSigned
    split
    · rw [hd _ (by simpa using h)]; rfl
    · rw [hd _ (by simpa using h)]; rfl
    · rw [hd _ h]; rfl
  · unfold parseU64 parseUnsigned
    split
    · simp only [hd _ (show '.' ∈ _ by simpa using h), Option.bind_none]
    · simp only [hd _ h, Option.bind_none]

/-- What is a `u64` is a number. -/
theorem parseF64_isSome_of_parseU64 {s : Str} {u : U64} (h : parseU64 s = some u) : (parseF64 s).isSome := by
  have hplain : ∀ t n, parseDigits 10 t = some n → (parseFloat binary64 t).isSome := by
    intro t n ht
    obtain ⟨hne, hw⟩ := isDigit_of_parseDigits ht
    have hp : ∀ c ∈ ([] : Str), c.isDigit = true := by simp
    have := parseFloat_plain binary64 false hne hw hp
    simp only [plainText, Bool.false_eq_true, if_false, if_true, append_nil, nil_append] at this
    rw [this]
    rfl
  obtain ⟨n, hn, -⟩ := Option.bind_eq_some_iff.mp h
  obtain ⟨m, hm, -⟩ := Option.bind_eq_some_iff.mp hn
  split at hm
  · next t =>
    have hsplit : splitSign t = (false, t) := by
      obtain ⟨hne, hw⟩ := isDigit_of_parseDigits hm
      have := splitSign_plainText false [] hne hw
      simpa [plainText] using this
    have := hplain t m hm
    rw [parseFloat, hsplit] at this
    exact this
  · exact hplain s m hm

end Ferroly
