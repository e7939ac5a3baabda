import Ferroly.Codec.YamlSpec

/-!
# The lines of a YAML document

What the encoder writes is a list of lines, each an indentation and a content (`blockLines`), and preprocessing gives these lines
back: no content is blank, a comment or a document marker, and none has white space at its ends. Every scalar and every key is
one such content, and reads back.
-/

namespace Ferroly

open List Fmt

variable {D : F64Display} {v : Value}

namespace Yaml

variable {c s whole : Str}

/-! ## Quoting -/

/-- A character as it stands between double quotes. -/
def escapeChar (c : Char) : Str := (escapeOf c).getD [c]

/-- A string as it stands between double quotes. -/
def escaped (s : Str) : Str := s.flatMap escapeChar

/-- A string in double quotes. -/
def quote (s : Str) : Str := '"' :: (escaped s ++ ['"'])

/-- A string as a key or a scalar, in quotes if it needs them. -/
def stringText (s : Str) : Str := if needsQuote s then quote s else s

theorem writeQuotedLoop_eq (out run s : Str) : writeQuotedLoop out run s = out ++ run ++ escaped s := by
  induction s generalizing out run with
  | nil => simp [writeQuotedLoop, escaped]
  | cons c s ih =>
    rw [writeQuotedLoop]
    cases h : escapeOf c with
    | none | some esc => simp [ih, escaped, escapeChar, h]

theorem writeQuoted_eq (out s : Str) : writeQuoted out s = out ++ quote s := by
  simp [writeQuoted, writeQuotedLoop_eq, quote]

theorem writeKey_eq (out k : Str) : writeKey out k = out ++ stringText k := by
  rw [writeKey, stringText]
  split
  · exact writeQuoted_eq out k
  · rfl

/-- An escaped character is itself or a backslash and one more. -/
theorem escapeChar_cases (c : Char) : (escapeChar c = [c] ∧ c ≠ '"' ∧ c ≠ '\\' ∧ c ≠ '\n') ∨
      ∃ d, escapeChar c = ['\\', d] ∧ d ≠ '\n' ∧ ∀ s, unescape ('\\' :: d :: s) = c :: unescape s := by
  by_cases h1 : c = '"'
  · subst h1
    exact .inr ⟨'"', rfl, by decide, fun _ => rfl⟩
  by_cases h2 : c = '\\'
  · subst h2
    exact .inr ⟨'\\', rfl, by decide, fun _ => rfl⟩
  by_cases h3 : c = '\n'
  · subst h3
    exact .inr ⟨'n', rfl, by decide, fun _ => rfl⟩
  · exact .inl ⟨by simp [escapeChar, escapeOf, h1, h2, h3], h1, h2, h3⟩

theorem unescape_cons {c : Char} (h : c ≠ '\\') : unescape (c :: s) = c :: unescape s := by
  rw [unescape.eq_def]
  split <;> simp_all

theorem escaped_cons (c : Char) : escaped (c :: s) = escapeChar c ++ escaped s := flatMap_cons

/-- Text that is escaped up to somewhere, also up to the middle of an escape, reads back as a beginning of the string. -/
theorem unescape_of_isPrefix {inner : Str} (h : inner <+: escaped s) :
    ∃ s', unescape inner = s' ∧ s' <+: s ∧ (inner = escaped s' ∨ inner = escaped s' ++ ['\\']) := by
  induction s generalizing inner with
  | nil =>
    have hnil : inner = [] := prefix_nil.mp h
    exact ⟨[], by rw [hnil]; rfl, nil_prefix, .inl hnil⟩
  | cons c s ih =>
    have hnone : unescape [] = [] := rfl
    rw [escaped_cons] at h
    rcases escapeChar_cases c with ⟨he, -, hb, -⟩ | ⟨d, he, -, hun⟩
    · rw [he] at h
      cases inner with
      | nil => exact ⟨[], hnone, nil_prefix, .inl rfl⟩
      | cons b inner =>
        obtain ⟨rfl, htail⟩ := cons_prefix_cons.mp h
        obtain ⟨s', hs', hpre, hform⟩ := ih htail
        refine ⟨b :: s', by rw [unescape_cons hb, hs'], cons_prefix_cons.mpr ⟨rfl, hpre⟩, ?_⟩
        rw [escaped_cons, he]
        rcases hform with rfl | rfl
        · exact .inl rfl
        · exact .inr rfl
    · rw [he, cons_append] at h
      match inner with
      | [] => exact ⟨[], hnone, nil_prefix, .inl rfl⟩
      | [b] =>
        obtain ⟨rfl, -⟩ := cons_prefix_cons.mp h
        exact ⟨[], rfl, nil_prefix, .inr rfl⟩
      | b :: b' :: inner =>
        obtain ⟨rfl, hsecond⟩ := cons_prefix_cons.mp h
        obtain ⟨rfl, htail⟩ := cons_prefix_cons.mp hsecond
        obtain ⟨s', hs', hpre, hform⟩ := ih htail
        refine ⟨c :: s', by rw [hun, hs'], cons_prefix_cons.mpr ⟨rfl, hpre⟩, ?_⟩
        rw [escaped_cons, he]
        rcases hform with rfl | rfl
        · exact .inl rfl
        · exact .inr rfl

/-- Escaped text reads back. -/
theorem unescape_escaped : unescape (escaped s) = s := by
  induction s with
  | nil => rfl
  | cons c s ih =>
    rw [escaped_cons]
    rcases escapeChar_cases c with ⟨he, -, hb, -⟩ | ⟨d, he, -, hun⟩
    · rw [he, singleton_append, unescape_cons hb, ih]
    · rw [he, cons_append, singleton_append, hun, ih]

theorem newline_not_mem_escaped : '\n' ∉ escaped s := by
  intro h
  obtain ⟨c, -, hc⟩ := mem_flatMap.mp h
  rcases escapeChar_cases c with ⟨he, -, -, hn⟩ | ⟨d, he, hd, -⟩
  · rw [he, mem_singleton] at hc
    exact hn hc.symm
  · rw [he] at hc
    simp [Ne.symm hd] at hc

/-! ## Contents of lines -/

/-- The content of a line that preprocessing keeps as it is. -/
structure Clean (c : Str) : Prop where
  noNewline : '\n' ∉ c
  first : ∃ d t, c = d :: t ∧ isWhitespace d = false ∧ d ≠ '#'
  last : ∃ t d, c = t ++ [d] ∧ isWhitespace d = false
  notMarker : c ≠ "---".toList

theorem Clean.ne_nil (h : Clean c) : c ≠ [] := by
  obtain ⟨d, t, rfl, -⟩ := h.first
  exact cons_ne_nil _ _

theorem Clean.trimStart_eq (h : Clean c) : trimStart c = c := by
  obtain ⟨d, t, rfl, hd, -⟩ := h.first
  exact trimStart_cons_of_not hd

theorem Clean.trimEnd_eq (h : Clean c) : trimEnd c = c := by
  obtain ⟨t, d, rfl, hd⟩ := h.last
  exact trimEnd_append_of_not hd

theorem Clean.trim_eq (h : Clean c) : trim c = c := trim_eq_self h.trimStart_eq h.trimEnd_eq

theorem trimStart_cons_of_ws {c : Char} (h : isWhitespace c = true) : trimStart (c :: s) = trimStart s := by
  rw [trimStart, dropWhile_cons_of_pos h, trimStart]

variable {n : Nat}

theorem trimStart_pad : trimStart (replicate n ' ' ++ s) = trimStart s := by
  rw [trimStart, dropWhile_append_of_pos (fun c hc => by rw [(mem_replicate.mp hc).2]; rfl), trimStart]

/-- A line is read as its indentation and its content. -/
theorem significant_pad (h : Clean c) : significant (stripCr (replicate n ' ' ++ c)) = some (n, c) := by
  obtain ⟨d, t, hcons, hd, hne⟩ := h.first
  have hcr : (replicate n ' ' ++ c).getLast? ≠ some '\r' := by
    obtain ⟨u, e, rfl, he⟩ := h.last
    rw [← append_assoc, getLast?_concat]
    rintro ⟨⟩
    cases he
  have hlen : (utf8 (replicate n ' ' ++ c)).length - (utf8 c).length = n := by
    have hsp : (utf8 (replicate n ' ')).length = n := by
      rw [utf8_ascii (fun c hc => by rw [(mem_replicate.mp hc).2]; decide), length_map, length_replicate]
    rw [utf8_append, length_append, hsp, Nat.add_sub_cancel]
  have hhead : ¬(c = [] ∨ c.head? = some '#' ∨ c = "---".toList) := by
    rintro (h0 | h1 | h2)
    · exact h.ne_nil h0
    · rw [hcons] at h1
      exact hne (by simpa using h1)
    · exact h.notMarker h2
  rw [stripCr_eq_self hcr, significant]
  simp only [trimStart_pad, h.trimStart_eq, if_neg hhead, hlen, h.trimEnd_eq]

/-- A line with its indentation and its end. -/
def lineText (l : Line) : Str := replicate l.1 ' ' ++ l.2 ++ ['\n']

/-- Preprocessing gives the lines of a text back. -/
theorem preprocess_lineText {ls : List Line} (h : ∀ l ∈ ls, Clean l.2) : preprocess (ls.flatMap lineText) = ls := by
  induction ls with
  | nil => rfl
  | cons l ls ih =>
    obtain ⟨n, c⟩ := l
    have hc := h _ mem_cons_self
    have hnl : '\n' ∉ replicate n ' ' ++ c := by
      rw [mem_append, not_or]
      exact ⟨fun hm => absurd (mem_replicate.mp hm).2 (by decide), hc.noNewline⟩
    have ih := ih (forall_mem_cons.mp h).2
    rw [preprocess] at ih ⊢
    rw [flatMap_cons, lineText, append_assoc, singleton_append, lines_append hnl, filterMap_cons_some (significant_pad hc), ih]

/-- A key, its colon and what follows on the line. -/
theorem Clean.marker {k m : Str} (hk : Clean k) (hm : m = [] ∨ ∃ t, m = ' ' :: t ∧ Clean t) : Clean (k ++ ':' :: m) := by
  obtain ⟨d, t, rfl, hd, hne⟩ := hk.first
  have hnk : '\n' ≠ d ∧ '\n' ∉ t := not_or.mp (fun h => hk.noNewline (mem_cons.mpr h))
  refine ⟨?_, ⟨d, t ++ ':' :: m, rfl, hd, hne⟩, ?_, ?_⟩
  · rcases hm with rfl | ⟨u, rfl, hu⟩
    · simp [hnk]
    · simp [hnk, hu.noNewline]
  · rcases hm with rfl | ⟨u, rfl, hu⟩
    · exact ⟨d :: t, ':', rfl, rfl⟩
    · obtain ⟨w, e, rfl, he⟩ := hu.last
      exact ⟨d :: t ++ ':' :: ' ' :: w, e, by simp, he⟩
  · intro h
    have hmem : ':' ∈ "---".toList := by
      rw [← h]
      simp
    revert hmem
    decide

/-- A dash and what follows on the line. -/
theorem Clean.dash {m : Str} (hm : m = [] ∨ ∃ t, m = ' ' :: t ∧ Clean t) : Clean ('-' :: m) := by
  refine ⟨?_, ⟨'-', m, rfl, rfl, by decide⟩, ?_, ?_⟩
  · rcases hm with rfl | ⟨u, rfl, hu⟩
    · decide
    · simp [hu.noNewline]
  · rcases hm with rfl | ⟨u, rfl, hu⟩
    · exact ⟨[], '-', rfl, rfl⟩
    · obtain ⟨w, e, rfl, he⟩ := hu.last
      exact ⟨'-' :: ' ' :: w, e, by simp, he⟩
  · rcases hm with rfl | ⟨u, rfl, -⟩
    · decide
    · simp

/-! ## Strings -/

/-- What a string that needs no quotes is not. -/
structure Bare (s : Str) : Prop where
  ne_nil : s ≠ []
  trim_eq : trim s = s
  special : ∀ c ∈ s, c ∉ specials
  indicator : ∀ c t, s = c :: t → c ∉ indicators
  word : s ≠ "null".toList ∧ s ≠ "~".toList ∧ s ≠ "true".toList ∧ s ≠ "false".toList
  int : parseI64 s = none
  float : parseF64 s = none

theorem bare_of_not_needsQuote (h : needsQuote s = false) : Bare s := by
  unfold needsQuote at h
  split at h
  · cases h
  next h1 =>
  split at h
  · cases h
  next h2 =>
  split at h
  · cases h
  next h3 =>
  simp only [Bool.or_eq_true, List.isEmpty_iff, bne_iff_ne, not_or, not_not] at h1
  simp only [any_eq_true, contains_iff_mem, not_exists, not_and] at h2
  simp only [Bool.or_eq_false_iff, beq_eq_false_iff_ne, Option.isSome_eq_false_iff, Option.isNone_iff_eq_none] at h
  obtain ⟨⟨⟨⟨⟨hnull, htilde⟩, htrue⟩, hfalse⟩, hint⟩, hfloat⟩ := h
  refine ⟨h1.1, h1.2.symm, h2, ?_, ⟨hnull, htilde, htrue, hfalse⟩, hint, hfloat⟩
  rintro c t rfl hc
  exact h3 (by simpa using hc)

theorem first_of_trim (hne : s ≠ []) (h : trim s = s) : ∃ d t, s = d :: t ∧ isWhitespace d = false := by
  have hs : trimStart s = s := by rw [← h, trimStart_trim]
  obtain ⟨d, t, rfl⟩ := exists_cons_of_ne_nil hne
  exact ⟨d, t, rfl, (Bool.not_eq_true _).mp (dropWhile_eq_self_iff.mp hs (Nat.zero_lt_succ _))⟩

theorem last_of_trim (hne : s ≠ []) (h : trim s = s) : ∃ t d, s = t ++ [d] ∧ isWhitespace d = false := by
  have hs : trimEnd s = s := by rw [← h, trimEnd_trim]
  refine ⟨s.dropLast, s.getLast hne, (dropLast_append_getLast hne).symm, ?_⟩
  exact (Bool.not_eq_true _).mp (rdropWhile_eq_self_iff.mp hs hne)

theorem clean_quote : Clean (quote s) := by
  refine ⟨?_, ⟨'"', _, rfl, rfl, by decide⟩, ⟨'"' :: escaped s, '"', rfl, rfl⟩, ?_⟩
  · simp [quote, newline_not_mem_escaped]
  · simp [quote]

theorem Bare.clean (h : Bare s) : Clean s := by
  obtain ⟨d, t, rfl, hd⟩ := first_of_trim h.ne_nil h.trim_eq
  refine ⟨fun hn => h.special _ hn (by decide), ⟨d, t, rfl, hd, ?_⟩, last_of_trim h.ne_nil h.trim_eq, ?_⟩
  · rintro rfl
    exact h.special _ mem_cons_self (by decide)
  · intro he
    rw [show "---".toList = ['-', '-', '-'] from rfl, cons.injEq] at he
    exact h.indicator d t rfl (by rw [he.1]; decide)

theorem clean_stringText : Clean (stringText s) := by
  rw [stringText]
  cases h : needsQuote s with
  | true => exact clean_quote
  | false => exact (bare_of_not_needsQuote h).clean

/-! ## Scalars read back -/

theorem not_isQuotedBy {q c : Char} (h : c ≠ q) : isQuotedBy q (c :: s) = false := by
  simp [isQuotedBy, h]

theorem isQuotedBy_quote : isQuotedBy '"' (quote s) = true := by
  rw [isQuotedBy, quote, ← cons_append, getLast?_concat]
  simp

theorem unquote_quote : unquote (quote s) = s := by
  rw [unquote, clean_quote.trim_eq, if_pos isQuotedBy_quote, quote, tail_cons, dropLast_concat, unescape_escaped]

theorem parseScalar_quote : parseScalar (quote s) = .str s := by
  rw [parseScalar]
  simp only [clean_quote.trim_eq, isQuotedBy_quote, Bool.true_or, if_true, unquote_quote]

/-- The first characters of the texts that are read as more than a number or a string. -/
def wordStarts : List Char := ['"', '\'', 'n', '~', '[', '\x7b', 't', 'f']

theorem parseScalar_plain {c : Char} (ht : trim (c :: s) = c :: s) (hc : c ∉ wordStarts) :
    parseScalar (c :: s) = plainScalar (c :: s) := by
  simp only [wordStarts, mem_cons, not_or] at hc
  obtain ⟨h1, h2, h3, h4, h5, h6, h7, h8⟩ := hc
  simp [parseScalar, ht, not_isQuotedBy h1, not_isQuotedBy h2, h3, h4, h5, h6, h7, h8]

theorem parseScalar_bare (h : Bare s) : parseScalar s = .str s := by
  obtain ⟨c, t, rfl⟩ := exists_cons_of_ne_nil h.ne_nil
  have hsp := h.special c mem_cons_self
  have hin := h.indicator c t rfl
  have h1 : c ≠ '"' := by rintro rfl; exact hsp (by decide)
  have h2 : c ≠ '\'' := by rintro rfl; exact hsp (by decide)
  have h3 : c :: t ≠ "[]".toList := fun e => hin (by rw [(cons.inj e).1]; decide)
  have h4 : c :: t ≠ "\x7b\x7d".toList := fun e => hin (by rw [(cons.inj e).1]; decide)
  obtain ⟨h5, h6, h7, h8⟩ := h.word
  have hu : parseU64 (c :: t) = none := by
    cases hu : parseU64 (c :: t) with
    | none => rfl
    | some u =>
      have := parseF64_isSome_of_parseU64 hu
      rw [h.float] at this
      cases this
  simp only [parseScalar, h.trim_eq, not_isQuotedBy h1, not_isQuotedBy h2, h3, h4, h5, h6, h7, h8, or_self, if_false,
    cons_ne_nil, plainScalar, h.int, hu, h.float, Bool.or_self, Bool.false_eq_true]

/-- Every string is read back from its text. -/
theorem parseScalar_stringText : parseScalar (stringText s) = .str s := by
  rw [stringText]
  cases h : needsQuote s with
  | true => exact parseScalar_quote
  | false => exact parseScalar_bare (bare_of_not_needsQuote h)

/-- Every key is read back from its text. -/
theorem unquote_stringText : unquote (stringText s) = s := by
  rw [stringText]
  cases h : needsQuote s with
  | true => exact unquote_quote
  | false =>
    have hb := bare_of_not_needsQuote h
    obtain ⟨c, t, rfl⟩ := exists_cons_of_ne_nil hb.ne_nil
    have hsp := hb.special c mem_cons_self
    have h1 : c ≠ '"' := by rintro rfl; exact hsp (by decide)
    have h2 : c ≠ '\'' := by rintro rfl; exact hsp (by decide)
    simp only [Bool.false_eq_true, if_false, unquote, hb.trim_eq, not_isQuotedBy h1, not_isQuotedBy h2]

/-- A text of number characters that is more than dashes is one clean content that is no word. -/
theorem clean_number {t : Str} (hne : t ≠ []) (h : ∀ c ∈ t, isNumberChar c = true) (hm : t ≠ "---".toList) : Clean t := by
  obtain ⟨c, s, rfl⟩ := exists_cons_of_ne_nil hne
  refine ⟨fun hn => isNumberChar_ne (h _ hn) (by decide) rfl, ⟨c, s, rfl, ?_, ?_⟩, ?_, hm⟩
  · exact not_isWhitespace_of_isNumberChar (h c mem_cons_self)
  · exact isNumberChar_ne (h c mem_cons_self) (by decide)
  · refine ⟨(c :: s).dropLast, (c :: s).getLast hne, (dropLast_append_getLast hne).symm, ?_⟩
    exact not_isWhitespace_of_isNumberChar (h _ (getLast_mem hne))

theorem parseScalar_number {t : Str} (hne : t ≠ []) (h : ∀ c ∈ t, isNumberChar c = true) (hm : t ≠ "---".toList) :
    parseScalar t = plainScalar t := by
  have hclean := clean_number hne h hm
  obtain ⟨c, s, rfl⟩ := exists_cons_of_ne_nil hne
  refine parseScalar_plain hclean.trim_eq (fun hc => ?_)
  have hall : ∀ d ∈ wordStarts, isNumberChar d = false := forall_iff_forall_mem.mp (by decide)
  exact isNumberChar_ne (h c mem_cons_self) (hall c hc) rfl

theorem plainText_ne {neg : Bool} {part : Str} (hne : whole ≠ []) (hw : ∀ c ∈ whole, c.isDigit = true) :
    plainText neg whole part ≠ [] ∧ plainText neg whole part ≠ "---".toList := by
  obtain ⟨c, w, rfl⟩ := exists_cons_of_ne_nil hne
  have hmem : c ∈ plainText neg (c :: w) part := by simp [plainText]
  refine ⟨ne_nil_of_mem hmem, fun h => ?_⟩
  rw [h] at hmem
  have hall : ∀ d ∈ "---".toList, d.isDigit = false := forall_iff_forall_mem.mp (by decide)
  have := hw c mem_cons_self
  rw [hall c hmem] at this
  cases this

theorem parseScalar_plainText {neg : Bool} {part : Str} (hne : whole ≠ []) (hw : ∀ c ∈ whole, c.isDigit = true)
    (hp : ∀ c ∈ part, c.isDigit = true) : parseScalar (plainText neg whole part) = plainScalar (plainText neg whole part) :=
  parseScalar_number (plainText_ne hne hw).1 (isNumberChar_plainText hw hp) (plainText_ne hne hw).2

theorem parseScalar_int (i : I64) : parseScalar (Fmt.signText i ++ Nat.toDigits 10 i.val.natAbs) = .int i := by
  have hparse := parseI64_text i
  rw [signText_eq_plainText] at hparse ⊢
  rw [parseScalar_plainText Nat.toDigits_ne_nil (isDigit_toDigits _) (by simp), plainScalar, hparse]

theorem parseScalar_uint (u : U64) :
    parseScalar (Nat.toDigits 10 u.val) = if h : u.val < 2 ^ 63 then .int (u.toI64 h) else .uint u := by
  have hplain : parseScalar (Nat.toDigits 10 u.val) = plainScalar (Nat.toDigits 10 u.val) := by
    rw [toDigits_eq_plain]
    exact parseScalar_plainText Nat.toDigits_ne_nil (isDigit_toDigits _) (by simp)
  rw [hplain, plainScalar, parseI64_toDigits]
  by_cases h : u.val < 2 ^ 63
  · simp only [dif_pos h]
  · simp only [dif_neg h, parseU64_toDigits]

/-- An integer that is also a float is read as the first of `Int`, `UInt` and `Float` that holds it. -/
theorem plainScalar_integer {neg : Bool} {f : F64} (hne : whole ≠ []) (hw : ∀ c ∈ whole, c.isDigit = true)
    (hf : parseF64 (plainText neg whole []) = some f) :
    plainScalar (plainText neg whole []) = (integerValue (shownInteger (plainText neg whole []))).getD (.float f) := by
  have hshown : shownInteger (plainText neg whole []) =
      if neg then -(Nat.ofDigitChars 10 whole 0 : Int) else (Nat.ofDigitChars 10 whole 0 : Int) := by
    rw [shownInteger, splitSign_plainText neg [] hne hw]
    simp
  rw [plainScalar, parseI64_plainText hne hw, parseU64_plainText hne hw, hf, integerValue, hshown]
  generalize Nat.ofDigitChars 10 whole 0 = n
  cases hofi : I64.ofInt? (if neg then -(n : Int) else (n : Int)) with
  | some i => rfl
  | none =>
    cases neg with
    | true =>
      -- a negative number out of the range of `i64` is in that of no integer type
      have hlt : ¬(0 : Int) ≤ -(n : Int) := by
        intro hle
        rw [I64.ofInt?, dif_pos (by omega)] at hofi
        cases hofi
      simp only [if_true, if_neg hlt, Option.getD_none]
    | false =>
      simp only [Bool.false_eq_true, if_false, Int.toNat_natCast]
      cases U64.ofNat? n <;> rfl

/-- A finite float is read back from its text, as the integer it shows if it shows one. -/
theorem parseScalar_float (hD : D.PointsFractions) {f : F64} (hf : f.isFinite = true) :
    parseScalar (D.toText f) = readBackFloat D f := by
  obtain ⟨neg, whole, part, htext, hne, hw, hp⟩ := D.plain f hf
  have hfloat : parseF64 (D.toText f) = some f := D.inverse f hf
  have hpoint : part ≠ [] ↔ f.isIntegral = false := by rw [← hD f hf, htext, mem_plainText_point hw]
  have hscalar : parseScalar (D.toText f) = plainScalar (D.toText f) := by
    rw [htext]
    exact parseScalar_plainText hne hw hp
  rw [hscalar, readBackFloat]
  by_cases hpe : part = []
  · have hint : f.isIntegral = true := by simpa [hpe] using hpoint
    subst hpe
    rw [if_pos hint, htext, plainScalar_integer hne hw (by rw [← htext]; exact hfloat)]
  · have hmem : '.' ∈ D.toText f := by
      rw [htext, mem_plainText_point hw]
      exact hpe
    rw [plainScalar, (parseInt_of_point hmem).1, (parseInt_of_point hmem).2, hfloat, hpoint.mp hpe]
    rfl

/-! ## What the encoder writes -/

/-- A scalar's text. -/
def scalarText (D : FloatDisplay binary64) (v : Value) : Str := writeScalar D [] v

theorem writeScalar_eq (D : F64Display) (out : Str) (v : Value) : writeScalar D out v = out ++ scalarText D v := by
  cases v with
  | int i => simp [scalarText, writeScalar, writeI64_eq]
  | uint u => simp [scalarText, writeScalar, writeU64_eq]
  | float f => rw [scalarText, writeScalar, writeScalar, writeF64_eq]
  | str s =>
    simp only [scalarText, writeScalar, writeQuoted_eq]
    split <;> simp
  | bytes b => simp [scalarText, writeScalar, writeQuoted_eq]
  | _ => rfl

/-- A container with something in it, which is written as a block of its own. -/
def isNested : Value → Bool
  | .array (_ :: _) => true
  | .object (_ :: _) => true
  | _ => false

/-- The text of a value that is not nested, where it follows a marker. -/
def inlineText (D : FloatDisplay binary64) : Value → Str
  | .array _ => "[]".toList
  | .object _ => "\x7b\x7d".toList
  | v => scalarText D v

/-- What follows a marker on its line. -/
def markerText (D : FloatDisplay binary64) (v : Value) : Str := if isNested v then [] else ' ' :: inlineText D v

/-- The lines that follow a marker's line; `block` are those of the value as a block. -/
def childLines (block : Nat → List Line) (v : Value) (indent : Nat) : List Line :=
  if isNested v then block (indent + 2) else []

mutual

/-- The lines of a value as a block. -/
def blockLines (D : FloatDisplay binary64) : Value → Nat → List Line
  | .object (e :: o), indent => entriesLines D (e :: o) indent
  | .array (v :: a), indent => itemsLines D (v :: a) indent
  | v, indent => [(indent, scalarText D v)]

def entriesLines (D : FloatDisplay binary64) : List (Str × Value) → Nat → List Line
  | [], _ => []
  | (k, v) :: o, indent =>
    (indent, stringText k ++ ':' :: markerText D v) :: (childLines (blockLines D v) v indent ++ entriesLines D o indent)

def itemsLines (D : FloatDisplay binary64) : List Value → Nat → List Line
  | [], _ => []
  | v :: a, indent =>
    (indent, '-' :: markerText D v) :: (childLines (blockLines D v) v indent ++ itemsLines D a indent)

end

/-- A block writer appends the text of the lines. -/
def WritesLines (block : Str → Nat → Str) (ls : Nat → List Line) : Prop :=
  ∀ out indent, block out indent = out ++ (ls indent).flatMap lineText

/-- The rest of a marker's line, and the lines below it. -/
theorem writeAfterMarker_eq (h : WritesLines (writeBlock D v) (blockLines D v)) (out : Str) (indent : Nat) :
    writeAfterMarker D (writeBlock D v) out v indent =
      out ++ markerText D v ++ ['\n'] ++ (childLines (blockLines D v) v indent).flatMap lineText := by
  cases v with
  | array a =>
    cases a with
    | nil => simp [writeAfterMarker, markerText, childLines, isNested, inlineText]
    | cons w a => simp [writeAfterMarker, markerText, childLines, isNested, h _ (indent + 2)]
  | object o =>
    cases o with
    | nil => simp [writeAfterMarker, markerText, childLines, isNested, inlineText]
    | cons e o => simp [writeAfterMarker, markerText, childLines, isNested, h _ (indent + 2)]
  | _ => simp [writeAfterMarker, markerText, childLines, isNested, inlineText, writeScalar_eq D (out ++ [' '])]

theorem writeEntries_eq {o : Object} (ih : ∀ e ∈ o, WritesLines (writeBlock D e.2) (blockLines D e.2)) :
    WritesLines (writeEntries D o) (entriesLines D o) := by
  intro out indent
  induction o generalizing out with
  | nil => simp [writeEntries, entriesLines]
  | cons e o ihl =>
    obtain ⟨k, v⟩ := e
    rw [writeEntries, ihl (forall_mem_cons.mp ih).2, writeAfterMarker_eq (ih _ mem_cons_self), writeKey_eq, entriesLines]
    simp [lineText, pad]

theorem writeItems_eq {a : List Value} (ih : ∀ v ∈ a, WritesLines (writeBlock D v) (blockLines D v)) :
    WritesLines (writeItems D a) (itemsLines D a) := by
  intro out indent
  induction a generalizing out with
  | nil => simp [writeItems, itemsLines]
  | cons v a ihl =>
    rw [writeItems, ihl (forall_mem_cons.mp ih).2, writeAfterMarker_eq (ih _ mem_cons_self), itemsLines]
    simp [lineText, pad]

theorem writeBlock_eq : WritesLines (writeBlock D v) (blockLines D v) := by
  have hscalar : ∀ (w : Value) (out : Str) (indent : Nat),
      writeScalar D (pad out indent) w ++ ['\n'] = out ++ [(indent, scalarText D w)].flatMap lineText := by
    intro w out indent
    rw [writeScalar_eq]
    simp [pad, lineText]
  induction v using Value.ind with
  | array a ih =>
    cases a with
    | nil => exact hscalar _
    | cons v a => exact writeItems_eq ih
  | object o ih =>
    cases o with
    | nil => exact hscalar _
    | cons e o => exact writeEntries_eq ih
  | _ => exact hscalar _

/-- A document is the text of its lines. -/
theorem encode_eq_lines : encode D v = (blockLines D v 0).flatMap lineText := by
  rw [encode, writeBlock_eq [] 0, nil_append]

/-! ## The contents are clean -/

theorem clean_of_plain (h : PlainDecimal s) : Clean s := by
  obtain ⟨neg, whole, part, rfl, hne, hw, hp⟩ := h
  exact clean_number (plainText_ne hne hw).1 (isNumberChar_plainText hw hp) (plainText_ne hne hw).2

theorem clean_word (h : s ∈ ["null".toList, "true".toList, "false".toList, "[]".toList, "\x7b\x7d".toList]) : Clean s := by
  simp only [mem_cons, not_mem_nil, or_false] at h
  rcases h with rfl | rfl | rfl | rfl | rfl
  all_goals exact ⟨by decide, ⟨_, _, rfl, by decide, by decide⟩, ⟨_, _, (dropLast_concat_getLast (by decide)).symm, by decide⟩, by decide⟩

theorem scalarText_str (D : F64Display) (s : Str) : scalarText D (.str s) = stringText s := by
  rw [scalarText, writeScalar, writeQuoted_eq]
  rfl

/-- The text of a scalar that is no string is a word or a number. -/
theorem scalarText_cases (h : v.isPlain = true) (hstr : ∀ s, v ≠ .str s) :
    scalarText D v ∈ ["null".toList, "true".toList, "false".toList] ∨ PlainDecimal (scalarText D v) := by
  cases v with
  | null | array a | object o => exact .inl mem_cons_self
  | bool b =>
    cases b with
    | true => exact .inl (by decide : "true".toList ∈ _)
    | false => exact .inl (by decide : "false".toList ∈ _)
  | int i =>
    rw [scalarText, writeScalar, writeI64_eq, signText_eq_plainText]
    exact .inr ⟨_, _, _, rfl, Nat.toDigits_ne_nil, isDigit_toDigits _, by simp⟩
  | uint u =>
    rw [scalarText, writeScalar, writeU64_eq, toDigits_eq_plain]
    exact .inr ⟨_, _, _, rfl, Nat.toDigits_ne_nil, isDigit_toDigits _, by simp⟩
  | float f =>
    have hf : f.isFinite = true := h
    rw [scalarText, writeScalar, Fmt.writeF64, if_pos hf]
    exact .inr (D.plain f hf)
  | str s => exact absurd rfl (hstr s)
  | bytes b => cases h

theorem clean_scalarText (h : v.isPlain = true) : Clean (scalarText D v) := by
  by_cases hstr : ∃ s, v = .str s
  · obtain ⟨s, rfl⟩ := hstr
    rw [scalarText_str]
    exact clean_stringText
  · rcases scalarText_cases (D := D) h (not_exists.mp hstr) with hword | hnum
    · exact clean_word (mem_append_left [_, _] hword)
    · exact clean_of_plain hnum

theorem clean_inlineText (h : v.isPlain = true) : Clean (inlineText D v) := by
  cases v with
  | array a => exact clean_word (s := "[]".toList) (by decide)
  | object o => exact clean_word (s := "\x7b\x7d".toList) (by decide)
  | _ => exact clean_scalarText h

theorem markerText_cases (h : v.isPlain = true) : markerText D v = [] ∨ ∃ t, markerText D v = ' ' :: t ∧ Clean t := by
  rw [markerText]
  cases isNested v with
  | true => exact .inl rfl
  | false => exact .inr ⟨_, rfl, clean_inlineText h⟩

theorem mem_childLines {block : Nat → List Line} {indent : Nat} {l : Line} (h : l ∈ childLines block v indent) :
    l ∈ block (indent + 2) := by
  rw [childLines] at h
  split at h
  · exact h
  · exact absurd h not_mem_nil

theorem clean_itemsLines {a : List Value} (hp : ∀ v ∈ a, v.isPlain = true)
    (ih : ∀ v ∈ a, ∀ indent, ∀ l ∈ blockLines D v indent, Clean l.2) (indent : Nat) : ∀ l ∈ itemsLines D a indent, Clean l.2 := by
  induction a with
  | nil => simp [itemsLines]
  | cons v a ihl =>
    intro l hl
    rw [itemsLines, mem_cons, mem_append] at hl
    rcases hl with rfl | hl | hl
    · exact Clean.dash (markerText_cases (hp v mem_cons_self))
    · exact ih v mem_cons_self _ l (mem_childLines hl)
    · exact ihl (forall_mem_cons.mp hp).2 (forall_mem_cons.mp ih).2 l hl

theorem clean_entriesLines {o : Object} (hp : ∀ e ∈ o, e.2.isPlain = true)
    (ih : ∀ e ∈ o, ∀ indent, ∀ l ∈ blockLines D e.2 indent, Clean l.2) (indent : Nat) :
    ∀ l ∈ entriesLines D o indent, Clean l.2 := by
  induction o with
  | nil => simp [entriesLines]
  | cons e o ihl =>
    obtain ⟨k, v⟩ := e
    intro l hl
    rw [entriesLines, mem_cons, mem_append] at hl
    rcases hl with rfl | hl | hl
    · exact Clean.marker clean_stringText (markerText_cases (hp (k, v) mem_cons_self))
    · exact ih (k, v) mem_cons_self _ l (mem_childLines hl)
    · exact ihl (forall_mem_cons.mp hp).2 (forall_mem_cons.mp ih).2 l hl

theorem clean_blockLines (h : v.isPlain = true) (indent : Nat) : ∀ l ∈ blockLines D v indent, Clean l.2 := by
  have hone : ∀ w : Value, w.isPlain = true → ∀ n, ∀ l ∈ [((n, scalarText D w) : Line)], Clean l.2 := by
    intro w hw n l hl
    rw [mem_singleton.mp hl]
    exact clean_scalarText hw
  induction v using Value.ind generalizing indent with
  | array a ih =>
    have hall := Value.allPlain_iff.mp h
    cases a with
    | nil => exact hone _ h indent
    | cons v a => exact clean_itemsLines hall (fun w hw n => ih w hw (hall w hw) n) indent
  | object o ih =>
    have hall := Value.entriesPlain_iff.mp h
    cases o with
    | nil => exact hone _ h indent
    | cons e o => exact clean_entriesLines hall (fun e he n => ih e he (hall e he) n) indent
  | _ => exact hone _ h indent

/-- Preprocessing a document gives its lines. -/
theorem preprocess_encode (h : v.isPlain = true) : preprocess (encode D v) = blockLines D v 0 := by
  rw [encode_eq_lines, preprocess_lineText (clean_blockLines h 0)]

/-- A value that is not nested is read back from what follows its marker. -/
theorem parseScalar_inlineText (hD : D.PointsFractions) (h : v.isPlain = true) (hn : isNested v = false) :
    parseScalar (inlineText D v) = readBack D v := by
  cases v with
  | null => exact (rfl : parseScalar "null".toList = .null)
  | bool b =>
    cases b with
    | true => exact (rfl : parseScalar "true".toList = .bool true)
    | false => exact (rfl : parseScalar "false".toList = .bool false)
  | int i =>
    rw [inlineText, scalarText, writeScalar, writeI64_eq, nil_append, parseScalar_int]
    · rfl
    all_goals simp
  | uint u =>
    rw [inlineText, scalarText, writeScalar, writeU64_eq, nil_append, parseScalar_uint]
    · rfl
    all_goals simp
  | float f =>
    have hf : f.isFinite = true := h
    rw [inlineText, scalarText, writeScalar, Fmt.writeF64, if_pos hf, nil_append, parseScalar_float hD hf]
    · rfl
    all_goals simp
  | str s =>
    rw [show inlineText D (.str s) = stringText s from scalarText_str D s, parseScalar_stringText]
    rfl
  | bytes b => cases h
  | array a =>
    cases a with
    | nil => exact (rfl : parseScalar "[]".toList = .array [])
    | cons w a => cases hn
  | object o =>
    cases o with
    | nil => exact (rfl : parseScalar "\x7b\x7d".toList = .object [])
    | cons e o => cases hn

end Yaml

end Ferroly
