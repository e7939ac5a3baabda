import Ferroly.Lemmas.JsonWrite
import Ferroly.Lib.Utf8Cut

/-!
# What the JSON parser reads

The parser inverts the encoder: on the text of a value, whatever follows, it stops right after it with the value it wrote, or
rejects it for its nesting.
-/

namespace Ferroly.Json

open List Run Value

variable {rest : Bytes} {c : Char} {D : F64Display} {d fuel : Nat} {part whole : Str} {b close : UInt8} {v : Value}

/-! ## Steps of the parser -/

variable (p : Parser)

@[simp] theorem peek_apply : peek p = .ok (p.rest.head?, p) := rfl

@[simp] theorem bump_apply : bump p = .ok (p.rest.head?, { p with rest := p.rest.tail }) := rfl

@[simp] theorem skipWs_apply : skipWs p = .ok ((), { p with rest := p.rest.dropWhile isWs }) := rfl

@[simp] theorem takeWhile_apply (q : UInt8 → Bool) (p : Parser) :
    takeWhile q p = .ok (p.rest.takeWhile q, { p with rest := p.rest.dropWhile q }) := rfl

theorem skipWs_cons (h : isWs b = false) (r : Bytes) (d : Nat) : skipWs ⟨b :: r, d⟩ = .ok ((), ⟨b :: r, d⟩) := by
  simp [h]

@[simp] theorem expect_cons (b : UInt8) (r : Bytes) (d : Nat) : expect b ⟨b :: r, d⟩ = .ok ((), ⟨r, d⟩) := by
  simp [expect, bind_apply]

variable (s : Str)

@[simp] theorem slice_utf8 : slice (utf8 s) = pure s := by
  simp [slice]

variable {r : Bytes}

theorem leave_succ : leave ⟨r, d + 1⟩ = .ok ((), ⟨r, d⟩) := by
  simp [leave]

/-! ## Strings -/

/-- The digits of an escape, read back. -/
theorem readHex_digits (v w : Nat) (r : Bytes) (d : Nat) (h : parseDigitsFrom 16 v s = some w) :
    readHex s.length v ⟨utf8 s ++ r, d⟩ = .ok (w, ⟨r, d⟩) := by
  induction s generalizing v with
  | nil =>
    cases h
    rfl
  | cons c s ih =>
    simp only [parseDigitsFrom] at h
    cases hd : digitVal 16 c with
    | none => simp [hd] at h
    | some e =>
      have hc := toNat_of_digitVal hd
      simp only [hd] at h
      have hb : Char.ofNat (byte c).toNat = c := by rw [byte_toNat hc, Char.ofNat_toNat]
      simp only [length_cons, readHex, utf8_cons_ascii hc, cons_append, bind_apply, bump_apply, head?_cons, hb, hd]
      exact ih _ h

theorem charFromU32_toNat (c : Char) : charFromU32 c.toNat = some c := by
  unfold charFromU32
  split
  · rw [Char.ofNat_toNat]
  next h => exact absurd c.valid h

theorem parseEscape_u (r : Bytes) (d : Nat) : parseEscape ⟨byte 'u' :: r, d⟩ = parseUnicodeEscape ⟨r, d⟩ := rfl

/-- The digits of a control character. -/
theorem hex4_control : ∀ n < 0x20, parseDigitsFrom 16 0 (hex4 n) = some n ∧ (hex4 n).length = 4 := by
  decide

/-- A control character written by its number. -/
theorem parseEscape_hex4 (hc : c.toNat < 0x20) (r : Bytes) (d : Nat) :
    parseEscape ⟨utf8 ('u' :: hex4 c.toNat) ++ r, d⟩ = .ok (c, ⟨r, d⟩) := by
  obtain ⟨h1, h2⟩ := hex4_control _ hc
  have hr := readHex_digits (hex4 c.toNat) 0 c.toNat r d h1
  rw [h2] at hr
  have hn : ¬(0xD800 ≤ c.toNat ∧ c.toNat ≤ 0xDBFF) := by omega
  rw [utf8_cons_ascii (c := 'u') (by decide), cons_append, parseEscape_u]
  unfold parseUnicodeEscape
  rw [readHex4, bind_of_ok hr, if_neg hn, charFromU32_toNat]
  rfl

/-- What the parser asks of a writer of strings: an escape stands for its character, quotes and backslashes are escaped. -/
structure Escapes (esc : Char → Option Str) : Prop where
  parse : ∀ {c e}, esc c = some e → ∃ t, e = '\\' :: t ∧ ∀ r d, parseEscape ⟨utf8 t ++ r, d⟩ = .ok (c, ⟨r, d⟩)
  plain : ∀ {c}, esc c = none → c ≠ '"' ∧ c ≠ '\\'

theorem escapes_escapeOf : Escapes escapeOf := by
  refine ⟨fun {c e} h => ?_, fun {c} h => ?_⟩
  · unfold escapeOf at h
    -- the seven escapes of one letter
    iterate 7
      split at h
      · cases h; subst_vars; exact ⟨_, rfl, fun _ _ => rfl⟩
    split at h
    next hc =>
      cases h
      exact ⟨_, rfl, parseEscape_hex4 hc⟩
    · cases h
  · constructor <;> rintro rfl <;> simp [escapeOf] at h

variable {t : Str}

section Strings

variable {esc : Char → Option Str} (H : Escapes esc)

/-- Text with the escapes of a writer. -/
def escapedBy (esc : Char → Option Str) (s : Str) : Str := s.flatMap fun c => (esc c).getD [c]

/-- A string in quotes, with the escapes of a writer. -/
def quoteBy (esc : Char → Option Str) (s : Str) : Str := '"' :: (escapedBy esc s ++ ['"'])

theorem escapedBy_none (h : esc c = none) (t : Str) :
    utf8 (escapedBy esc (c :: t)) = String.utf8EncodeChar c ++ utf8 (escapedBy esc t) := by
  simp [escapedBy, h, utf8_cons]

theorem escapedBy_some {e : Str} (h : esc c = some ('\\' :: e)) (t : Str) :
    utf8 (escapedBy esc (c :: t)) = byte '\\' :: (utf8 e ++ utf8 (escapedBy esc t)) := by
  simp [escapedBy, h, utf8_cons_ascii (c := '\\') (by decide)]

include H

/-- A character that is not escaped has clean bytes only. -/
theorem isClean_of_escapes (h : esc c = none) : ∀ b ∈ String.utf8EncodeChar c, isClean b = true := by
  intro b hb
  have h1 : b ≠ byte '"' := ne_byte_of_mem hb (by decide) (H.plain h).1
  have h2 : b ≠ byte '\\' := ne_byte_of_mem hb (by decide) (H.plain h).2
  simp [isClean, h1, h2]

/-- A clean character at the front joins the run. -/
theorem parseStringEscapedLoop_clean (h : esc c = none) (fuel : Nat) (s : Str) (run r : Bytes) (d : Nat) :
    parseStringEscapedLoop (fuel + 1) s run ⟨String.utf8EncodeChar c ++ r, d⟩ =
      parseStringEscapedLoop (fuel + 1) s (run ++ String.utf8EncodeChar c) ⟨r, d⟩ := by
  have hc := isClean_of_escapes H h
  simp only [parseStringEscapedLoop, bind_apply, takeWhile_apply, takeWhile_append_of_pos hc,
    dropWhile_append_of_pos hc, append_assoc]

/-- The slow path reads the rest of a string the encoder wrote, after the text `s` and the clean run `u`. -/
theorem parseStringEscapedLoop_escaped (t s u : Str) (fuel : Nat) (r : Bytes) (d : Nat) (hf : t.length < fuel) :
    parseStringEscapedLoop fuel s (utf8 u) ⟨utf8 (escapedBy esc t) ++ byte '"' :: r, d⟩ = .ok (s ++ u ++ t, ⟨r, d⟩) := by
  induction t generalizing s u fuel with
  | nil =>
    rcases fuel with _ | fuel
    · simp at hf
    have hq : isClean (byte '"') = false := by decide
    simp [escapedBy, parseStringEscapedLoop, bind_apply, hq]
  | cons c t ih =>
    rcases fuel with _ | fuel
    · simp at hf
    simp only [length_cons] at hf
    cases he : esc c with
    | none =>
      have hrun : utf8 u ++ String.utf8EncodeChar c = utf8 (u ++ [c]) := by simp [utf8_cons]
      rw [escapedBy_none he, append_assoc, parseStringEscapedLoop_clean H he, hrun, ih _ _ _ (by omega)]
      simp
    | some e =>
      obtain ⟨e', rfl, hesc⟩ := H.parse he
      have hq : isClean (byte '\\') = false := by decide
      have hne : byte '\\' ≠ byte '"' := by decide
      have hnext := ih (s ++ u ++ [c]) [] fuel (by omega)
      rw [escapedBy_some he, cons_append, append_assoc]
      simp only [parseStringEscapedLoop, bind_apply, takeWhile_apply, takeWhile_cons, dropWhile_cons, hq,
        Bool.false_eq_true, if_false, bump_apply, head?_cons, tail_cons, append_nil, slice_utf8,
        pure_apply, hne, hesc]
      rw [utf8_nil] at hnext
      rw [hnext]
      simp

/-- Text without escapes is clean. -/
theorem isClean_utf8 (h : ∀ c ∈ t, esc c = none) : ∀ b ∈ utf8 t, isClean b = true := by
  intro b hb
  simp only [utf8, mem_flatMap] at hb
  obtain ⟨c, hc, hb⟩ := hb
  exact isClean_of_escapes H (h c hc) b hb

theorem length_le_escaped : s.length ≤ (escapedBy esc s).length := by
  induction s with
  | nil => simp
  | cons c s ih =>
    have hc : 0 < ((esc c).getD [c]).length := by
      cases he : esc c with
      | none => simp
      | some e =>
        obtain ⟨t, rfl, -⟩ := H.parse he
        simp
    rw [escapedBy] at ih ⊢
    rw [flatMap_cons, length_append, length_cons]
    omega

/-- A quoted string is read back after its opening quote: on the fast path if nothing is escaped, from the first escape on by the slow
one otherwise. -/
theorem parseStringBody_quote (r : Bytes) (d : Nat) :
    parseStringBody ⟨utf8 (escapedBy esc s) ++ byte '"' :: r, d⟩ = .ok (s, ⟨r, d⟩) := by
  obtain ⟨u, t, rfl, hu, ht⟩ : ∃ u t, s = u ++ t ∧ (∀ c ∈ u, esc c = none) ∧ ∀ c ∈ t.head?, esc c ≠ none := by
    refine ⟨s.takeWhile (fun c => (esc c).isNone), s.dropWhile (fun c => (esc c).isNone),
      (takeWhile_append_dropWhile).symm, fun c hc => ?_, fun c hc => ?_⟩
    · simpa using mem_takeWhile_imp hc
    · have := head?_dropWhile_not (fun c => (esc c).isNone) s
      rw [hc] at this
      simpa [Option.isSome_iff_ne_none] using this
  have htext : utf8 (escapedBy esc (u ++ t)) = utf8 u ++ utf8 (escapedBy esc t) := by
    have : escapedBy esc u = u := by
      rw [escapedBy, flatMap_congr (g := fun c => [c]) (fun c hc => by simp [hu c hc])]
      simp
    rw [escapedBy, flatMap_append, utf8_append]
    exact congrArg (utf8 · ++ _) this
  have hclean := isClean_utf8 H hu
  rw [htext, append_assoc]
  simp only [parseStringBody, bind_apply, takeWhile_apply, takeWhile_append_of_pos hclean, dropWhile_append_of_pos hclean]
  cases t with
  | nil =>
    have hq : isClean (byte '"') = false := by decide
    simp [escapedBy, hq, bind_apply]
  | cons c t =>
    cases he : esc c with
    | none => exact absurd he (ht c rfl)
    | some e =>
      obtain ⟨e', rfl, -⟩ := H.parse he
      have hq : isClean (byte '\\') = false := by decide
      have hlen := Nat.le_trans (length_le_escaped (c :: t) H) (length_le_utf8 _)
      have hloop := parseStringEscapedLoop_escaped H (c :: t) [] u
        ((utf8 (escapedBy esc (c :: t)) ++ byte '"' :: r).length + 1) r d (by
          rw [length_append]
          omega)
      rw [escapedBy_some he] at hloop ⊢
      simp only [cons_append, takeWhile_cons, hq, Bool.false_eq_true, if_false, append_nil]
      exact hloop

theorem parseString_quote : parseString ⟨utf8 (quoteBy esc s) ++ r, d⟩ = .ok (s, ⟨r, d⟩) := by
  have hq : utf8 (quoteBy esc s) ++ r = byte '"' :: (utf8 (escapedBy esc s) ++ byte '"' :: r) := by
    simp [quoteBy, utf8_cons_ascii (c := '"') (by decide)]
  rw [hq, parseString, bind_of_ok (expect_cons _ _ _), parseStringBody_quote _ H]

end Strings

/-! ## Numbers -/

/-- What may follow a number: nothing that would continue it. -/
def Stop (rest : Bytes) : Prop := ∀ b ∈ rest.head?, isNumberByte b = false

theorem stop_nil : Stop [] := by
  intro b hb
  cases hb

theorem stop_cons (r : Bytes) (h : isNumberByte b = false) : Stop (b :: r) := by
  intro c hc
  cases hc
  exact h

theorem takeWhile_stop {q : UInt8 → Bool} {bs : Bytes} (hb : ∀ b ∈ bs, q b = true) (hr : ∀ b ∈ rest.head?, q b = false) :
    (bs ++ rest).takeWhile q = bs ∧ (bs ++ rest).dropWhile q = rest := by
  rw [takeWhile_append_of_pos hb, dropWhile_append_of_pos hb]
  cases rest with
  | nil => simp
  | cons b r => simp [hr b rfl]

/-- A digit as a byte. -/
theorem byte_isDigit (h : c.isDigit = true) : c.toNat < 0x80 ∧ isAsciiDigit (byte c) = true := by
  have hn := isDigit_toNat h
  have hc : c.toNat < 0x80 := by omega
  refine ⟨hc, ?_⟩
  simp only [isAsciiDigit, byte_toNat hc, Bool.and_eq_true, decide_eq_true_eq]
  exact hn

theorem ne_of_isAsciiDigit (h : isAsciiDigit b = true) (q : UInt8) (hq : isAsciiDigit q = false) : b ≠ q := by
  rintro rfl
  rw [h] at hq
  cases hq

theorem not_isWs_of_digit (h : isAsciiDigit b = true) : isWs b = false := by
  have hne := ne_of_isAsciiDigit h
  simp [isWs, hne (byte ' ') (by decide), hne (byte '\t') (by decide), hne (byte '\n') (by decide), hne (byte '\r') (by decide)]

theorem not_isFloatByte_of_digit (h : isAsciiDigit b = true) : isFloatByte b = false := by
  have hne := ne_of_isAsciiDigit h
  simp [isFloatByte, hne (byte '.') (by decide), hne (byte 'e') (by decide), hne (byte 'E') (by decide),
    hne (byte '+') (by decide), hne (byte '-') (by decide)]

/-- The bytes of a number after its sign. -/
def numberBody (whole part : Str) : Bytes := (whole ++ (if part = [] then [] else '.' :: part)).map byte

theorem utf8_plainText (neg : Bool) (hw : ∀ c ∈ whole, c.isDigit) (hp : ∀ c ∈ part, c.isDigit) :
    utf8 (plainText neg whole part) = (if neg then [byte '-'] else []) ++ numberBody whole part := by
  rw [utf8_ascii]
  · cases neg <;> simp [plainText, numberBody]
  · intro c hc
    have hd : ∀ t : Str, (∀ c ∈ t, c.isDigit = true) → c ∈ t → c.toNat < 0x80 := fun t ht hct => (byte_isDigit (ht c hct)).1
    simp only [plainText, mem_append] at hc
    rcases hc with (hc | hc) | hc
    · cases neg <;> simp at hc
      subst hc
      decide
    · exact hd whole hw hc
    · split at hc
      · cases hc
      · rcases mem_cons.mp hc with rfl | hc
        · decide
        · exact hd part hp hc

theorem isNumberByte_numberBody (hw : ∀ c ∈ whole, c.isDigit) (hp : ∀ c ∈ part, c.isDigit) :
    ∀ b ∈ numberBody whole part, isNumberByte b = true := by
  intro b hb
  simp only [numberBody, mem_map, mem_append] at hb
  obtain ⟨c, hc | hc, rfl⟩ := hb
  · simp [isNumberByte, (byte_isDigit (hw c hc)).2]
  · split at hc
    · cases hc
    · rcases mem_cons.mp hc with rfl | hc
      · decide
      · simp [isNumberByte, (byte_isDigit (hp c hc)).2]

theorem any_isFloatByte_numberBody (part : Str) (hw : ∀ c ∈ whole, c.isDigit) :
    (numberBody whole part).any isFloatByte = decide (part ≠ []) := by
  have h1 : (whole.map byte).any isFloatByte = false := by
    rw [any_eq_false]
    intro b hb
    obtain ⟨c, hc, rfl⟩ := mem_map.mp hb
    simp [not_isFloatByte_of_digit (byte_isDigit (hw c hc)).2]
  rw [numberBody, map_append, any_append, h1]
  cases part with
  | nil => rfl
  | cons c part =>
    have hdot : isFloatByte (byte '.') = true := by decide
    simp [hdot]

/-- Plain decimal text is read as the number it stands for; a point makes it a float. -/
theorem parseNumber_plainText (neg : Bool) (hne : whole ≠ []) (hw : ∀ c ∈ whole, c.isDigit) (hp : ∀ c ∈ part, c.isDigit)
    (hr : Stop rest) (d : Nat) :
    parseNumber ⟨utf8 (plainText neg whole part) ++ rest, d⟩ =
      lift (numberValue (decide (part ≠ [])) (plainText neg whole part)) ⟨rest, d⟩ := by
  have htext := utf8_plainText neg hw hp
  have hslice : slice ((if neg then [byte '-'] else []) ++ numberBody whole part) = pure (plainText neg whole part) := by
    rw [← htext, slice_utf8]
  obtain ⟨ht, hd⟩ := takeWhile_stop (isNumberByte_numberBody hw hp) hr
  have hany := any_isFloatByte_numberBody part hw
  rw [htext]
  cases neg with
  | true =>
    simp only [if_true] at hslice ⊢
    simp only [parseNumber, takeSign, bind_apply, peek_apply, cons_append, nil_append, head?_cons,
      if_true, bump_apply, tail_cons, pure_apply, takeWhile_apply, ht, hd, hany]
    rw [cons_append, nil_append] at hslice
    rw [hslice, pure_apply]
  | false =>
    obtain ⟨c, w, rfl⟩ := exists_cons_of_ne_nil hne
    have hc : (numberBody (c :: w) part ++ rest).head? ≠ some (byte '-') := by
      have := byte_isDigit (hw c (by simp))
      simp only [numberBody, cons_append, map_cons, head?_cons, ne_eq, Option.some.injEq]
      intro h
      rw [h] at this
      exact absurd this.2 (by decide)
    simp only [Bool.false_eq_true, if_false, nil_append] at hslice ⊢
    simp only [parseNumber, takeSign, bind_apply, peek_apply, if_neg hc, pure_apply, takeWhile_apply, ht, hd,
      hslice, hany, nil_append]

/-- A minus sign or a digit starts a number. -/
theorem parseValueFuel_number (h : b = byte '-' ∨ isAsciiDigit b = true) :
    parseValueFuel (fuel + 1) ⟨b :: r, d⟩ = parseNumber ⟨b :: r, d⟩ := by
  rcases h with rfl | h
  · rfl
  · have hne := ne_of_isAsciiDigit h
    have hd : b = byte '-' ∨ isAsciiDigit b = true := .inr h
    have ht : ¬(b = byte 't' ∨ b = byte 'f') := by
      rintro (hb | hb)
      · exact hne _ (by decide) hb
      · exact hne _ (by decide) hb
    simp only [parseValueFuel, bind_apply, skipWs_cons (not_isWs_of_digit h), peek_apply, head?_cons,
      if_neg (hne (byte '\x7b') (by decide)), if_neg (hne (byte '[') (by decide)), if_neg (hne (byte '"') (by decide)),
      if_neg ht, if_neg (hne (byte 'n') (by decide)), if_pos hd]

variable {neg : Bool}

theorem parseValueFuel_plainText (hne : whole ≠ []) (hw : ∀ c ∈ whole, c.isDigit) (hp : ∀ c ∈ part, c.isDigit) (hr : Stop rest) :
    parseValueFuel (fuel + 1) ⟨utf8 (plainText neg whole part) ++ rest, d⟩ =
      lift (numberValue (decide (part ≠ [])) (plainText neg whole part)) ⟨rest, d⟩ := by
  rw [← parseNumber_plainText neg hne hw hp hr, utf8_plainText neg hw hp]
  cases neg with
  | true => exact parseValueFuel_number (.inl rfl)
  | false =>
    obtain ⟨c, w, rfl⟩ := exists_cons_of_ne_nil hne
    exact parseValueFuel_number (.inr (byte_isDigit (hw c (by simp))).2)

/-- The text of a finite float in JSON has a point and reads back as the float. -/
theorem writeJsonF64_plain {f : F64} (hf : f.isFinite = true) :
    ∃ neg whole part, Fmt.writeJsonF64 D [] f = plainText neg whole part ∧ whole ≠ [] ∧ (∀ c ∈ whole, c.isDigit) ∧
      (∀ c ∈ part, c.isDigit) ∧ part ≠ [] ∧ parseF64 (plainText neg whole part) = some f := by
  have hdigit : ∀ c : Char, c.isDigit = true → Fmt.isFloatMark c = false := by
    intro c hc
    have hq : ∀ q : Char, q.isDigit = false → c ≠ q := fun q hq => ne_of_isDigit hc hq
    simp [Fmt.isFloatMark, hq '.' (by decide), hq 'e' (by decide), hq 'E' (by decide), hq 'n' (by decide), hq 'i' (by decide)]
  have htext : Fmt.writeJsonF64 D [] f =
      if !(D.toText f).any Fmt.isFloatMark then D.toText f ++ ".0".toList else D.toText f := by
    simp [Fmt.writeJsonF64, hf]
  rw [htext]
  exact pointed_plain D hf (by decide) (by decide) hdigit

/-! ## Containers -/

variable (message : String)

section Containers

variable {β ι : Type}

/-- What the parser makes of the text of an entry: it takes the entry in and stops after it, or fails with `e`. -/
def ReadsItem (item : β → P β) (take : β → ι → β) (text : ι → Str) (ok : ι → Bool) (e : CodecError) (d : Nat) (x : ι) : Prop :=
  ∀ acc rest, Stop rest → item acc ⟨utf8 (text x) ++ rest, d⟩ = if ok x then .ok (take acc x, ⟨rest, d⟩) else .error (.error e)

/-- The byte that ends a container is no white space, no comma and no part of a number. -/
def Closes (close : UInt8) : Prop := isWs close = false ∧ close ≠ byte ',' ∧ isNumberByte close = false

theorem closes_bracket : Closes (byte ']') := by
  refine ⟨?_, ?_, ?_⟩ <;> decide

theorem closes_brace : Closes (byte '\x7d') := by
  refine ⟨?_, ?_, ?_⟩ <;> decide

theorem utf8_joinComma_false (t : Str) (ts : List Str) :
    utf8 (joinComma false (t :: ts)) = byte ',' :: (utf8 t ++ utf8 (joinComma false ts)) := by
  simp [joinComma, sepText, utf8_cons_ascii (c := ',') (by decide)]

variable {take : β → ι → β}

/-- The loop over the entries: all of them are taken in, or the first that fails ends it. -/
theorem itemsLoop_join {item : β → P β} {text : ι → Str} {ok : ι → Bool} {e : CodecError} {x : ι} {xs : List ι}
    (hx : ∀ y ∈ x :: xs, ReadsItem item take text ok e d y) (hc : Closes close) (fuel : Nat) (hf : xs.length < fuel) (acc : β)
    (rest : Bytes) :
    itemsLoop close message item fuel acc ⟨utf8 (text x) ++ (utf8 (joinComma false (xs.map text)) ++ close :: rest), d⟩ =
      if (x :: xs).all ok then .ok ((x :: xs).foldl take acc, ⟨rest, d⟩) else .error (.error e) := by
  obtain ⟨hws, hcomma, hnum⟩ := hc
  induction xs generalizing x fuel acc with
  | nil =>
    rcases fuel with _ | fuel
    · simp at hf
    have hitem := hx x (by simp) acc (close :: rest) (stop_cons _ hnum)
    simp only [map_nil, joinComma, utf8_nil, nil_append, itemsLoop, bind_apply, hitem]
    cases hox : ok x with
    | false => simp [hox]
    | true => simp [hws, hcomma, hox]
  | cons y xs ih =>
    rcases fuel with _ | fuel
    · omega
    have hcommaStop : isNumberByte (byte ',') = false := by decide
    have hcommaWs : isWs (byte ',') = false := by decide
    have hitem := hx x (by simp) acc
      (byte ',' :: (utf8 (text y) ++ utf8 (joinComma false (xs.map text)) ++ close :: rest)) (stop_cons _ hcommaStop)
    have hnext := fun acc => ih (x := y) (forall_mem_cons.mp hx).2 fuel (by simp at hf; omega) acc
    rw [map_cons, utf8_joinComma_false, cons_append]
    simp only [itemsLoop, bind_apply, hitem]
    cases hox : ok x with
    | false => simp [hox]
    | true =>
      simp only [if_true, skipWs_apply, dropWhile_cons, hcommaWs, Bool.false_eq_true, if_false, bump_apply,
        head?_cons, tail_cons, append_assoc, hnext, all_cons, hox]
      rfl

/-- The first byte of an entry is neither white space nor the end of the container. -/
def StartsItem (close : UInt8) (t : Str) : Prop := ∃ b r, utf8 t = b :: r ∧ isWs b = false ∧ b ≠ close

theorem length_le_joinComma_false (ts : List Str) : ts.length ≤ (joinComma false ts).length := by
  induction ts with
  | nil => simp
  | cons t ts ih =>
    simp only [joinComma, sepText, Bool.false_eq_true, if_false, length_append, length_cons]
    omega

/-- The entries of a container up to its closing byte. -/
theorem items_join {item : β → P β} {text : ι → Str} {ok : ι → Bool} {e : CodecError} {xs : List ι}
    (hx : ∀ y ∈ xs, ReadsItem item take text ok e d y) (hs : ∀ y ∈ xs, StartsItem close (text y)) (hc : Closes close) (acc : β)
    (rest : Bytes) :
    items close message item acc ⟨utf8 (joinComma true (xs.map text)) ++ close :: rest, d⟩ =
      if xs.all ok then .ok (xs.foldl take acc, ⟨rest, d⟩) else .error (.error e) := by
  cases xs with
  | nil => simp [items, joinComma, bind_apply, hc.1]
  | cons x xs =>
    obtain ⟨b, r, hb, hbws, hbc⟩ := hs x (by simp)
    have hjoin : utf8 (joinComma true ((x :: xs).map text)) ++ close :: rest =
        utf8 (text x) ++ (utf8 (joinComma false (xs.map text)) ++ close :: rest) := by
      simp [joinComma, sepText]
    have hlen : xs.length ≤ (utf8 (joinComma false (xs.map text))).length := by
      have h1 := length_le_joinComma_false (xs.map text)
      have h2 := length_le_utf8 (joinComma false (xs.map text))
      rw [length_map] at h1
      omega
    have hloop := itemsLoop_join message hx hc ((utf8 (text x) ++ (utf8 (joinComma false (xs.map text)) ++ close :: rest)).length + 1)
      (by simp only [length_append]; omega) acc rest
    rw [hjoin, ← hloop]
    simp only [hb, items, bind_apply, cons_append, skipWs_cons hbws, peek_apply, head?_cons, Option.some.injEq, if_neg hbc, get_apply]

end Containers

/-! ## Values -/

theorem renderSeq_eq_map (D : F64Display) (a : List Value) : renderSeq D a = a.map (render D) := by
  induction a with
  | nil => rfl
  | cons v a ih => rw [renderSeq, ih, map_cons]

/-- The text of an entry of an object. -/
def entryText (D : FloatDisplay binary64) (e : Str × Value) : Str := quote e.1 ++ ':' :: render D e.2

theorem renderMap_eq_map (D : F64Display) (o : Object) : renderMap D o = o.map (entryText D) := by
  induction o with
  | nil => rfl
  | cons e o ih =>
    obtain ⟨k, v⟩ := e
    rw [renderMap, ih, map_cons, entryText]

theorem startsItem_of_head (hc : c.toNat < 0x80) (hws : isWs (byte c) = false) (hne : byte c ≠ close) :
    StartsItem close (c :: t) :=
  ⟨byte c, utf8 t, utf8_cons_ascii hc t, hws, hne⟩

theorem startsItem_plainText (hne : whole ≠ []) (hw : ∀ c ∈ whole, c.isDigit) : StartsItem (byte ']') (plainText neg whole part) := by
  cases neg with
  | true => exact startsItem_of_head (by decide) (by decide) (by decide)
  | false =>
    obtain ⟨c, w, rfl⟩ := exists_cons_of_ne_nil hne
    obtain ⟨hc, hd⟩ := byte_isDigit (hw c (by simp))
    exact startsItem_of_head hc (not_isWs_of_digit hd) (ne_of_isAsciiDigit hd _ (by decide))

/-- No value's text starts with white space or with a closing bracket. -/
theorem startsItem_render (D : F64Display) (hv : v.isPlain = true) : StartsItem (byte ']') (render D v) := by
  cases v with
  | null | str s | bytes b | array a | object o => exact startsItem_of_head (by decide) (by decide) (by decide)
  | bool b => cases b <;> exact startsItem_of_head (by decide) (by decide) (by decide)
  | int i =>
    rw [render, signText_eq_plainText]
    exact startsItem_plainText Nat.toDigits_ne_nil (isDigit_toDigits _)
  | uint u =>
    rw [render, toDigits_eq_plain]
    exact startsItem_plainText Nat.toDigits_ne_nil (isDigit_toDigits _)
  | float f =>
    obtain ⟨neg, whole, part, htext, hne, hw, -⟩ := writeJsonF64_plain hv
    rw [render, htext]
    exact startsItem_plainText hne hw

/-- The error of a document nested too deep. -/
def tooDeep : CodecError := .parse "nesting too deep"

/-- On a text the parser returns the value and stops right after it; past the nesting limit, for a value nested `m` deep, it fails. -/
def ReadsText (t : Str) (v : Value) (m : Nat) : Prop :=
  ∀ fuel d, d ≤ MAX_DEPTH → MAX_DEPTH < fuel + d → ∀ rest, Stop rest → parseValueFuel fuel ⟨utf8 t ++ rest, d⟩ =
      if d + m ≤ MAX_DEPTH then .ok (v, ⟨rest, d⟩) else .error (.error tooDeep)

theorem all_depth_le {α : Type} (xs : List α) (f : α → Nat) (d m n : Nat) (hm : ∀ k, m ≤ k ↔ ∀ x ∈ xs, f x ≤ k) (hd : d ≤ n) :
    (xs.all fun x => decide (d + f x ≤ n)) = true ↔ d + m ≤ n := by
  have h : d + m ≤ n ↔ m ≤ n - d := by omega
  rw [all_eq_true, h, hm]
  refine forall₂_congr (fun x _ => ?_)
  rw [decide_eq_true_eq]
  omega

/-- A container at the limit is not entered. -/
theorem enter_eq : enter ⟨r, d⟩ = if d + 1 ≤ MAX_DEPTH then .ok ((), ⟨r, d + 1⟩) else .error (.error tooDeep) := by
  simp only [enter, tooDeep]
  split
  · rw [if_neg (by omega)]
  · rw [if_pos (by omega)]

/-- Text that reads as one token is read at every depth. -/
theorem readsText_token (h : ∀ fuel d rest, Stop rest → parseValueFuel (fuel + 1) ⟨utf8 t ++ rest, d⟩ = .ok (v, ⟨rest, d⟩)) :
    ReadsText t v 0 := by
  intro fuel d hd hf rest hr
  rcases fuel with _ | fuel
  · omega
  rw [h fuel d rest hr, Nat.add_zero, if_pos hd]

theorem readsText_string {esc : Char → Option Str} (H : Escapes esc) (s : Str) : ReadsText (quoteBy esc s) (.str s) 0 := by
  refine readsText_token (fun fuel d rest _ => ?_)
  have hstep : parseValueFuel (fuel + 1) ⟨utf8 (quoteBy esc s) ++ rest, d⟩ =
      (do
        let s ← parseString
        pure (Value.str s) : P Value) ⟨utf8 (quoteBy esc s) ++ rest, d⟩ := by
    rfl
  rw [hstep, bind_of_ok (parseString_quote _ H)]
  rfl

/-- The text of a container is read if what it holds is, one level deeper. -/
theorem readsText_container {p : Nat → P Value} {m : Nat}
    (hstep : ∀ fuel d rest, parseValueFuel (fuel + 1) ⟨utf8 t ++ rest, d⟩ = (do
        enter
        let v ← p fuel
        leave
        pure v : P Value) ⟨utf8 t ++ rest, d⟩)
    (h : ∀ fuel d, d ≤ MAX_DEPTH → MAX_DEPTH < fuel + d → ∀ rest, p fuel ⟨utf8 t ++ rest, d⟩ =
      if d + m ≤ MAX_DEPTH then .ok (v, ⟨rest, d⟩) else .error (.error tooDeep)) : ReadsText t v (m + 1) := by
  intro fuel d hd hf rest hr
  rcases fuel with _ | fuel
  · omega
  rw [hstep, bind_of_ite enter_eq]
  by_cases hd' : d + 1 ≤ MAX_DEPTH
  · have hm : d + 1 + m ≤ MAX_DEPTH ↔ d + (m + 1) ≤ MAX_DEPTH := by omega
    rw [if_pos hd', bind_of_ite (h fuel (d + 1) hd' (by omega) rest), bind_of_ok leave_succ]
    simp only [hm, pure_apply]
  · rw [if_neg hd', if_neg (by omega)]

section Texts

variable {ι : Type} {text : ι → Str} {val : ι → Value} {depth : ι → Nat} {xs : List ι} {m : Nat}

/-- The entries of a container, each put after the ones before it. -/
theorem items_texts {item : List β → P (List β)} {out : ι → β} (hm : ∀ k, m ≤ k ↔ ∀ x ∈ xs, depth x ≤ k)
    (hx : ∀ y ∈ xs, ReadsItem item (fun acc x => acc ++ [out x]) text (fun x => decide (d + depth x ≤ MAX_DEPTH)) tooDeep d y)
    (hs : ∀ y ∈ xs, StartsItem close (text y)) (hc : Closes close) (hd : d ≤ MAX_DEPTH) :
    items close message item [] ⟨utf8 (joinComma true (xs.map text)) ++ close :: rest, d⟩ =
      if d + m ≤ MAX_DEPTH then .ok (xs.map out, ⟨rest, d⟩) else .error (.error tooDeep) := by
  have hitems := items_join message hx hs hc [] rest
  have hfold : xs.foldl (fun acc x => acc ++ [out x]) [] = xs.map out := by
    rw [foldl_append_eq_append, nil_append, ← flatMap_def, map_eq_flatMap]
  simp only [hfold, all_depth_le xs depth d m MAX_DEPTH hm hd] at hitems
  exact hitems

theorem readsText_array (hx : ∀ x ∈ xs, ReadsText (text x) (val x) (depth x)) (hs : ∀ x ∈ xs, StartsItem (byte ']') (text x))
    (hm : ∀ k, m ≤ k ↔ ∀ x ∈ xs, depth x ≤ k) :
    ReadsText ('[' :: (joinComma true (xs.map text) ++ [']'])) (.array (xs.map val)) (m + 1) := by
  refine readsText_container (p := fun fuel => parseArray (parseValueFuel fuel)) (fun _ _ _ => rfl) (fun fuel d hd hf rest => ?_)
  have htext : utf8 ('[' :: (joinComma true (xs.map text) ++ [']'])) ++ rest =
      byte '[' :: (utf8 (joinComma true (xs.map text)) ++ byte ']' :: rest) := by
    simp [utf8_cons_ascii (c := '[') (by decide), utf8_cons_ascii (c := ']') (by decide)]
  have hread : ∀ x ∈ xs, ReadsItem (parseElement (parseValueFuel fuel)) (fun acc x => acc ++ [val x]) text
      (fun x => decide (d + depth x ≤ MAX_DEPTH)) tooDeep d x := by
    intro x hmem acc rest hr
    simp only [parseElement, bind_of_ite (hx x hmem fuel d hd hf rest hr), decide_eq_true_eq, pure_apply]
  rw [htext, parseArray, bind_of_ok (expect_cons _ _ _), arrayItems, bind_of_ite (items_texts _ hm hread hs closes_bracket hd)]
  rfl

/-- The text of an object whose entries have the given keys and texts. -/
def objectText (esc : Char → Option Str) (key text : ι → Str) (xs : List ι) : Str :=
  '\x7b' :: (joinComma true (xs.map fun x => quoteBy esc (key x) ++ ':' :: text x) ++ ['\x7d'])

/-- An object is read from the texts of its values, whatever writer its keys have. -/
theorem readsText_object {esc : Char → Option Str} (H : Escapes esc) (key : ι → Str)
    (hx : ∀ x ∈ xs, ReadsText (text x) (val x) (depth x)) (hm : ∀ k, m ≤ k ↔ ∀ x ∈ xs, depth x ≤ k) :
    ReadsText (objectText esc key text xs) (.object (xs.map fun x => (key x, val x))) (m + 1) := by
  refine readsText_container (p := fun fuel => parseObject (parseValueFuel fuel)) (fun _ _ _ => rfl) (fun fuel d hd hf rest => ?_)
  have htext : utf8 (objectText esc key text xs) ++ rest =
      byte '\x7b' :: (utf8 (joinComma true (xs.map fun x => quoteBy esc (key x) ++ ':' :: text x)) ++ byte '\x7d' :: rest) := by
    simp [objectText, utf8_cons_ascii (c := '\x7b') (by decide), utf8_cons_ascii (c := '\x7d') (by decide)]
  have hread : ∀ x ∈ xs, ReadsItem (parseEntry (parseValueFuel fuel)) (fun acc x => acc ++ [(key x, val x)])
      (fun x => quoteBy esc (key x) ++ ':' :: text x) (fun x => decide (d + depth x ≤ MAX_DEPTH)) tooDeep d x := by
    intro x hmem acc rest hr
    have hrest : utf8 (quoteBy esc (key x) ++ ':' :: text x) ++ rest =
        utf8 (quoteBy esc (key x)) ++ byte ':' :: (utf8 (text x) ++ rest) := by
      simp [utf8_cons_ascii (c := ':') (by decide)]
    have hws : ∀ r, skipWs ⟨utf8 (quoteBy esc (key x)) ++ r, d⟩ = .ok ((), ⟨utf8 (quoteBy esc (key x)) ++ r, d⟩) := by
      intro r
      rw [quoteBy, utf8_cons_ascii (c := '"') (by decide), cons_append, skipWs_cons (by decide)]
    rw [hrest, parseEntry, bind_of_ok (hws _), bind_of_ok (parseString_quote _ H),
      bind_of_ok (skipWs_cons (by decide) _ _), bind_of_ok (expect_cons _ _ _),
      bind_of_ite (hx x hmem fuel d hd hf rest hr)]
    simp only [decide_eq_true_eq, pure_apply]
  rw [htext, parseObject, bind_of_ok (expect_cons _ _ _), objectItems, bind_of_ite (items_texts _ hm hread
    (fun _ _ => startsItem_of_head (by decide) (by decide) (by decide)) closes_brace hd)]
  rfl

end Texts

/-- Reading a whole document. -/
theorem fromStr_text {m : Nat} (h : ReadsText t v m) (hs : StartsItem (byte ']') t) :
    fromStr t = if m ≤ MAX_DEPTH then .ok v else .error (.error tooDeep) := by
  obtain ⟨b, r, hb, hws, -⟩ := hs
  have hskip : skipWs ⟨utf8 t, 0⟩ = .ok ((), ⟨utf8 t, 0⟩) := by rw [hb, skipWs_cons hws]
  have hval : parseValue ⟨utf8 t, 0⟩ = if m ≤ MAX_DEPTH then .ok (v, ⟨[], 0⟩) else .error (.error tooDeep) := by
    have hread := h (MAX_DEPTH + 1) 0 (Nat.zero_le _) (Nat.lt_succ_self _) [] stop_nil
    rw [append_nil, Nat.zero_add] at hread
    exact hread
  rw [fromStr, run, Parser.new, bind_of_ok hskip, bind_of_ite hval]
  split <;> rfl

/-- The parser reads back every value the encoder can write, its integers as numbers. -/
theorem readsText_render (D : F64Display) (v : Value) (hp : v.isPlain = true) : ReadsText (render D v) v.norm v.depth := by
  induction v using Value.ind with
  | null => exact readsText_token (fun _ _ _ _ => rfl)
  | bool b => cases b <;> exact readsText_token (fun _ _ _ _ => rfl)
  | int i =>
    refine readsText_token (fun fuel d rest hr => ?_)
    rw [render, signText_eq_plainText, parseValueFuel_plainText Nat.toDigits_ne_nil (isDigit_toDigits _) (by simp) hr,
      ← signText_eq_plainText]
    simp [numberValue, parseI64_text, Value.norm]
  | uint u =>
    refine readsText_token (fun fuel d rest hr => ?_)
    rw [render, toDigits_eq_plain, parseValueFuel_plainText Nat.toDigits_ne_nil (isDigit_toDigits _) (by simp) hr,
      ← toDigits_eq_plain]
    simp only [numberValue, parseI64_toDigits, parseU64_toDigits, Value.norm]
    by_cases h : u.val < 2 ^ 63
    · simp only [dif_pos h]
      rfl
    · simp only [dif_neg h]
      rfl
  | float f =>
    refine readsText_token (fun fuel d rest hr => ?_)
    obtain ⟨neg, whole, part, htext, hne, hw, hpart, hpe, hval⟩ := writeJsonF64_plain hp
    rw [render, htext, parseValueFuel_plainText hne hw hpart hr]
    simp [numberValue, hpe, hval, Value.norm]
  | str s => exact readsText_string escapes_escapeOf s
  | bytes b => cases hp
  | array a ih =>
    rw [Value.isPlain, allPlain_iff] at hp
    rw [render, renderSeq_eq_map, Value.norm, normList_eq_map, Value.depth]
    exact readsText_array (fun v hv => ih v hv (hp v hv)) (fun v hv => startsItem_render D (hp v hv)) (fun _ => depthList_le)
  | object o ih =>
    rw [Value.isPlain, entriesPlain_iff] at hp
    rw [render, renderMap_eq_map, Value.norm, normEntries_eq_map, Value.depth]
    exact readsText_object escapes_escapeOf Prod.fst (fun e he => ih e he (hp e he)) (fun _ => depthEntries_le)

/-- Reading back a whole document. -/
theorem fromStr_render (D : F64Display) (hp : v.isPlain = true) :
    fromStr (render D v) = if v.depth ≤ MAX_DEPTH then .ok v.norm else .error (.error tooDeep) :=
  fromStr_text (readsText_render D v hp) (startsItem_render D hp)

end Ferroly.Json
