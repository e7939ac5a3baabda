import Ferroly.Lemmas.YamlRead

/-!
# The YAML round trip

A document is read back exactly when its value survives: whatever stands after a key does, but a colon and a space in a key, in
an item of a sequence or in a string alone in the document are taken for a mapping, a negative number alone for a sequence, and
an empty container alone is written as `null`.
-/

namespace Ferroly.Yaml

open List

variable {D : F64Display} {v : Value}

/-! ## One scalar alone -/

/-- Whether a value's text begins with a dash. -/
def startsWithDash : Value → Bool
  | .int i => decide (i.val < 0)
  | .float f => f.isNeg
  | _ => false

theorem isDash_plainText {neg : Bool} {whole part : Str} (hne : whole ≠ []) (hw : ∀ c ∈ whole, c.isDigit = true) :
    isDash (plainText neg whole part) = neg := by
  cases neg with
  | true => rfl
  | false =>
    obtain ⟨c, w, rfl⟩ := exists_cons_of_ne_nil hne
    have hc : c ≠ '-' := ne_of_isDigit (hw c mem_cons_self) (by decide)
    simp [plainText, isDash, hc]

theorem isDash_string (s : Str) : isDash (stringText s) = false := by
  have h := isDash_stringText s []
  obtain ⟨c, t, hc, -⟩ := clean_stringText.first
  rw [hc] at h ⊢
  exact h

theorem isDash_scalarText (h : v.isPlain = true) : isDash (scalarText D v) = startsWithDash v := by
  cases v with
  | null => exact (by decide : isDash "null".toList = false)
  | bool b => cases b <;> rfl
  | int i =>
    rw [scalarText, writeScalar, Fmt.writeI64_eq, nil_append, signText_eq_plainText,
      isDash_plainText Nat.toDigits_ne_nil (isDigit_toDigits _)]
    rfl
  | uint u =>
    rw [scalarText, writeScalar, Fmt.writeU64_eq, nil_append, toDigits_eq_plain,
      isDash_plainText Nat.toDigits_ne_nil (isDigit_toDigits _)]
    rfl
  | float f =>
    have hf : f.isFinite = true := h
    obtain ⟨neg, whole, part, htext, hne, hw, hp⟩ := D.plain f hf
    have hinv := D.inverse f hf
    rw [htext, parseFloat_plain binary64 neg hne hw hp, Option.some.injEq] at hinv
    rw [scalarText, writeScalar, Fmt.writeF64, if_pos hf, nil_append, htext, isDash_plainText hne hw, ← hinv]
    rfl
  | str s =>
    rw [scalarText_str]
    exact isDash_string s
  | bytes b => cases h
  | array a => rfl
  | object o => rfl

theorem blockLines_scalar (hn : isNested v = false) (n : Nat) : blockLines D v n = [(n, scalarText D v)] := by
  cases v with
  | array a =>
    cases a with
    | nil => rfl
    | cons w a => cases hn
  | object o =>
    cases o with
    | nil => rfl
    | cons e o => cases hn
  | _ => rfl

/-- A document is parsed as one block over its lines. -/
theorem fromStr_encode_eq (hp : v.isPlain = true) :
    fromStr (encode D v) = (parseBlockFuel (MAX_DEPTH + 2) 0 0 (blockLines D v 0)).map Prod.fst := by
  obtain ⟨c, ls, hls⟩ := blockLines_cons 0
  rw [fromStr, preprocess_encode hp, hls]
  simp only
  cases parseBlockFuel (MAX_DEPTH + 2) 0 0 ((0, c) :: ls) with
  | ok r => rfl
  | error e => rfl

theorem map_fst_eq_ok {ε α β : Type} {r : Except ε (α × β)} {x : α} : r.map Prod.fst = .ok x ↔ ∃ y, r = .ok (x, y) := by
  cases r with
  | error e => exact iff_of_false nofun (by rintro ⟨y, h⟩; cases h)
  | ok p =>
    obtain ⟨a, b⟩ := p
    constructor
    · intro h
      cases h
      exact ⟨b, rfl⟩
    · rintro ⟨y, h⟩
      cases h
      rfl

/-- A nested value alone. -/
theorem fromStr_nested (hD : D.PointsFractions) (hp : v.isPlain = true) (hd : v.depth ≤ MAX_DEPTH) (hn : isNested v = true) :
    fromStr (encode D v) = .ok (readBack D v) ↔ survives .top v = true := by
  have hread : ReadsIff (parseBlockFuel (MAX_DEPTH + 2) 0 0) (blockLines D v 0) [] (readBack D v)
      (survives .item v = true) := parseBlockFuel_reads hD hp hn (by omega) (by omega) (by rintro l ⟨⟩)
  rw [ReadsIff, append_nil] at hread
  rw [fromStr_encode_eq hp, map_fst_eq_ok, survives_nested hn .top .item]
  constructor
  · rintro ⟨st, h⟩
    by_contra hs
    exact hread.2 hs st h
  · exact fun hs => ⟨[], hread.1 hs⟩

/-- What a number is read back as is no container. -/
theorem readBackFloat_ne_array (D : F64Display) (f : F64) (a : List Value) : readBackFloat D f ≠ .array a := by
  rw [readBackFloat]
  split
  · rw [integerValue]
    cases I64.ofInt? (shownInteger (D.toText f)) with
    | some i => rintro ⟨⟩
    | none =>
      simp only
      split
      · cases U64.ofNat? (shownInteger (D.toText f)).toNat with
        | some u | none => rintro ⟨⟩
      · rintro ⟨⟩
  · rintro ⟨⟩

/-- A scalar or an empty container alone. -/
theorem fromStr_scalar (hD : D.PointsFractions) (hp : v.isPlain = true) (hn : isNested v = false) :
    fromStr (encode D v) = .ok (readBack D v) ↔ survives .top v = true := by
  have hdash := isDash_scalarText (D := D) hp
  have hkey := splitMarker_scalarText (D := D) hp
  rw [← isSome_mappingKey] at hkey
  -- by how the only line begins and whether it has a marker, it is read as a sequence, as a mapping or as a scalar
  have hrun : parseBlockFuel (MAX_DEPTH + 2) 0 0 [(0, scalarText D v)] =
      if startsWithDash v then parseSequence (parseBlockFuel (MAX_DEPTH + 1)) 0 0 [(0, scalarText D v)]
      else if hasMarker v then parseMapping (parseBlockFuel (MAX_DEPTH + 1)) 0 0 [(0, scalarText D v)]
      else .ok (parseScalar (scalarText D v), []) := by
    rw [parseBlockFuel_cons (by decide), hdash, hkey]
  have hseq : startsWithDash v = true → (∀ a, readBack D v ≠ .array a) → fromStr (encode D v) ≠ .ok (readBack D v) := by
    intro hs hne h
    rw [fromStr_encode_eq hp, map_fst_eq_ok, blockLines_scalar hn, hrun] at h
    obtain ⟨st, h⟩ := h
    rw [if_pos hs] at h
    obtain ⟨a, ha⟩ := parseSequence_array h
    exact hne a ha
  have hone : startsWithDash v = false → hasMarker v = false → fromStr (encode D v) = .ok (parseScalar (scalarText D v)) := by
    intro hs hm
    rw [fromStr_encode_eq hp, map_fst_eq_ok, blockLines_scalar hn, hrun, hs, hm]
    exact ⟨[], rfl⟩
  have hinline := parseScalar_inlineText hD hp hn
  have hnumber : hasMarker v = false → parseScalar (scalarText D v) = readBack D v → (∀ a, readBack D v ≠ .array a) →
      survives .top v = !startsWithDash v → (fromStr (encode D v) = .ok (readBack D v) ↔ survives .top v = true) := by
    intro hm hread hne hsurvives
    rw [hsurvives]
    cases hs : startsWithDash v with
    | true => exact iff_of_false (hseq hs hne) Bool.false_ne_true
    | false =>
      rw [hone hs hm, hread]
      exact iff_of_true rfl rfl
  cases v with
  | null | bool b | uint u =>
    rw [hone rfl rfl, ← hinline]
    exact iff_of_true rfl rfl
  | int i =>
    refine hnumber rfl hinline (by rintro _ ⟨⟩) ?_
    rw [survives, startsWithDash, ← decide_not]
    exact decide_eq_decide.mpr Int.not_lt.symm
  | float f => exact hnumber rfl hinline (readBackFloat_ne_array D f) rfl
  | str s =>
    cases hm : hasMarker (.str s) with
    | true =>
      refine iff_of_false ?_ (by simpa [survives, hasMarker] using hm)
      intro h
      rw [fromStr_encode_eq hp, map_fst_eq_ok, blockLines_scalar hn, hrun, hm] at h
      obtain ⟨st, h⟩ := h
      obtain ⟨o, ho⟩ := parseMapping_object h
      cases ho
    | false =>
      rw [hone rfl hm, ← hinline]
      exact iff_of_true rfl (by simpa [survives, hasMarker] using hm)
  | bytes b => cases hp
  | array a =>
    cases a with
    | cons w a => cases hn
    | nil => refine iff_of_false ?_ ?_ <;> rintro ⟨⟩
  | object o =>
    cases o with
    | cons e o => cases hn
    | nil => refine iff_of_false ?_ ?_ <;> rintro ⟨⟩

/-! ## The round trip -/

/-- Reading a document back gives its value, with the numbers in canonical form, exactly when the value survives. -/
theorem fromStr_encode (D : FloatDisplay binary64) (hD : D.PointsFractions) (v : Value) (hp : v.isPlain = true)
    (hd : v.depth ≤ 128) : fromStr (encode D v) = .ok (readBack D v) ↔ survives .top v = true := by
  cases hn : isNested v with
  | true => exact fromStr_nested hD hp hd hn
  | false => exact fromStr_scalar hD hp hn

/-- A document with every kind of scalar and quoting in it. -/
def sampleDocument : Value :=
  .object [("name:".toList, .str "a: b".toList), ("-k".toList, .array [.null, .int ⟨-5, by decide⟩, .str "x:y".toList,
    .array [], .array [.str "#".toList, .float (Flt.ofInt binary64 3)]]), ([], .object [("u".toList, .uint ⟨7, by decide⟩)])]

theorem fromStr_encode_sampleDocument : sampleDocument.isPlain = true ∧ sampleDocument.depth ≤ 128 ∧
    fromStr (encode exactDisplay sampleDocument) = .ok (readBack exactDisplay sampleDocument) := by
  have hplain : sampleDocument.isPlain = true := by decide +kernel
  have hdepth : sampleDocument.depth ≤ 128 := by decide
  exact ⟨hplain, hdepth, (fromStr_encode exactDisplay exactDisplay_pointsFractions sampleDocument hplain hdepth).mpr rfl⟩

/-- A string with a colon and a space in a sequence comes back as a mapping. -/
theorem fromStr_encode_colonItem :
    (Value.array [.str "a: b".toList]).isPlain = true ∧ (Value.array [.str "a: b".toList]).depth ≤ 128 ∧
      fromStr (encode exactDisplay (.array [.str "a: b".toList])) ≠ .ok (readBack exactDisplay (.array [.str "a: b".toList])) := by
  refine ⟨rfl, by decide, fun hread => ?_⟩
  have hsurvives := (fromStr_nested exactDisplay_pointsFractions rfl (by decide) rfl).mp hread
  cases hsurvives

/-! ## Strings alone -/

/-- The text of a string has no line feed, and is read back as the string, as a scalar and as a key. -/
theorem string_text_read_back (D : FloatDisplay binary64) (out s : Str) :
    writeScalar D out (.str s) = out ++ writeScalar D [] (.str s) ∧ '\n' ∉ writeScalar D [] (.str s) ∧
      parseScalar (writeScalar D [] (.str s)) = .str s ∧ writeKey out s = out ++ writeKey [] s ∧ unquote (writeKey [] s) = s := by
  have htext : writeScalar D [] (.str s) = stringText s := by simp [writeScalar, stringText, writeQuoted_eq]
  have hkey : writeKey [] s = stringText s := writeKey_eq [] s
  rw [writeScalar_eq, scalarText, writeKey_eq, htext, hkey]
  exact ⟨rfl, clean_stringText.noNewline, parseScalar_stringText, rfl, unquote_stringText⟩

end Ferroly.Yaml
