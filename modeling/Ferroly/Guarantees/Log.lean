import Ferroly.Lemmas.JsonRead
import Ferroly.Log.Logger

/-!
# One record, one line

JSON text has no control character in it, whatever the value, so a record in JSON is one line. A plain record is one line exactly if no
key and no string among its fields has a line break in it: only the message is sanitised.
-/

namespace Ferroly

open List

/-- A character that is no control character. -/
def isShown (c : Char) : Bool := decide (0x20 ≤ c.toNat)

theorem shown_number {s : Str} (h : ∀ c ∈ s, isNumberChar c = true) : s.all isShown = true :=
  all_eq_true.mpr (fun c hc => decide_eq_true (Nat.le_trans (by decide) (isNumberChar_toNat (h c hc)).1))

theorem shown_toDigits (n : Nat) : (Nat.toDigits 10 n).all isShown = true :=
  shown_number (fun c hc => isNumberChar_of_isDigit (isDigit_toDigits n c hc))

namespace Json

variable (D : F64Display)

theorem shown_quote (s : Str) : (quote s).all isShown = true := by
  have hex : ∀ n < 0x20, (hex4 n).all isShown = true := by decide
  have hchar : ∀ c, (escapeChar c).all isShown = true := by
    intro c
    unfold escapeChar escapeOf
    -- the seven escapes of one letter
    iterate 7
      split
      · rfl
    split
    next hc => exact hex _ hc
    next hc => simpa [isShown] using hc
  simp [quote, all_flatMap, hchar]
  decide

theorem shown_joinComma {ts : List Str} (h : ∀ t ∈ ts, t.all isShown = true) (first : Bool) : (joinComma first ts).all isShown = true := by
  induction ts generalizing first with
  | nil => rfl
  | cons t ts ih =>
    rw [joinComma, all_append, all_append, h t mem_cons_self, ih (forall_mem_cons.mp h).2]
    cases first <;> rfl

/-- No text of a value has a control character in it. -/
theorem shown_render (v : Value) : (render D v).all isShown = true := by
  have hitems : ∀ {b e : Char} {ts : List Str}, isShown b = true → isShown e = true → (∀ t ∈ ts, t.all isShown = true) →
      (b :: (joinComma true ts ++ [e])).all isShown = true := by
    intro b e ts hb he h
    simp [hb, he, shown_joinComma h]
  induction v using Value.ind with
  | null => rfl
  | bool b => cases b <;> rfl
  | int i =>
    rw [render, signText_eq_plainText]
    exact shown_number (isNumberChar_plainText (isDigit_toDigits _) (by rintro _ ⟨⟩))
  | uint u => exact shown_toDigits u.val
  | float f =>
    rw [render]
    by_cases hf : f.isFinite = true
    · obtain ⟨neg, whole, part, htext, -, hw, hp, -⟩ := writeJsonF64_plain (D := D) hf
      rw [htext]
      exact shown_number (isNumberChar_plainText hw hp)
    · simp [Fmt.writeJsonF64, hf]
      decide
  | str s => exact shown_quote s
  | bytes b =>
    refine hitems rfl rfl (fun t ht => ?_)
    obtain ⟨x, -, rfl⟩ := mem_map.mp ht
    exact shown_toDigits _
  | array a ih =>
    rw [render, renderSeq_eq_map]
    refine hitems rfl rfl (fun t ht => ?_)
    obtain ⟨x, hx, rfl⟩ := mem_map.mp ht
    exact ih x hx
  | object o ih =>
    rw [render, renderMap_eq_map]
    refine hitems rfl rfl (fun t ht => ?_)
    obtain ⟨e, he, rfl⟩ := mem_map.mp ht
    rw [entryText, all_append, shown_quote, all_cons, ih e he]
    rfl

end Json

namespace Log

variable (D : F64Display)

theorem unbroken_of_shown {s : Str} (h : s.all isShown = true) : s.any isBreak = false := by
  rw [any_eq_false]
  intro c hc hbreak
  have hshown := of_decide_eq_true (all_eq_true.mp h c hc)
  simp only [isBreak, Bool.or_eq_true, beq_iff_eq] at hbreak
  rcases hbreak with rfl | rfl <;> exact absurd hshown (by decide)

theorem unbroken_space : isBreak ' ' = false := by decide

theorem shown_padded (width n : Nat) : (padded width n).all isShown = true := by
  rw [padded, leftpad, all_append, shown_toDigits, all_replicate]
  split <;> rfl

theorem shown_rfc3339 (secs millis : Nat) : (rfc3339 secs millis).all isShown = true := by
  unfold rfc3339
  rcases civilFromDays (secs / 86400 : Nat) with ⟨year, month, day⟩
  simp only [all_append, all_cons, shown_padded]
  rfl

theorem unbroken_sanitize (msg : Str) : (sanitize msg).any isBreak = false := by
  rw [sanitize]
  split
  · rw [any_map, any_eq_false]
    intro c _
    by_cases h : isBreak c = true <;> simp [h]
    decide
  next h => exact eq_false_of_ne_true h

/-- A string with a line break in it. -/
def breaksLine : Value → Bool
  | .str s => s.any isBreak
  | _ => false

theorem any_valuePlain (v : Value) : (valuePlain D v).any isBreak = breaksLine v := by
  have hjson := unbroken_of_shown (Json.shown_render D v)
  rw [← Json.toString_eq_render] at hjson
  cases v with
  | str s => rfl
  | _ => exact hjson

theorem any_foldl_pushField (es : Object) (s : Str) :
    (es.foldl (pushField D) s).any isBreak = (s.any isBreak || es.any (fun e => e.1.any isBreak || breaksLine e.2)) := by
  have heq : isBreak '=' = false := by decide
  induction es generalizing s with
  | nil => exact (Bool.or_false _).symm
  | cons e es ih =>
    rw [foldl_cons, ih, pushField, any_append, any_append, any_cons, any_cons, any_cons, any_valuePlain, heq, unbroken_space]
    simp only [Bool.false_or, Bool.or_assoc]

/-- A record is one line exactly if it is in JSON or none of its fields has a line break. -/
theorem one_line_iff (l : Logger) (level : Level) (msg : Str) (provided fields : List (Str × Value)) (secs millis : Nat) :
    (l.line D level msg provided fields secs millis).any isBreak = false ↔
      l.format = .json ∨ ∀ e ∈ provided ++ l.fields ++ fields, e.1.any isBreak = false ∧ breaksLine e.2 = false := by
  rw [Logger.line]
  cases l.format with
  | json =>
    rw [Logger.formatJson, Json.toString_eq_render, unbroken_of_shown (Json.shown_render D _)]
    exact iff_of_true rfl (.inl rfl)
  | plain =>
    have hlevel : ((level.asStr.map Char.toUpper).rightpad 5 ' ').any isBreak = false := by cases level <;> decide
    simp only [Logger.formatPlain, any_foldl_pushField, any_append, any_cons, hlevel, unbroken_sanitize,
      unbroken_of_shown (shown_rfc3339 secs millis), unbroken_space]
    simp only [Bool.false_or, Bool.or_false, ← any_append]
    rw [or_iff_right (by rintro ⟨⟩), any_eq_false]
    exact forall₂_congr (fun e _ => by rw [Bool.not_eq_true, Bool.or_eq_false_iff])

/-- A record that reads as two. -/
theorem forged_record : Logger.line exactDisplay ⟨.plain, []⟩ .info "login".toList [] [("user".toList, .str "eve\n1970".toList)] 0 5 =
    "1970-01-01T00:00:00.005Z INFO  login user=eve\n1970".toList := by
  decide +kernel

end Log

end Ferroly
