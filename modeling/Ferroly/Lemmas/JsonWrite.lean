import Ferroly.Codec.Traits

/-!
# What the JSON encoder writes

The text of a value as a function of the value alone, and the invariant of the sink: whatever is written into it appends its text
and leaves the stack of first-entry flags as it was.
-/

namespace Ferroly.Json

open JsonEncoder List

/-! ## The text of a value -/

/-- The characters an escape stands for, or the character itself. -/
def escapeChar (c : Char) : Str := (escapeOf c).getD [c]

/-- A string in quotes. -/
def quote (s : Str) : Str := '"' :: (s.flatMap escapeChar ++ ['"'])

/-- The comma before an entry that is not the first. -/
def sepText (first : Bool) : Str := if first then [] else [',']

/-- Texts with commas between them; `first` tells whether nothing stands before them. -/
def joinComma : Bool → List Str → Str
  | _, [] => []
  | first, t :: ts => sepText first ++ t ++ joinComma false ts

mutual

/-- The text of a value. -/
def render (D : FloatDisplay binary64) : Value → Str
  | .null => "null".toList
  | .bool b => if b then "true".toList else "false".toList
  | .int i => Fmt.signText i ++ Nat.toDigits 10 i.val.natAbs
  | .uint u => Nat.toDigits 10 u.val
  | .float f => Fmt.writeJsonF64 D [] f
  | .str s => quote s
  | .bytes b => '[' :: (joinComma true (b.map (fun x => Nat.toDigits 10 x.toNat)) ++ [']'])
  | .array a => '[' :: (joinComma true (renderSeq D a) ++ [']'])
  | .object o => '\x7b' :: (joinComma true (renderMap D o) ++ ['\x7d'])

/-- The texts of the elements of an array. -/
def renderSeq (D : FloatDisplay binary64) : List Value → List Str
  | [] => []
  | x :: a => render D x :: renderSeq D a

/-- The texts of the entries of an object. -/
def renderMap (D : FloatDisplay binary64) : List (Str × Value) → List Str
  | [] => []
  | (k, x) :: o => (quote k ++ ':' :: render D x) :: renderMap D o

end

/-! ## The sink -/

theorem writeStringLoop_eq (out run s : Str) : writeStringLoop out run s = out ++ run ++ s.flatMap escapeChar := by
  induction s generalizing out run with
  | nil => simp [writeStringLoop]
  | cons c s ih =>
    cases h : escapeOf c with
    | none | some e => simp [writeStringLoop, escapeChar, h, ih]

theorem writeString_eq (out s : Str) : writeString out s = out ++ quote s := by
  simp [writeString, writeStringLoop_eq, quote]

/-- `w` appends `t` to the output and keeps the stack of flags. -/
def Writes (w : JsonEncoder → JsonEncoder) (t : Str) : Prop := ∀ e, w e = e.push t

variable {first : Bool} {fs : List Bool} {out : Str}

variable {w : JsonEncoder → JsonEncoder}

theorem seqEntry_of_writes {t : Str} (h : Writes w t) : seqEntry ⟨out, first :: fs⟩ w = ⟨out ++ (sepText first ++ t), false :: fs⟩ := by
  cases first <;> simp [seqEntry, sep, push, h _, sepText]

theorem mapEntry_of_writes {t : Str} (h : Writes w t) (key out : Str) (first : Bool) (fs : List Bool) :
    mapEntry ⟨out, first :: fs⟩ key w = ⟨out ++ (sepText first ++ (quote key ++ ':' :: t)), false :: fs⟩ := by
  cases first <;> simp [mapEntry, sep, push, h _, sepText, writeString_eq]

theorem encodeBytesLoop_eq (e : JsonEncoder) (i : Nat) (b : Bytes) :
    e.encodeBytesLoop i b = e.push (joinComma (decide (i = 0)) (b.map (fun x => Nat.toDigits 10 x.toNat))) := by
  induction b generalizing e i with
  | nil => simp [encodeBytesLoop, push, joinComma]
  | cons x b ih =>
    rw [encodeBytesLoop, ih]
    by_cases hi : i = 0
    · subst hi
      simp [push, encodeU64, Fmt.writeU64_eq, byteU64, joinComma, sepText]
    · have hp : i > 0 := Nat.pos_of_ne_zero hi
      simp [push, encodeU64, Fmt.writeU64_eq, byteU64, joinComma, sepText, hi, hp]

/-! ## Trees -/

theorem emitSeq_eq {D : F64Display} {a : List Value} (ih : ∀ v ∈ a, Writes (emitValue D v) (render D v)) :
    emitSeq D a ⟨out, first :: fs⟩ = ⟨out ++ joinComma first (renderSeq D a), (first && a.isEmpty) :: fs⟩ := by
  induction a generalizing out first with
  | nil => simp [emitSeq, renderSeq, joinComma]
  | cons x a ihl =>
    rw [emitSeq, seqEntry_of_writes (ih x (by simp)), ihl (forall_mem_cons.mp ih).2]
    simp [renderSeq, joinComma]

theorem emitMap_eq {D : F64Display} {o : Object} (ih : ∀ e ∈ o, Writes (emitValue D e.2) (render D e.2)) :
    emitMap D o ⟨out, first :: fs⟩ = ⟨out ++ joinComma first (renderMap D o), (first && o.isEmpty) :: fs⟩ := by
  induction o generalizing out first with
  | nil => simp [emitMap, renderMap, joinComma]
  | cons x o ihl =>
    obtain ⟨k, x⟩ := x
    rw [emitMap, mapEntry_of_writes (ih (k, x) (by simp)), ihl (forall_mem_cons.mp ih).2]
    simp [renderMap, joinComma]

variable {v : Value}

/-- Replaying a value writes its text. -/
theorem emitValue_writes (D : F64Display) : Writes (emitValue D v) (render D v) := by
  induction v using Value.ind with
  | null | bool | str =>
    intro e
    simp [emitValue, render, encodeNull, encodeBool, encodeStr, push, writeString_eq]
  | int | uint =>
    intro e
    simp [emitValue, render, encodeI64, encodeU64, push, Fmt.writeI64_eq, Fmt.writeU64_eq]
  | float f =>
    intro e
    rw [emitValue, encodeF64, Fmt.writeJsonF64_eq]
    rfl
  | bytes b =>
    intro e
    simp [emitValue, render, encodeBytes, encodeBytesLoop_eq, push]
  | array a ih =>
    intro e
    simp [emitValue, render, beginSeq, emitSeq_eq ih, endSeq, push]
  | object o ih =>
    intro e
    simp [emitValue, render, beginMap, emitMap_eq ih, endMap, push]

theorem toString_eq_render (D : F64Display) : toString D v = render D v := by
  rw [toString, emitValue_writes]
  rfl

/-! ## Typed values -/

section Typed

variable {D : F64Display} {Γ : Env}

/-- Streaming a value writes the text of its tree. -/
def WritesTree (D : FloatDisplay binary64) (Γ : Env) (x : Data) : Prop := Writes (x.encodeTo D Γ) (render D (x.encode Γ))

theorem encodeToSeq_eq {ds : List Data} (ih : ∀ d ∈ ds, WritesTree D Γ d) : Data.encodeToSeq D Γ ds ⟨out, first :: fs⟩ =
      ⟨out ++ joinComma first (renderSeq D (Data.encodeSeq Γ ds)), (first && ds.isEmpty) :: fs⟩ := by
  induction ds generalizing out first with
  | nil => simp [Data.encodeToSeq, Data.encodeSeq, renderSeq, joinComma]
  | cons d ds ihl =>
    rw [Data.encodeToSeq, seqEntry_of_writes (ih d (by simp)), ihl (forall_mem_cons.mp ih).2]
    simp [Data.encodeSeq, renderSeq, joinComma]

theorem encodeToMap_eq {es : List (Str × Data)} (ih : ∀ e ∈ es, WritesTree D Γ e.2) : Data.encodeToMap D Γ es ⟨out, first :: fs⟩ =
      ⟨out ++ joinComma first (renderMap D (Data.encodeMap Γ es)), (first && es.isEmpty) :: fs⟩ := by
  induction es generalizing out first with
  | nil => simp [Data.encodeToMap, Data.encodeMap, renderMap, joinComma]
  | cons e es ihl =>
    obtain ⟨k, d⟩ := e
    rw [Data.encodeToMap, mapEntry_of_writes (ih (k, d) (by simp)), ihl (forall_mem_cons.mp ih).2]
    simp [Data.encodeMap, renderMap, joinComma]

/-- The fields of a struct: whichever are skipped, the flag of the container tells whether one was written. -/
theorem encodeToFields_eq {ds : List Data} (ih : ∀ d ∈ ds, WritesTree D Γ d) (plan : List Slot) (out : Str) (first : Bool)
    (fs : List Bool) :
    Data.encodeToFields D Γ plan ds ⟨out, first :: fs⟩ = ⟨out ++ joinComma first (renderMap D (Data.encodeFields Γ plan ds)),
        (first && (Data.encodeFields Γ plan ds).isEmpty) :: fs⟩ := by
  induction ds generalizing plan out first with
  | nil => cases plan <;> simp [Data.encodeToFields, Data.encodeFields, renderMap, joinComma]
  | cons d ds ihl =>
    have ihl := ihl (forall_mem_cons.mp ih).2
    cases plan with
    | nil => simp [Data.encodeToFields, Data.encodeFields, renderMap, joinComma]
    | cons f plan =>
      rw [Data.encodeToFields_cons, Data.encodeFields_cons]
      cases f.skips d with
      | true => simpa using ihl plan out first
      | false => simp [mapEntry_of_writes (ih d (by simp)), ihl, renderMap, joinComma]

variable {x : Data}

/-- Streaming a value of any type writes the text of its tree. -/
theorem encodeTo_writes : WritesTree D Γ x := by
  induction x using Data.ind with
  | bool | int | uint | f32 | f64 | char | unit | value | str | none | enum =>
    intro e
    rw [← emitValue_writes]
    try rfl
  | some d ih | boxed d ih =>
    intro e
    exact ih e
  | vec ds ih =>
    intro e
    simp [Data.encodeTo, Data.encode, render, beginSeq, encodeToSeq_eq ih, endSeq, push]
  | map es ih =>
    intro e
    simp [Data.encodeTo, Data.encode, render, beginMap, encodeToMap_eq ih, endMap, push]
  | struct name ds ih =>
    intro e
    simp [Data.encodeTo, Data.encode, render, beginMap, encodeToFields_eq ih, endMap, push]

theorem encode_eq_render : encode D Γ x = render D (x.encode Γ) := by
  rw [encode, encodeTo_writes]
  rfl

end Typed

end Ferroly.Json
