import Ferroly.Codec.Yaml

/-!
# The lines of a YAML document

What the parser has not looked at when it returns, what lines contribute to a value, and when a line belongs to the lines before it.
-/

namespace Ferroly.Yaml

/-- The significant lines that the parser has not looked at when it returns. -/
def leftover (input : Str) : List Line :=
  match preprocess input with
  | [] => []
  | (base, content) :: rest =>
    match parseBlockFuel (MAX_DEPTH + 2) base 0 ((base, content) :: rest) with
    | .ok (_, st) => st
    | .error _ => []

/-! ## Contributions -/

mutual

/-- Every line contributes to the value: a scalar, a key of a mapping or an item of a sequence. -/
inductive Yields : List Line → Value → Prop where
  | nothing : Yields [] .null
  | scalar (n : Nat) (c : Str) : Yields [(n, c)] (parseScalar c)
  | mapping {ls : List Line} {es : List (Str × Value)} (h : YieldsEntries ls es) : Yields ls (.object es)
  | sequence {ls : List Line} {vs : List Value} (h : YieldsItems ls vs) : Yields ls (.array vs)

/-- A line for each key; the value is in the line or in the lines below it. -/
inductive YieldsEntries : List Line → List (Str × Value) → Prop where
  | nil : YieldsEntries [] []
  | inline {n : Nat} {c k rest : Str} {ls : List Line} {es : List (Str × Value)} (hkey : mappingKey c = some (k, rest))
      (hrest : rest ≠ []) (h : YieldsEntries ls es) : YieldsEntries ((n, c) :: ls) ((k, parseScalar rest) :: es)
  | nested {n : Nat} {c k : Str} {v : Value} {bs ls : List Line} {es : List (Str × Value)} (hkey : mappingKey c = some (k, []))
      (hv : Yields bs v) (h : YieldsEntries ls es) : YieldsEntries ((n, c) :: (bs ++ ls)) ((k, v) :: es)

/-- A line for each item; the item is in the line, perhaps as the one entry of a mapping, or in the lines below it. -/
inductive YieldsItems : List Line → List Value → Prop where
  | nil : YieldsItems [] []
  | inline {n : Nat} {c : Str} {ls : List Line} {vs : List Value} (hdash : isDash c = true) (h : YieldsItems ls vs) :
      YieldsItems ((n, c) :: ls) (parseScalar (trimStart c.tail) :: vs)
  | entry {n : Nat} {c k rest : Str} {ls : List Line} {vs : List Value} (hdash : isDash c = true)
      (hkey : mappingKey (trimStart c.tail) = some (k, rest)) (h : YieldsItems ls vs) :
      YieldsItems ((n, c) :: ls) (.object [(k, parseScalar rest)] :: vs)
  | nested {n : Nat} {c : Str} {v : Value} {bs ls : List Line} {vs : List Value} (hdash : isDash c = true)
      (hbare : trimStart c.tail = []) (hv : Yields bs v) (h : YieldsItems ls vs) : YieldsItems ((n, c) :: (bs ++ ls)) (v :: vs)

end

/-! ## Connected lines -/

/-- A key or a dash with nothing after it. -/
def isBare (l : Line) : Bool :=
  if isDash l.2 then decide (trimStart l.2.tail = []) else decide ((mappingKey l.2).map Prod.snd = some [])

/-- A line can continue the block of an earlier one that is not indented more: a dash does a sequence, any other line a mapping. -/
def Continues (a l : Line) : Prop :=
  a.1 ≤ l.1 ∧ (if isDash a.2 then isDash l.2 = true else (mappingKey a.2).isSome = true ∧ isDash l.2 = false)

/-- A line belongs to the lines before it: it is indented more than the last of them, which is bare, or it can continue the block of one
of them such that no line after that one is indented less. -/
def Follows (before : List Line) (l : Line) : Prop :=
  (∃ a ∈ before.getLast?, isBare a = true ∧ a.1 < l.1) ∨ ∃ ys a zs, before = ys ++ a :: zs ∧ Continues a l ∧ ∀ b ∈ zs, a.1 ≤ b.1

/-- Every line but the first belongs to the lines before it. -/
def Connected (ls : List Line) : Prop := ∀ ys l zs, ls = ys ++ l :: zs → ys ≠ [] → Follows ys l

end Ferroly.Yaml
