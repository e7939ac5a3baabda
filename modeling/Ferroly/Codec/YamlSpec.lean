import Ferroly.Codec.Yaml

/-!
# What a YAML document reads back as

YAML shows an integer-valued float as an integer and has one notation for both kinds of integer, so a document is read back with
its numbers in their canonical form. `survives` says which values are read back at all: the parser looks for a `key: value` line
before it looks at quotes, and for a dash before it looks for a number.
-/

namespace Ferroly.Yaml

/-- The integer that text of the form `-?digits` shows. -/
def shownInteger (s : Str) : Int :=
  let n : Int := Nat.ofDigitChars 10 (splitSign s).2 0
  if (splitSign s).1 then -n else n

/-- An integer as the first of `Int` and `UInt` that holds it. -/
def integerValue (n : Int) : Option Value :=
  match I64.ofInt? n with
  | some i => some (.int i)
  | none => if 0 ≤ n then (U64.ofNat? n.toNat).map Value.uint else none

/-- A float is read back as the integer its text shows if it is integer-valued and an integer type holds it. -/
def readBackFloat (D : FloatDisplay binary64) (f : F64) : Value :=
  if f.isIntegral then (integerValue (shownInteger (D.toText f))).getD (.float f) else .float f

mutual

/-- The value with its numbers in canonical form. -/
def readBack (D : FloatDisplay binary64) : Value → Value
  | .uint u => if h : u.val < 2 ^ 63 then .int (u.toI64 h) else .uint u
  | .float f => readBackFloat D f
  | .array a => .array (readBackList D a)
  | .object o => .object (readBackEntries D o)
  | v => v

def readBackList (D : FloatDisplay binary64) : List Value → List Value
  | [] => []
  | v :: a => readBack D v :: readBackList D a

def readBackEntries (D : FloatDisplay binary64) : List (Str × Value) → List (Str × Value)
  | [] => []
  | (k, v) :: o => (k, readBack D v) :: readBackEntries D o

end

theorem readBackList_eq_map (D : F64Display) (a : List Value) : readBackList D a = a.map (readBack D) := by
  induction a with
  | nil => rfl
  | cons v a ih => rw [readBackList, ih, List.map_cons]

theorem readBackEntries_eq_map (D : F64Display) (o : Object) : readBackEntries D o = o.map (fun e => (e.1, readBack D e.2)) := by
  induction o with
  | nil => rfl
  | cons e o ih =>
    obtain ⟨k, v⟩ := e
    rw [readBackEntries, ih, List.map_cons]

/-- Where a value stands: alone in the document, after a dash, or after a key. -/
inductive Place where
  | top
  | item
  | value
  deriving DecidableEq, Repr

/-- Whether a colon and a space follow each other in a string. -/
def hasColonSpace (s : Str) : Bool := containsStr s ": ".toList

mutual

/-- Whether a value is read back at a place. At the top level no empty container and no negative number is; a string with a
colon and a space only after a key; a key with them never. -/
def survives : Place → Value → Bool
  | .top, .int i => decide (0 ≤ i.val)
  | .top, .float f => !f.isNeg
  | p, .str s => p == .value || !hasColonSpace s
  | p, .array [] => p != .top
  | p, .object [] => p != .top
  | _, .array (v :: a) => survives .item v && allSurvive a
  | _, .object ((k, v) :: o) => !hasColonSpace k && survives .value v && entriesSurvive o
  | _, _ => true

def allSurvive : List Value → Bool
  | [] => true
  | v :: a => survives .item v && allSurvive a

def entriesSurvive : List (Str × Value) → Bool
  | [] => true
  | (k, v) :: o => !hasColonSpace k && survives .value v && entriesSurvive o

end

theorem allSurvive_iff {a : List Value} : allSurvive a = true ↔ ∀ v ∈ a, survives .item v = true := by
  induction a with
  | nil => simp [allSurvive]
  | cons v a ih => simp [allSurvive, ih]

theorem entriesSurvive_iff {o : Object} :
    entriesSurvive o = true ↔ ∀ e ∈ o, hasColonSpace e.1 = false ∧ survives .value e.2 = true := by
  induction o with
  | nil => simp [entriesSurvive]
  | cons e o ih =>
    obtain ⟨k, v⟩ := e
    simp [entriesSurvive, ih]

end Ferroly.Yaml
