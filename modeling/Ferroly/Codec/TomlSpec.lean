import Ferroly.Codec.Toml
import Mathlib.Data.List.Forall2

/-!
# What a TOML document reads back as

TOML has no null and one notation for both kinds of integer, so a document is read back without its null entries and with its
integers in canonical form. A table's entries that stand on lines of their own come before its subtables, so the order of keys
changes: `SameUpToKeyOrder` disregards it.
-/

namespace Ferroly.Toml

mutual

/-- The value without null entries and with every unsigned integer that fits an `i64` as a signed one. -/
def canonical : Value → Value
  | .uint u => if h : u.val < 2 ^ 63 then .int (u.toI64 h) else .uint u
  | .array a => .array (canonicalList a)
  | .object o => .object (canonicalEntries o)
  | v => v

def canonicalList : List Value → List Value
  | [] => []
  | v :: a => canonical v :: canonicalList a

def canonicalEntries : Table → Table
  | [] => []
  | (k, v) :: o => if v.isNull then canonicalEntries o else (k, canonical v) :: canonicalEntries o

end

/-- Equal up to the order of the keys within each object. -/
inductive SameUpToKeyOrder : Value → Value → Prop where
  | refl (v : Value) : SameUpToKeyOrder v v
  | array {a b : List Value} : List.Forall₂ SameUpToKeyOrder a b → SameUpToKeyOrder (.array a) (.array b)
  | object {o p q : Table} : o.map Prod.fst = p.map Prod.fst →
      List.Forall₂ SameUpToKeyOrder (o.map Prod.snd) (p.map Prod.snd) → p.Perm q → SameUpToKeyOrder (.object o) (.object q)

mutual

/-- No `Bytes`, no NaN, no null element of an array, and distinct keys in every object. -/
def isEncodable : Value → Bool
  | .float f => !f.isNan
  | .bytes _ => false
  | .array a => allEncodable a
  | .object o => decide (o.map Prod.fst).Nodup && entriesEncodable o
  | _ => true

def allEncodable : List Value → Bool
  | [] => true
  | v :: a => !v.isNull && isEncodable v && allEncodable a

def entriesEncodable : Table → Bool
  | [] => true
  | (_, v) :: o => isEncodable v && entriesEncodable o

end

mutual

/-- The values of a table that are written inline nest at most `MAX_DEPTH` deep, and so do those of its subtables. -/
def inlineShallow : Table → Bool
  | [] => true
  | (_, v) :: o => (if isSection v then sectionShallow v else decide (v.depth ≤ MAX_DEPTH)) && inlineShallow o

/-- The same for a subtable or an array of tables. -/
def sectionShallow : Value → Bool
  | .object o => inlineShallow o
  | .array a => tablesShallow a
  | _ => true

def tablesShallow : List Value → Bool
  | [] => true
  | v :: a => sectionShallow v && tablesShallow a

end

theorem canonicalList_eq_map (a : List Value) : canonicalList a = a.map canonical := by
  induction a with
  | nil => rfl
  | cons v a ih => rw [canonicalList, ih, List.map_cons]

theorem canonicalEntries_eq (o : Table) :
    canonicalEntries o = (o.filter (fun e => !e.2.isNull)).map (fun e => (e.1, canonical e.2)) := by
  induction o with
  | nil => rfl
  | cons e o ih =>
    obtain ⟨k, v⟩ := e
    rw [canonicalEntries, ih]
    cases hv : v.isNull with
    | true | false => simp [hv]

theorem allEncodable_iff {a : List Value} : allEncodable a = true ↔ ∀ v ∈ a, v.isNull = false ∧ isEncodable v = true := by
  induction a with
  | nil => simp [allEncodable]
  | cons v a ih => simp [allEncodable, ih]

theorem entriesEncodable_iff {o : Table} : entriesEncodable o = true ↔ ∀ e ∈ o, isEncodable e.2 = true := by
  induction o with
  | nil => simp [entriesEncodable]
  | cons e o ih =>
    obtain ⟨k, v⟩ := e
    simp [entriesEncodable, ih]

theorem isEncodable_object {o : Table} :
    isEncodable (.object o) = true ↔ (o.map Prod.fst).Nodup ∧ ∀ e ∈ o, isEncodable e.2 = true := by
  rw [isEncodable, Bool.and_eq_true, decide_eq_true_eq, entriesEncodable_iff]

theorem inlineShallow_iff {o : Table} : inlineShallow o = true ↔
    ∀ e ∈ o, if isSection e.2 then sectionShallow e.2 = true else e.2.depth ≤ MAX_DEPTH := by
  induction o with
  | nil => simp [inlineShallow]
  | cons e o ih =>
    obtain ⟨k, v⟩ := e
    rw [inlineShallow, Bool.and_eq_true, ih, List.forall_mem_cons]
    cases hv : isSection v with
    | true => simp
    | false => simp

theorem tablesShallow_iff {a : List Value} : tablesShallow a = true ↔ ∀ v ∈ a, sectionShallow v = true := by
  induction a with
  | nil => simp [tablesShallow]
  | cons v a ih => simp [tablesShallow, ih]

/-! ## Unicode escapes -/

end Ferroly.Toml
