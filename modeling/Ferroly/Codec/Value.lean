import Ferroly.Lib.Float
import Mathlib.Data.List.MinMax

/-!
# The codec's data model

`Value` is the tree every codec reads and writes, `CodecError` what it fails with. An `Object` keeps its entries in order and may
repeat a key.
-/

namespace Ferroly

open List

/-- Rust's `i64`. -/
abbrev I64 := { i : Int // -(2 ^ 63) ≤ i ∧ i < 2 ^ 63 }

/-- Rust's `u64`. -/
abbrev U64 := { n : Nat // n < 2 ^ 64 }

theorem byte_fits (b : UInt8) : b.toNat < 2 ^ 64 := Nat.lt_trans b.toNat_lt (by decide)

/-- A format-agnostic data value. -/
inductive Value where
  | null
  | bool (b : Bool)
  | int (i : I64)
  | uint (u : U64)
  | float (f : F64)
  | str (s : Str)
  | bytes (b : Bytes)
  | array (a : List Value)
  | object (o : List (Str × Value))

/-- The entries of an object, in order. -/
abbrev Object := List (Str × Value)

/-- Errors raised across parsing and value conversion. -/
inductive CodecError where
  | unsupportedContentType (ct : String)
  | parse (msg : String)
  | expected (what : String)
  | missingField (name : String)
  | unknownVariant (name : String)
  | outOfRange (ty : String)
  | message (msg : String)
  deriving DecidableEq, Repr

namespace Value

/-- The entries of an object. -/
def asObject : Value → Option (List (Str × Value))
  | .object o => some o
  | _ => none

/-- The characters of a string. -/
def asStr : Value → Option Str
  | .str s => some s
  | _ => none

def isObject : Value → Bool
  | .object _ => true
  | _ => false

def isNull : Value → Bool
  | .null => true
  | _ => false

end Value

/-- The value of a key in the entries of an object: the last one, if the key is repeated. -/
def find (obj : List (Str × Value)) (key : Str) : Option Value := (obj.reverse.find? (fun e => e.1 == key)).map Prod.snd

namespace Value

/-- The value of a key of an object. -/
def get (v : Value) (key : Str) : Option Value := v.asObject.bind (fun o => find o key)

/-- Induction over a value: an array from its elements, an object from the values of its entries. -/
@[elab_as_elim] theorem ind {P : Value → Prop} (null : P .null) (bool : ∀ b, P (.bool b)) (int : ∀ i, P (.int i))
    (uint : ∀ u, P (.uint u)) (float : ∀ f, P (.float f)) (str : ∀ s, P (.str s)) (bytes : ∀ b, P (.bytes b))
    (array : ∀ a, (∀ v ∈ a, P v) → P (.array a)) (object : ∀ o, (∀ e ∈ o, P e.2) → P (.object o)) (v : Value) : P v :=
  @Value.rec P (fun a => ∀ v ∈ a, P v) (fun o => ∀ e ∈ o, P e.2) (fun e => P e.2) null bool int uint float str bytes array object
    nofun
    (fun _ _ hv ha _ hw => (mem_cons.mp hw).elim (fun e => e ▸ hv) (ha _))
    nofun
    (fun _ _ he ho _ hw => (mem_cons.mp hw).elim (fun e => e ▸ he) (ho _))
    (fun _ _ h => h) v

end Value

/-! ## Equality

Equality of trees as data, in which a NaN equals itself, is decidable. -/

mutual

def Value.same : Value → Value → Bool
  | .null, .null => true
  | .bool a, .bool b => a == b
  | .int a, .int b => a == b
  | .uint a, .uint b => a == b
  | .float a, .float b => a == b
  | .str a, .str b => a == b
  | .bytes a, .bytes b => a == b
  | .array a, .array b => Value.sameList a b
  | .object a, .object b => Value.sameEntries a b
  | _, _ => false

def Value.sameList : List Value → List Value → Bool
  | [], [] => true
  | v :: a, w :: b => v.same w && Value.sameList a b
  | _, _ => false

def Value.sameEntries : List (Str × Value) → List (Str × Value) → Bool
  | [], [] => true
  | (k, v) :: a, (l, w) :: b => k == l && v.same w && Value.sameEntries a b
  | _, _ => false

end

theorem Value.sameList_iff {a b : List Value} (ih : ∀ v ∈ a, ∀ w, v.same w = true ↔ v = w) : Value.sameList a b = true ↔ a = b := by
  induction a generalizing b with
  | nil => cases b <;> simp [Value.sameList]
  | cons v a iha =>
    cases b with
    | nil => simp [Value.sameList]
    | cons w b => simp [Value.sameList, ih v mem_cons_self, iha (forall_mem_cons.mp ih).2]

theorem Value.sameEntries_iff {a b : Object} (ih : ∀ e ∈ a, ∀ w, e.2.same w = true ↔ e.2 = w) :
    Value.sameEntries a b = true ↔ a = b := by
  induction a generalizing b with
  | nil => cases b <;> simp [Value.sameEntries]
  | cons e a iha =>
    cases b with
    | nil => simp [Value.sameEntries]
    | cons e' b =>
      have hv := ih e mem_cons_self
      simp [Value.sameEntries, hv, iha (forall_mem_cons.mp ih).2, Prod.ext_iff]

theorem Value.same_iff (v w : Value) : v.same w = true ↔ v = w := by
  induction v using Value.ind generalizing w with
  | array a ih => cases w <;> simp [Value.same, Value.sameList_iff ih]
  | object o ih => cases w <;> simp [Value.same, Value.sameEntries_iff ih]
  | _ => cases w <;> simp [Value.same, Subtype.ext_iff]

instance : DecidableEq Value := fun v w => decidable_of_iff _ (Value.same_iff v w)

/-! ## Nesting -/

mutual

/-- How deep arrays and objects nest in a value. -/
def Value.depth : Value → Nat
  | .array a => Value.depthList a + 1
  | .object o => Value.depthEntries o + 1
  | _ => 0

/-- The deepest of a list of values. -/
def Value.depthList : List Value → Nat
  | [] => 0
  | v :: a => max v.depth (Value.depthList a)

/-- The deepest of the values of a list of entries. -/
def Value.depthEntries : List (Str × Value) → Nat
  | [] => 0
  | (_, v) :: o => max v.depth (Value.depthEntries o)

end

variable {a : List Value}

theorem Value.depthList_le {n : Nat} : Value.depthList a ≤ n ↔ ∀ v ∈ a, v.depth ≤ n := by
  induction a with
  | nil => simp [Value.depthList]
  | cons v a ih => simp [Value.depthList, ih]

variable {o : Object}

theorem Value.depthEntries_le {n : Nat} : Value.depthEntries o ≤ n ↔ ∀ e ∈ o, e.2.depth ≤ n := by
  induction o with
  | nil => simp [Value.depthEntries]
  | cons e o ih =>
    obtain ⟨k, v⟩ := e
    simp [Value.depthEntries, ih]

theorem Value.depth_lt_array {v : Value} (h : v ∈ a) : v.depth < (Value.array a).depth := by
  have := Value.depthList_le.mp (Nat.le_refl (Value.depthList a)) v h
  rw [Value.depth]
  omega

theorem Value.depth_lt_object {e : Str × Value} (h : e ∈ o) : e.2.depth < (Value.object o).depth := by
  have := Value.depthEntries_le.mp (Nat.le_refl (Value.depthEntries o)) e h
  rw [Value.depth]
  omega

/-! ## Values that text can show -/

mutual

/-- No `Bytes` anywhere and only finite floats. -/
def Value.isPlain : Value → Bool
  | .float f => f.isFinite
  | .bytes _ => false
  | .array a => Value.allPlain a
  | .object o => Value.entriesPlain o
  | _ => true

def Value.allPlain : List Value → Bool
  | [] => true
  | v :: a => v.isPlain && Value.allPlain a

def Value.entriesPlain : List (Str × Value) → Bool
  | [] => true
  | (_, v) :: o => v.isPlain && Value.entriesPlain o

end

theorem Value.allPlain_iff : Value.allPlain a = true ↔ ∀ v ∈ a, v.isPlain = true := by
  induction a with
  | nil => simp [Value.allPlain]
  | cons v a ih => simp [Value.allPlain, ih]

theorem Value.entriesPlain_iff : Value.entriesPlain o = true ↔ ∀ e ∈ o, e.2.isPlain = true := by
  induction o with
  | nil => simp [Value.entriesPlain]
  | cons e o ih =>
    obtain ⟨k, v⟩ := e
    simp [Value.entriesPlain, ih]

/-! ## Integers as numbers -/

/-- An unsigned integer that an `i64` can hold, as one. -/
def U64.toI64 (u : U64) (h : u.val < 2 ^ 63) : I64 := ⟨u.val, by omega⟩

mutual

/-- The value with every unsigned integer that fits an `i64` as a signed one: what a text codec reads a document back as. -/
def Value.norm : Value → Value
  | .uint u => if h : u.val < 2 ^ 63 then .int (u.toI64 h) else .uint u
  | .array a => .array (Value.normList a)
  | .object o => .object (Value.normEntries o)
  | v => v

def Value.normList : List Value → List Value
  | [] => []
  | v :: a => v.norm :: Value.normList a

def Value.normEntries : List (Str × Value) → List (Str × Value)
  | [] => []
  | (k, v) :: o => (k, v.norm) :: Value.normEntries o

end

theorem Value.normList_eq_map (a : List Value) : Value.normList a = a.map Value.norm := by
  induction a with
  | nil => rfl
  | cons v a ih => rw [Value.normList, ih, map_cons]

theorem Value.normEntries_eq_map (o : Object) : Value.normEntries o = o.map (fun e => (e.1, e.2.norm)) := by
  induction o with
  | nil => rfl
  | cons e o ih =>
    obtain ⟨k, v⟩ := e
    rw [Value.normEntries, ih, map_cons]

theorem Value.get_norm (v : Value) (key : Str) : v.norm.get key = (v.get key).map Value.norm := by
  cases v with
  | object o =>
    rw [Value.norm, Value.normEntries_eq_map]
    simp only [Value.get, Value.asObject, Option.bind_some, find, ← map_reverse, find?_map, Option.map_map]
    rfl
  | uint u =>
    rw [Value.norm]
    split <;> rfl
  | null | bool | int | float | str | bytes | array => rfl

end Ferroly
