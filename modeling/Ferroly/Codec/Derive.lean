import Ferroly.Codec.Json

/-!
# Types of the codec and what the derives generate for them

The universe of types that implement `Encode` and `Decode`, and the plan a derive works out for a struct or an enum: the wire key
of each field or variant, whether `None` is skipped, and the type of the field. Structs and enums are declared by name in an
environment, so that a type may contain itself behind a `Box`, a `Vec` or a `HashMap`.
-/

namespace Ferroly

/-! ## Case conversion -/

/-- Unicode case mapping, which Rust's standard library supplies. -/
structure CaseMap where
  isUppercase : Char → Bool
  toUppercase : Char → Str
  toLowercase : Char → Str
  /-- `str::to_lowercase`, which looks at the neighbours of a final sigma. -/
  strToLowercase : Str → Str

/-- The mapping of the ASCII letters. -/
def asciiCaseMap : CaseMap where
  isUppercase := Char.isUpper
  toUppercase c := [c.toUpper]
  toLowercase c := [c.toLower]
  strToLowercase := toAsciiLowercase

namespace CaseMap

variable (C : CaseMap)

def strToUppercase (s : Str) : Str := s.flatMap C.toUppercase

/-- The loop of `to_snake`; `i` is the index of the next character. -/
def toSnakeLoop (i : Nat) : Str → Str
  | [] => []
  | c :: s =>
    if C.isUppercase c then (if i > 0 then ['_'] else []) ++ C.toLowercase c ++ toSnakeLoop (i + 1) s
    else c :: toSnakeLoop (i + 1) s

def toSnake (s : Str) : Str := C.toSnakeLoop 0 s

/-- The loop of `to_camel` over the parts between underscores. -/
def toCamelLoop (upper : Bool) : List Str → Str
  | [] => []
  | [] :: parts => toCamelLoop upper parts
  | (first :: chars) :: parts =>
    (if upper then C.toUppercase first else C.toLowercase first) ++ chars ++ toCamelLoop true parts

def toCamel (s : Str) (pascal : Bool) : Str := C.toCamelLoop pascal (split '_' s)

/-- Apply a `rename_all` rule to an identifier. -/
def applyRenameAll (name : Str) (rule : Option String) : Str :=
  match rule with
  | some "lowercase" => C.strToLowercase name
  | some "UPPERCASE" => C.strToUppercase name
  | some "snake_case" => C.toSnake name
  | some "SCREAMING_SNAKE_CASE" => C.strToUppercase (C.toSnake name)
  | some "kebab-case" => (C.toSnake name).map (fun c => if c = '_' then '-' else c)
  | some "camelCase" => C.toCamel name false
  | some "PascalCase" => C.toCamel name true
  | _ => name

end CaseMap

/-! ## Types -/

/-- The signed integer types; `isize` has 64 bits. -/
inductive IntTy where
  | i8 | i16 | i32 | i64 | isize
  deriving DecidableEq, Repr

/-- The unsigned integer types; `usize` has 64 bits. -/
inductive UIntTy where
  | u8 | u16 | u32 | u64 | usize
  deriving DecidableEq, Repr

namespace IntTy

def bits : IntTy → Nat
  | .i8 => 8
  | .i16 => 16
  | .i32 => 32
  | .i64 => 64
  | .isize => 64

def name : IntTy → String
  | .i8 => "i8"
  | .i16 => "i16"
  | .i32 => "i32"
  | .i64 => "i64"
  | .isize => "isize"

/-- Whether an `i64` is a value of the type. -/
def inRange (w : IntTy) (i : I64) : Bool := decide (-(2 ^ (w.bits - 1)) ≤ i.val) && decide (i.val < 2 ^ (w.bits - 1))

end IntTy

namespace UIntTy

def bits : UIntTy → Nat
  | .u8 => 8
  | .u16 => 16
  | .u32 => 32
  | .u64 => 64
  | .usize => 64

def name : UIntTy → String
  | .u8 => "u8"
  | .u16 => "u16"
  | .u32 => "u32"
  | .u64 => "u64"
  | .usize => "usize"

/-- Whether a `u64` is a value of the type. -/
def inRange (w : UIntTy) (u : U64) : Bool := decide (u.val < 2 ^ w.bits)

end UIntTy

/-- The types that keep the default `decode_from`: parse a value, then decode it. -/
inductive ScalarTy where
  | bool
  | int (w : IntTy)
  | uint (w : UIntTy)
  | f32
  | f64
  | char
  | unit
  | value
  deriving DecidableEq, Repr

/-- The types of the codec, as they are spelled in a declaration. -/
inductive Ty where
  | scalar (s : ScalarTy)
  | string
  | option (t : Ty)
  | vec (t : Ty)
  | box (t : Ty)
  | map (t : Ty)
  | struct (name : String)
  | enum (name : String)
  deriving DecidableEq, Repr

/-- Whether a type is spelled `Option<...>`. -/
def Ty.isOption : Ty → Bool
  | .option _ => true
  | _ => false

/-! ## Declarations -/

/-- The options of a field or variant. -/
structure MemberAttrs where
  rename : Option Str
  skipNone : Bool
  deriving DecidableEq, Repr

/-- A struct field. `skip_none` compiles only on an `Option`; an alias of one, which also compiles, is left out: a type is as it is
spelled. -/
structure Field where
  ident : Str
  attrs : MemberAttrs
  ty : Ty
  skipNone_isOption : attrs.skipNone = true → ty.isOption = true

/-- A unit variant. -/
structure Variant where
  ident : Str
  attrs : MemberAttrs

/-- A struct with named fields; `renameAll` is its container option. -/
structure StructDecl where
  renameAll : Option String
  fields : List Field

/-- An enum of unit variants. -/
structure EnumDecl where
  renameAll : Option String
  variants : List Variant

/-- The wire key of a member: its `rename`, or its identifier under the container's `rename_all`. -/
def wireKey (C : CaseMap) (renameAll : Option String) (attrs : MemberAttrs) (ident : Str) : Str :=
  attrs.rename.getD (C.applyRenameAll ident renameAll)

/-- What a derive keeps of a field: its wire key, whether `None` is skipped, and its type. -/
structure Slot where
  key : Str
  skipNone : Bool
  ty : Ty
  skipNone_isOption : skipNone = true → ty.isOption = true

/-- The derive's plan of a struct. -/
def StructDecl.plan (C : CaseMap) (s : StructDecl) : List Slot :=
  s.fields.map (fun f => ⟨wireKey C s.renameAll f.attrs f.ident, f.attrs.skipNone, f.ty, f.skipNone_isOption⟩)

/-- The wire keys of an enum's variants. -/
def EnumDecl.keys (C : CaseMap) (e : EnumDecl) : List Str := e.variants.map (fun v => wireKey C e.renameAll v.attrs v.ident)

/-- The declarations in scope. -/
structure Env where
  cases : CaseMap
  structs : String → StructDecl
  enums : String → EnumDecl

/-- The plan of a struct by name. -/
def Env.plan (Γ : Env) (name : String) : List Slot := (Γ.structs name).plan Γ.cases

/-- The variant keys of an enum by name. -/
def Env.variants (Γ : Env) (name : String) : List Str := (Γ.enums name).keys Γ.cases

/-- The types that a value of a type may hold values of, itself included. -/
inductive Ty.Reaches (Γ : Env) : Ty → Ty → Prop where
  | refl (t : Ty) : Reaches Γ t t
  | option {t u : Ty} : Reaches Γ t u → Reaches Γ (.option t) u
  | vec {t u : Ty} : Reaches Γ t u → Reaches Γ (.vec t) u
  | box {t u : Ty} : Reaches Γ t u → Reaches Γ (.box t) u
  | map {t u : Ty} : Reaches Γ t u → Reaches Γ (.map t) u
  | field {name : String} {f : Slot} {u : Ty} : f ∈ Γ.plan name → Reaches Γ f.ty u → Reaches Γ (.struct name) u

/-- The types directly inside of a type. -/
def Ty.children (Γ : Env) : Ty → List Ty
  | .option t => [t]
  | .vec t => [t]
  | .box t => [t]
  | .map t => [t]
  | .struct name => (Γ.plan name).map Slot.ty
  | _ => []

/-- A list of types that holds whatever is inside of them holds all that they reach. -/
theorem Ty.Reaches.mem_of_closed {Γ : Env} {types : List Ty} (hc : ∀ t ∈ types, ∀ u ∈ t.children Γ, u ∈ types) {t u : Ty}
    (h : t.Reaches Γ u) (ht : t ∈ types) : u ∈ types := by
  induction h with
  | refl => exact ht
  | option _ ih | vec _ ih | box _ ih | map _ ih => exact ih (hc _ ht _ List.mem_cons_self)
  | field hf _ ih => exact ih (hc _ ht _ (List.mem_map_of_mem hf))

/-- Whether no value of a type encodes to `Null`. -/
def Ty.neverNull : Ty → Bool
  | .scalar .unit => false
  | .scalar .value => false
  | .option _ => false
  | .box t => t.neverNull
  | _ => true

/-- What makes a type readable back from JSON, apart from the types inside of it: it is not `Value`, an `Option` can tell `None`
from its values, and members have keys of their own. -/
def Ty.IsReadable (Γ : Env) : Ty → Prop
  | .scalar .value => False
  | .option t => t.neverNull = true
  | .struct name => ((Γ.plan name).map Slot.key).Nodup
  | .enum name => (Γ.variants name).Nodup
  | _ => True

instance (Γ : Env) : DecidablePred (Ty.IsReadable Γ) := fun t =>
  match t with
  | .scalar .value => .isFalse id
  | .option t => inferInstanceAs (Decidable (t.neverNull = true))
  | .struct name => inferInstanceAs (Decidable ((Γ.plan name).map Slot.key).Nodup)
  | .enum name => inferInstanceAs (Decidable (Γ.variants name).Nodup)
  | .scalar .bool => .isTrue trivial
  | .scalar (.int _) => .isTrue trivial
  | .scalar (.uint _) => .isTrue trivial
  | .scalar .f32 => .isTrue trivial
  | .scalar .f64 => .isTrue trivial
  | .scalar .char => .isTrue trivial
  | .scalar .unit => .isTrue trivial
  | .string => .isTrue trivial
  | .vec _ => .isTrue trivial
  | .box _ => .isTrue trivial
  | .map _ => .isTrue trivial

end Ferroly
