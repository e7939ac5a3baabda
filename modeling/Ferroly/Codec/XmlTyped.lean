import Ferroly.Codec.Traits
import Ferroly.Codec.XmlSpec

/-!
# Typed values as XML

`encode` and `decode` of the XML codec, and which typed values an XML document can hold: text is trimmed, an element without text
is null, and the items of a vector are elements beside one another, with nothing that marks where the vector begins or ends.
-/

namespace Ferroly.Xml

/-- Encode a value of a type as XML. -/
def encode (D : FloatDisplay binary64) (Γ : Env) (x : Data) : Str := encodeValue D (x.encode Γ)

/-- Decode a value of a type from XML. -/
def decode (Γ : Env) (t : Ty) (input : Str) : Res Data := do
  let value ← fromStr input
  Ferroly.decode Γ t value

/-- A value of a type built from strings, booleans, integers, options, vectors and derived structs, each struct with at least one
field and with distinct names as keys. -/
inductive Holds (Γ : Env) : Ty → Data → Prop where
  | bool (b : Bool) : Holds Γ (.scalar .bool) (.bool b)
  | int {w : IntTy} {i : I64} (h : w.inRange i = true) : Holds Γ (.scalar (.int w)) (.int i)
  | uint {w : UIntTy} {u : U64} (h : w.inRange u = true) : Holds Γ (.scalar (.uint w)) (.uint u)
  | string (s : Str) : Holds Γ .string (.str s)
  | none (t : Ty) : Holds Γ (.option t) .none
  | some {t : Ty} {d : Data} (h : Holds Γ t d) : Holds Γ (.option t) (.some d)
  | vec {t : Ty} {ds : List Data} (h : ∀ d ∈ ds, Holds Γ t d) : Holds Γ (.vec t) (.vec ds)
  | struct {name : String} {ds : List Data} (hne : Γ.plan name ≠ []) (hk : ((Γ.plan name).map Slot.key).Nodup)
      (hn : ∀ f ∈ Γ.plan name, isName f.key = true) (hl : ds.length = (Γ.plan name).length)
      (h : ∀ p ∈ (Γ.plan name).zip ds, Holds Γ p.1.ty p.2) : Holds Γ (.struct name) (.struct name ds)

mutual

/-- How many elements a value takes: a vector those of its items, and one if it is empty. -/
def elements : Data → Nat
  | .some d => elements d
  | .vec ds => if ds.isEmpty then 1 else itemElements ds
  | _ => 1

def itemElements : List Data → Nat
  | [] => 0
  | d :: ds => elements d + itemElements ds

end

/-- All fields of a struct are left out. -/
def skipsAll (plan : List Slot) (ds : List Data) : Bool := (plan.zip ds).all (fun p => p.1.skips p.2)

mutual

/-- The value is one element without content. -/
def isBlank (Γ : Env) : Data → Bool
  | .str s => (trim s).isEmpty
  | .none => true
  | .some d => isBlank Γ d
  | .vec ds => itemsBlank Γ ds
  | .struct name ds => skipsAll (Γ.plan name) ds
  | _ => false

/-- The same of a vector: it is empty, or has one item, which is blank. -/
def itemsBlank (Γ : Env) : List Data → Bool
  | [] => true
  | [d] => isBlank Γ d
  | _ => false

end

mutual

/-- XML keeps the value: no string is empty or has white space at its ends, no `Some` and no vector of one item is blank, no item of
a vector takes several elements, and no struct leaves all its fields out. -/
def isKept (Γ : Env) : Data → Bool
  | .str s => trim s == s && !s.isEmpty
  | .some d => isKept Γ d && !isBlank Γ d
  | .vec ds => itemsKept Γ ds && (ds.length != 1 || !itemsBlank Γ ds)
  | .struct name ds => !skipsAll (Γ.plan name) ds && fieldsKept Γ (Γ.plan name) ds
  | _ => true

def itemsKept (Γ : Env) : List Data → Bool
  | [] => true
  | d :: ds => elements d == 1 && isKept Γ d && itemsKept Γ ds

def fieldsKept (Γ : Env) : List Slot → List Data → Bool
  | f :: fs, d :: ds => (f.skips d || isKept Γ d) && fieldsKept Γ fs ds
  | _, _ => true

end

end Ferroly.Xml
