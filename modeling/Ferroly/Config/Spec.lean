import Ferroly.Config.Builder

/-!
# What layers say

A layer speaks of a path wherever one of its entries stands there, the entries of a repeated key included. A value is seen at a
path if a lookup, which takes the last entry of each key, ends there.
-/

namespace Ferroly

namespace Value

/-- `w` stands at a path of the value, by any entries. -/
inductive Holds : Value → List Str → Value → Prop
  | here (v : Value) : Holds v [] v
  | entry {o : List (Str × Value)} {k : Str} {u w : Value} {path : List Str} (mem : (k, u) ∈ o) (rest : Holds u path w) :
      Holds (.object o) (k :: path) w

/-- A layer leaves a path alone: it says nothing of the path or of what is below it, and nothing but objects of what is above. -/
structure Leaves (x : Value) (path : List Str) : Prop where
  unmentioned : ∀ w, ¬x.Holds path w
  above : ∀ q w, q <+: path → x.Holds q w → w.isObject = true

/-- The value seen at a path. -/
def lookup : Value → List Str → Option Value
  | v, [] => some v
  | v, k :: path => (v.get k).bind (fun u => u.lookup path)

/-- The values a key has in an object, in order. -/
def valuesOf (v : Value) (k : Str) : List Value := occurrences k (v.asObject.getD [])

/-- Nothing else than `v` hides what the last of the values, which are merged one onto the other, has at a path. The objects at the
end of the list are merged into the first of them; if that one repeats the next key, what it has itself is what is seen. -/
def unshadowed (v : Value) : List Str → List Value → Bool
  | [], _ => true
  | k :: path, values =>
    match values.rtakeWhile isObject with
    | [] => true
    | u :: us =>
      if 2 ≤ (u.valuesOf k).length then decide (u.lookup (k :: path) = some v)
      else unshadowed v path ((u :: us).flatMap (fun x => x.valuesOf k))

end Value

namespace Config

/-- The path a key stands for. -/
def path (key : Str) : List Str := (split '.' key).filter (fun seg => seg != [])

/-- Whatever is decoded from a key is decoded from `v`. -/
def Sees (c : Config) (key : Str) (v : Value) : Prop :=
  ∀ (α : Type) (decode : Value → Except CodecError α), c.get decode key = (decode v).mapError .codec

/-- Whether a file of a format says nothing at all: a YAML file without a line that counts, or an XML file with an empty root
element. -/
def isBlank (format : FileFormat) (bytes : Bytes) : Bool :=
  match format with
  | .yaml => ((fromUtf8 bytes).map Yaml.preprocess == some [])
  | .xml => ((fromUtf8 bytes).map Xml.fromStr matches some (.ok .null))
  | _ => false

def isBlankFile (file : Str) (bytes : Bytes) : Bool := (fileFormat file).any (fun format => isBlank format bytes)

/-- What a file says at its root, if it says anything. -/
def document (file : Str) (bytes : Bytes) : Option Value :=
  if isBlankFile file bytes then none else (loadFile file (.ok bytes)).toOption

end Config

end Ferroly
