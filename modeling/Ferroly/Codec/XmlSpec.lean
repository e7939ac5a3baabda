import Ferroly.Codec.Xml
import Ferroly.Codec.XmlWrite

/-!
# What an XML document is read as

The prolog of a document, as a text, and the projection that writing a value as XML and reading it back makes of it.
-/

namespace Ferroly.Xml

/-! ## The prolog -/

/-- The white space of XML. -/
def isSpace (c : Char) : Bool := c == ' ' || c == '\t' || c == '\n' || c == '\r'

/-- The text has, before its root element, a declaration or a comment that does not end. -/
inductive OpenProlog : Str → Prop where
  | declaration {s : Str} : splitOnceStr "?>".toList ('<' :: '?' :: s) = none → OpenProlog ('<' :: '?' :: s)
  | comment {s : Str} : splitOnceStr "-->".toList s = none → OpenProlog ('<' :: '!' :: '-' :: '-' :: s)
  | space {c : Char} {s : Str} : isSpace c = true → OpenProlog s → OpenProlog (c :: s)
  | afterDeclaration {s a r : Str} : splitOnceStr "?>".toList ('<' :: '?' :: s) = some (a, r) → OpenProlog r →
      OpenProlog ('<' :: '?' :: s)
  | afterComment {s a r : Str} : splitOnceStr "-->".toList s = some (a, r) → OpenProlog r →
      OpenProlog ('<' :: '!' :: '-' :: '-' :: s)

/-! ## Values that have a document -/

/-- A name that the parser reads as one. -/
def isName (k : Str) : Bool := !k.isEmpty && (utf8 k).all isNameByte

mutual

/-- All keys are names. -/
def keysAreNames : Value → Bool
  | .array a => itemsHaveNames a
  | .object o => entriesHaveNames o
  | _ => true

def itemsHaveNames : List Value → Bool
  | [] => true
  | v :: a => keysAreNames v && itemsHaveNames a

def entriesHaveNames : List (Str × Value) → Bool
  | [] => true
  | (k, v) :: o => isName k && keysAreNames v && entriesHaveNames o

end

mutual

/-- How many levels of elements a value takes: an object one more than its entries, an array no more than its items. -/
def height : Value → Nat
  | .array a => max 1 (itemsHeight a)
  | .object o => entriesHeight o + 1
  | _ => 1

def itemsHeight : List Value → Nat
  | [] => 0
  | v :: a => max (height v) (itemsHeight a)

def entriesHeight : List (Str × Value) → Nat
  | [] => 0
  | (_, v) :: o => max (height v) (entriesHeight o)

end

/-! ## The projection -/

/-- The text of a scalar, before it is escaped. -/
def scalarText (D : FloatDisplay binary64) : Value → Str
  | .str s => s
  | v => writeScalar D [] v

/-- Text as a value: trimmed, and null if nothing is left. -/
def textValue (s : Str) : Value := if trim s = [] then .null else .str (trim s)

/-- The values of one tag: a single one as it is, several as an array. -/
def collapse : List Value → Value
  | [v] => v
  | vs => .array vs

/-- The children of an element by tag, each tag where it first occurs, with its values in order. -/
def group (children : List (Str × Value)) : List (Str × Value) :=
  (children.map Prod.fst).eraseDups.map (fun k => (k, collapse ((children.filter (fun e => e.1 == k)).map Prod.snd)))

/-- What an element with children holds. -/
def childrenValue (children : List (Str × Value)) : Value := if children = [] then .null else .object (group children)

mutual

/-- What the elements of a value hold, one after another: those of a nested array are all of its items, in order. -/
def elementValues (D : FloatDisplay binary64) : Value → List Value
  | .array a => if a.isEmpty then [.null] else itemValues D a
  | .object o => [childrenValue (entryValues D o)]
  | v => [textValue (scalarText D v)]

def itemValues (D : FloatDisplay binary64) : List Value → List Value
  | [] => []
  | v :: a => elementValues D v ++ itemValues D a

/-- The children that the entries of an object make, with their tags. -/
def entryValues (D : FloatDisplay binary64) : List (Str × Value) → List (Str × Value)
  | [] => []
  | (k, v) :: o => (elementValues D v).map (fun w => (k, w)) ++ entryValues D o

end

/-- What an object is read back as. -/
def project (D : FloatDisplay binary64) (o : List (Str × Value)) : Value := childrenValue (entryValues D o)

end Ferroly.Xml
