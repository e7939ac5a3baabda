import Ferroly.Codec.Fmt
import Ferroly.Lib.Run

/-!
# The XML encoder

An object becomes one element for each entry, an array one element for each item under the tag of its entry, a scalar escaped text.
Each writer appends to the output.
-/

namespace Ferroly.Xml

/-- How a character is escaped in text, if it is. -/
def escapeOf (c : Char) : Option Str :=
  if c = '<' then some "&lt;".toList
  else if c = '>' then some "&gt;".toList
  else if c = '&' then some "&amp;".toList
  else none

/-- The loop of `escape_text`: `run` is the run of characters without an escape since the last one with. -/
def escapeTextLoop (out run : Str) : Str → Str
  | [] => out ++ run
  | c :: s =>
    match escapeOf c with
    | some esc => escapeTextLoop (out ++ run ++ esc) [] s
    | none => escapeTextLoop out (run ++ [c]) s

def escapeText (out s : Str) : Str := escapeTextLoop out [] s

/-- The loop that writes the bytes of a `Bytes` value; `i` is the index of the next one. -/
def writeBytesLoop (out : Str) (i : Nat) : Bytes → Str
  | [] => out
  | b :: bs =>
    let out := if i > 0 then out ++ [' '] else out
    writeBytesLoop (Fmt.writeU64 out ⟨b.toNat, byte_fits b⟩) (i + 1) bs

def writeScalar (D : FloatDisplay binary64) (out : Str) : Value → Str
  | .null => out
  | .bool b => out ++ (if b then "true".toList else "false".toList)
  | .int i => Fmt.writeI64 out i
  | .uint u => Fmt.writeU64 out u
  | .float f => Fmt.writeF64 D out f
  | .str s => escapeText out s
  | .bytes b => writeBytesLoop out 0 b
  | .array _ => out
  | .object _ => out

mutual

/-- The elements of a value under a tag. -/
def writeElement (D : FloatDisplay binary64) (tag : Str) : Value → Str → Str
  | .array a, out =>
    if a.isEmpty then out ++ ['<'] ++ tag ++ "></".toList ++ tag ++ ['>'] else writeItems D tag a out
  | .object o, out => writeEntries D o (out ++ ['<'] ++ tag ++ ['>']) ++ "</".toList ++ tag ++ ['>']
  | .null, out => out ++ ['<'] ++ tag ++ "></".toList ++ tag ++ ['>']
  | v, out => writeScalar D (out ++ ['<'] ++ tag ++ ['>']) v ++ "</".toList ++ tag ++ ['>']

/-- The items of an array, each under the tag. -/
def writeItems (D : FloatDisplay binary64) (tag : Str) : List Value → Str → Str
  | [], out => out
  | v :: a, out => writeItems D tag a (writeElement D tag v out)

/-- The entries of an object, each under its key. -/
def writeEntries (D : FloatDisplay binary64) : List (Str × Value) → Str → Str
  | [], out => out
  | (k, v) :: o, out => writeEntries D o (writeElement D k v out)

end

/-- What stands between the tags of a value's element. -/
def writeChildren (D : FloatDisplay binary64) (out itemTag : Str) : Value → Str
  | .object o => writeEntries D o out
  | .array a => writeItems D itemTag a out
  | v => writeScalar D out v

/-- Encode a value as an XML document. -/
def encodeValue (D : FloatDisplay binary64) (v : Value) : Str := writeChildren D "<root>".toList "item".toList v ++ "</root>".toList

end Ferroly.Xml
