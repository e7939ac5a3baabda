import Ferroly.Codec.Json

/-!
# The XML parser

The parser of the XML codec, over the bytes of the input. An element with children is an object in which the values of a repeated
tag make an array; an element without children is its trimmed text, or null if that is empty.
-/

namespace Ferroly.Xml

/-- How deep elements may nest. -/
def MAX_DEPTH : Nat := 128

/-- The parser's state: the bytes from its position on, whether the position is beyond the end of the input, and the number of
elements it is inside of. -/
structure Parser where
  rest : Bytes
  past : Bool
  depth : Nat
  deriving DecidableEq, Repr

/-- A parser of `α`s. -/
abbrev P (α : Type) := Run Parser CodecError α

def Parser.new (input : Str) : Parser := ⟨utf8 input, false, 0⟩

def peek : P (Option UInt8) := fun p => .ok (p.rest.head?, p)

/-- Move the position by `n` bytes, whether or not there are as many. -/
def advance (n : Nat) : P Unit := fun p =>
  .ok ((), { p with rest := p.rest.drop n, past := p.past || decide (p.rest.length < n) })

/-- Whether the input goes on with `s`. The slice from the position on panics beyond the end. -/
def startsWith (s : Str) : P Bool := fun p => if p.past then .error .panic else .ok ((utf8 s).isPrefixOf p.rest, p)

/-- A slice of the input as text: it panics off a character boundary. -/
def slice (b : Bytes) : P Str :=
  match fromUtf8 b with
  | some s => pure s
  | none => Run.panic

/-- Advance over the bytes that satisfy `q`, and return them. -/
def takeWhile (q : UInt8 → Bool) : P Bytes := fun p => .ok (p.rest.takeWhile q, { p with rest := p.rest.dropWhile q })

def skipWs : P Unit := fun p => .ok ((), { p with rest := p.rest.dropWhile Json.isWs })

/-- The bytes from the first occurrence of `s` on. -/
def dropUntil (s : Bytes) : Bytes → Bytes
  | [] => []
  | b :: t => if s.isPrefixOf (b :: t) then b :: t else dropUntil s t

/-- Go on to the first occurrence of `s`, or to the end. -/
def skipUntil (s : Str) : P Unit := fun p => .ok ((), { p with rest := dropUntil (utf8 s) p.rest })

def skipComment : P Unit := do
  advance 4
  skipUntil "-->".toList
  advance 3

/-- The loop of `skipProlog`. -/
def skipPrologLoop : Nat → P Unit
  | 0 => Run.diverge
  | fuel + 1 => do
    skipWs
    if ← startsWith "<?".toList then
      skipUntil "?>".toList
      advance 2
      skipPrologLoop fuel
    else if ← startsWith "<!--".toList then
      skipComment
      skipPrologLoop fuel
    else pure ()

/-- Skip declarations, comments and whitespace before the root element. -/
def skipProlog : P Unit := do
  let p ← Run.get
  skipPrologLoop (p.rest.length + 1)

/-! ## Names and entities -/

/-- A byte of a name: an ASCII name character, or any byte of a longer character. -/
def isNameByte (b : UInt8) : Bool :=
  let n := b.toNat
  (decide (48 ≤ n) && decide (n ≤ 57)) || (decide (65 ≤ n) && decide (n ≤ 90)) || (decide (97 ≤ n) && decide (n ≤ 122)) ||
    b == byte '_' || b == byte '-' || b == byte '.' || b == byte ':' || decide (0x80 ≤ n)

def readName : P Str := do
  let name ← takeWhile isNameByte
  if name = [] then Run.fail (.parse "expected element name") else slice name

/-- The character of a reference, `radix` being that of its digits. -/
def charReference (radix : Nat) (digits : Str) : P Char :=
  match (parseUnsigned 32 radix digits).bind Json.charFromU32 with
  | some c => pure c
  | none => Run.fail (.parse "bad char reference")

/-- The character of an entity. -/
def entityChar (ent : Str) : P Char :=
  if ent = "lt".toList then pure '<'
  else if ent = "gt".toList then pure '>'
  else if ent = "amp".toList then pure '&'
  else if ent = "quot".toList then pure '"'
  else if ent = "apos".toList then pure '\''
  else if Ferroly.startsWith ent "#x".toList || Ferroly.startsWith ent "#X".toList then charReference 16 (ent.drop 2)
  else if ent.head? = some '#' then charReference 10 ent.tail
  else Run.fail (.parse ("unknown entity &" ++ String.ofList ent ++ ";"))

/-- An entity reference after its `&`, with the `;` at its end if there is one. -/
def readEntity : P Char := do
  let ent ← takeWhile (fun b => b != byte ';')
  let ent ← slice ent
  if (← peek) = some (byte ';') then advance 1
  entityChar ent

/-! ## Elements -/

/-- Add a child. A repeated tag makes an array of the values. -/
def pushChild (children : List (Str × Value)) (tag : Str) (value : Value) : List (Str × Value) :=
  match children with
  | [] => [(tag, value)]
  | (k, v) :: rest =>
    if k = tag then
      match v with
      | .array a => (k, .array (a ++ [value])) :: rest
      | v => (k, .array [v, value]) :: rest
    else (k, v) :: pushChild rest tag value

/-- What an element holds, from its children and its text. -/
def content (children : List (Str × Value)) (text : Str) : Value :=
  if children = [] then
    if trim text = [] then .null else .str (trim text)
  else .object children

/-- The bytes from the end of a start tag's attributes on. -/
def dropAttributes : Bytes → Bytes
  | [] => []
  | b :: t => if b = byte '>' ∨ (b = byte '/' ∧ t.head? = some (byte '>')) then b :: t else dropAttributes t

def skipAttributes : P Unit := fun p => .ok ((), { p with rest := dropAttributes p.rest })

/-- One more level of nesting. -/
def enter : P Unit := fun p =>
  if p.depth + 1 > MAX_DEPTH then .error (.error (.parse "nesting too deep"))
  else .ok ((), { p with depth := p.depth + 1 })

def leave : P Unit := fun p => if p.depth = 0 then .error .panic else .ok ((), { p with depth := p.depth - 1 })

/-- The loop of `parseContent`, given how to parse an element: the children and the text so far, and the bytes of the text run at
hand. -/
def parseContentLoop (element : P (Str × Value)) (tag : Str) : Nat → List (Str × Value) → Str → Bytes → P Value
  | 0, _, _, _ => Run.diverge
  | fuel + 1, children, text, run => do
    match ← peek with
    | none => Run.fail (.parse "unexpected end of input")
    | some b =>
      if b = byte '<' then
        let clean ← slice run
        if ← startsWith "<!--".toList then
          skipComment
          parseContentLoop element tag fuel children (text ++ clean) []
        else if ← startsWith "</".toList then
          advance 2
          let close ← readName
          skipWs
          if (← peek) ≠ some (byte '>') then Run.fail (.parse "malformed close tag")
          else
            advance 1
            if close ≠ tag then
              Run.fail (.parse ("mismatched tags: <" ++ String.ofList tag ++ "> vs </" ++ String.ofList close ++ ">"))
            else pure (content children (text ++ clean))
        else
          enter
          let (childTag, childVal) ← element
          leave
          parseContentLoop element tag fuel (pushChild children childTag childVal) (text ++ clean) []
      else if b = byte '&' then
        let clean ← slice run
        advance 1
        let c ← readEntity
        parseContentLoop element tag fuel children (text ++ clean ++ [c]) []
      else
        advance 1
        parseContentLoop element tag fuel children text (run ++ [b])

/-- The content of an element, up to and with its close tag. -/
def parseContent (element : P (Str × Value)) (tag : Str) : P Value := do
  let p ← Run.get
  parseContentLoop element tag (p.rest.length + 1) [] [] []

/-- An element, with its tag; the fuel bounds the nesting, which `MAX_DEPTH` bounds. -/
def parseElementFuel : Nat → P (Str × Value)
  | 0 => Run.diverge
  | fuel + 1 => do
    skipWs
    if (← peek) ≠ some (byte '<') then Run.fail (.parse "expected '<' to start element")
    else
      advance 1
      let tag ← readName
      skipAttributes
      if ← startsWith "/>".toList then
        advance 2
        pure (tag, .null)
      else if (← peek) ≠ some (byte '>') then Run.fail (.parse "malformed start tag")
      else
        advance 1
        let value ← parseContent (parseElementFuel fuel) tag
        pure (tag, value)

def parseElement : P (Str × Value) := parseElementFuel (MAX_DEPTH + 2)

/-- Parse an XML document: what its root element holds. What follows that element is not looked at. -/
def fromStr (input : Str) : Except (Fault CodecError) Value :=
  match (do skipProlog; parseElement : P (Str × Value)) (.new input) with
  | .ok ((_, value), _) => .ok value
  | .error e => .error e

end Ferroly.Xml
