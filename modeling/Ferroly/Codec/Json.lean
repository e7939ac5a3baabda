import Ferroly.Codec.Fmt
import Ferroly.Lib.Run

/-!
# The JSON codec

The streaming encoder and the parser. The encoder appends tokens to its output and keeps, for each open container, whether its
next entry is the first. The parser scans the UTF-8 bytes of its input, counts the containers it is inside of, and doubles as
the streaming decoder that `decode_from` pulls from.
-/

namespace Ferroly.Json

/-! ## Encoder -/

/-- The streaming output sink. The stack of first-entry flags has the innermost container first. -/
structure JsonEncoder where
  out : Str
  first : List Bool
  deriving DecidableEq, Repr

namespace JsonEncoder

def new : JsonEncoder := ⟨[], []⟩

/-- Append to the output. -/
def push (e : JsonEncoder) (s : Str) : JsonEncoder := { e with out := e.out ++ s }

/-- The comma before an entry, except the first. -/
def sep (e : JsonEncoder) : JsonEncoder :=
  match e.first with
  | [] => e
  | true :: fs => { e with first := false :: fs }
  | false :: _ => e.push [',']

end JsonEncoder

/-- The four hexadecimal digits of `{:04x}`. -/
def hex4 (n : Nat) : Str := (Nat.toDigits 16 n).leftpad 4 '0'

/-- How a character is escaped, if it is. -/
def escapeOf (c : Char) : Option Str :=
  if c = '"' then some ['\\', '"']
  else if c = '\\' then some ['\\', '\\']
  else if c = '\n' then some ['\\', 'n']
  else if c = '\r' then some ['\\', 'r']
  else if c = '\t' then some ['\\', 't']
  else if c = '\x08' then some ['\\', 'b']
  else if c = '\x0c' then some ['\\', 'f']
  else if c.toNat < 0x20 then some ('\\' :: 'u' :: hex4 c.toNat)
  else none

/-- The loop of `write_string`: `run` is the clean run since the last escape. The source's loop over bytes stays in the run at
every byte of a multibyte character. -/
def writeStringLoop (out run : Str) : Str → Str
  | [] => out ++ run
  | c :: s =>
    match escapeOf c with
    | some escape => writeStringLoop (out ++ run ++ escape) [] s
    | none => writeStringLoop out (run ++ [c]) s

/-- Append a quoted, escaped string. -/
def writeString (out s : Str) : Str := writeStringLoop (out ++ ['"']) [] s ++ ['"']

namespace JsonEncoder

def encodeNull (e : JsonEncoder) : JsonEncoder := e.push "null".toList

def encodeBool (e : JsonEncoder) (v : Bool) : JsonEncoder := e.push (if v then "true".toList else "false".toList)

def encodeI64 (e : JsonEncoder) (v : I64) : JsonEncoder := { e with out := Fmt.writeI64 e.out v }

def encodeU64 (e : JsonEncoder) (v : U64) : JsonEncoder := { e with out := Fmt.writeU64 e.out v }

def encodeF64 (D : FloatDisplay binary64) (e : JsonEncoder) (v : F64) : JsonEncoder :=
  { e with out := Fmt.writeJsonF64 D e.out v }

def encodeStr (e : JsonEncoder) (v : Str) : JsonEncoder := { e with out := writeString e.out v }

/-- A byte as a `u64`. -/
def byteU64 (b : UInt8) : U64 := ⟨b.toNat, byte_fits b⟩

/-- The loop of `encode_bytes`; `i` is the index of the next byte. -/
def encodeBytesLoop (e : JsonEncoder) (i : Nat) : Bytes → JsonEncoder
  | [] => e
  | b :: v =>
    let e := if i > 0 then e.push [','] else e
    encodeBytesLoop (e.encodeU64 (byteU64 b)) (i + 1) v

/-- Raw bytes as an array of integers. -/
def encodeBytes (e : JsonEncoder) (v : Bytes) : JsonEncoder := ((e.push ['[']).encodeBytesLoop 0 v).push [']']

def beginSeq (e : JsonEncoder) (_len : Nat) : JsonEncoder := ⟨e.out ++ ['['], true :: e.first⟩

/-- An element; `encodeTo` writes it. -/
def seqEntry (e : JsonEncoder) (encodeTo : JsonEncoder → JsonEncoder) : JsonEncoder := encodeTo e.sep

def endSeq (e : JsonEncoder) : JsonEncoder := ⟨e.out ++ [']'], e.first.tail⟩

def beginMap (e : JsonEncoder) (_len : Nat) : JsonEncoder := ⟨e.out ++ ['\x7b'], true :: e.first⟩

/-- An entry; `encodeTo` writes its value. -/
def mapEntry (e : JsonEncoder) (key : Str) (encodeTo : JsonEncoder → JsonEncoder) : JsonEncoder :=
  let e := e.sep
  encodeTo { e with out := writeString e.out key ++ [':'] }

def endMap (e : JsonEncoder) : JsonEncoder := ⟨e.out ++ ['\x7d'], e.first.tail⟩

end JsonEncoder

mutual

/-- Replay a value onto the encoder. -/
def emitValue (D : FloatDisplay binary64) : Value → JsonEncoder → JsonEncoder
  | .null, e => e.encodeNull
  | .bool b, e => e.encodeBool b
  | .int i, e => e.encodeI64 i
  | .uint u, e => e.encodeU64 u
  | .float f, e => e.encodeF64 D f
  | .str s, e => e.encodeStr s
  | .bytes b, e => e.encodeBytes b
  | .array a, e => (emitSeq D a (e.beginSeq a.length)).endSeq
  | .object o, e => (emitMap D o (e.beginMap o.length)).endMap

/-- The elements of an array. -/
def emitSeq (D : FloatDisplay binary64) : List Value → JsonEncoder → JsonEncoder
  | [], e => e
  | x :: a, e => emitSeq D a (e.seqEntry (emitValue D x))

/-- The entries of an object. -/
def emitMap (D : FloatDisplay binary64) : List (Str × Value) → JsonEncoder → JsonEncoder
  | [], e => e
  | (k, x) :: o, e => emitMap D o (e.mapEntry k (emitValue D x))

end

/-- A value as compact JSON. -/
def toString (D : FloatDisplay binary64) (value : Value) : Str := (emitValue D value .new).out

/-! ## Parser -/

/-- How deep containers may nest. -/
def MAX_DEPTH : Nat := 128

/-- The parser's state: the bytes from its position on and the number of containers it is inside of. -/
structure Parser where
  rest : Bytes
  depth : Nat
  deriving DecidableEq, Repr

/-- A parser of `α`s. -/
abbrev P (α : Type) := Run Parser CodecError α

def Parser.new (input : Str) : Parser := ⟨utf8 input, 0⟩

/-- Enter a nested container. -/
def enter : P Unit := fun p =>
  if p.depth + 1 > MAX_DEPTH then .error (.error (.parse "nesting too deep"))
  else .ok ((), { p with depth := p.depth + 1 })

/-- Leave it again. -/
def leave : P Unit := fun p => if p.depth = 0 then .error .panic else .ok ((), { p with depth := p.depth - 1 })

def peek : P (Option UInt8) := fun p => .ok (p.rest.head?, p)

def bump : P (Option UInt8) := fun p => .ok (p.rest.head?, { p with rest := p.rest.tail })

/-- Advance over the bytes that satisfy `q`, and return them. -/
def takeWhile (q : UInt8 → Bool) : P Bytes := fun p => .ok (p.rest.takeWhile q, { p with rest := p.rest.dropWhile q })

def isWs (b : UInt8) : Bool := b == byte ' ' || b == byte '\t' || b == byte '\n' || b == byte '\r'

def skipWs : P Unit := fun p => .ok ((), { p with rest := p.rest.dropWhile isWs })

/-- A slice of the input as text: it panics off a character boundary. -/
def slice (b : Bytes) : P Str :=
  match fromUtf8 b with
  | some s => pure s
  | none => Run.panic

/-- A byte as the character of that number, in quotes. -/
def quoted (b : UInt8) : String := "'" ++ String.singleton (Char.ofNat b.toNat) ++ "'"

def expect (b : UInt8) : P Unit := do
  let got ← bump
  if got = some b then pure () else Run.fail (.parse ("expected " ++ quoted b))

/-- Whether the input goes on with a literal, which is then consumed. -/
def takeLiteral (lit : Str) : P Bool := fun p =>
  if (utf8 lit).isPrefixOf p.rest then .ok (true, { p with rest := p.rest.drop (utf8 lit).length }) else .ok (false, p)

def parseBool : P Value := do
  if ← takeLiteral "true".toList then pure (.bool true)
  else if ← takeLiteral "false".toList then pure (.bool false)
  else Run.fail (.parse "invalid literal")

def parseNull : P Value := do
  if ← takeLiteral "null".toList then pure .null else Run.fail (.parse "invalid literal")

/-! ### Strings -/

/-- `char::from_u32`. -/
def charFromU32 (n : Nat) : Option Char := if n.isValidChar then some (Char.ofNat n) else none

/-- The loop of `read_hex4`, with the number of digits to go. -/
def readHex : Nat → Nat → P Nat
  | 0, v => pure v
  | n + 1, v => do
    match ← bump with
    | none => Run.fail (.parse "short unicode escape")
    | some b =>
      match digitVal 16 (Char.ofNat b.toNat) with
      | none => Run.fail (.parse "invalid hex digit")
      | some d => readHex n (v * 16 + d)

def readHex4 : P Nat := readHex 4 0

def parseUnicodeEscape : P Char := do
  let high ← readHex4
  if 0xD800 ≤ high ∧ high ≤ 0xDBFF then
    -- the second byte is read only when the first is a backslash
    if (← bump) = some (byte '\\') then
      if (← bump) = some (byte 'u') then
        let low ← readHex4
        if ¬(0xDC00 ≤ low ∧ low ≤ 0xDFFF) then Run.fail (.parse "invalid low surrogate")
        else
          match charFromU32 (0x10000 + ((high - 0xD800) <<< 10) + (low - 0xDC00)) with
          | some c => pure c
          | none => Run.fail (.parse "invalid surrogate pair")
      else Run.fail (.parse "expected low surrogate")
    else Run.fail (.parse "expected low surrogate")
  else
    match charFromU32 high with
    | some c => pure c
    | none => Run.fail (.parse "invalid unicode escape")

/-- The character of an escape, after the backslash. -/
def parseEscape : P Char := do
  match ← bump with
  | none => Run.fail (.parse "invalid escape sequence")
  | some b =>
    if b = byte '"' then pure '"'
    else if b = byte '\\' then pure '\\'
    else if b = byte '/' then pure '/'
    else if b = byte 'n' then pure '\n'
    else if b = byte 't' then pure '\t'
    else if b = byte 'r' then pure '\r'
    else if b = byte 'b' then pure '\x08'
    else if b = byte 'f' then pure '\x0c'
    else if b = byte 'u' then parseUnicodeEscape
    else Run.fail (.parse "invalid escape sequence")

/-- A byte that neither ends a string nor starts an escape. -/
def isClean (b : UInt8) : Bool := b != byte '"' && b != byte '\\'

/-- The loop of `parse_string_escaped`: `s` is the text so far, `run` the clean run since the last escape. -/
def parseStringEscapedLoop : Nat → Str → Bytes → P Str
  | 0, _, _ => Run.diverge
  | fuel + 1, s, run => do
    let clean ← takeWhile isClean
    match ← bump with
    | none => Run.fail (.parse "unterminated string")
    | some b =>
      let text ← slice (run ++ clean)
      if b = byte '"' then pure (s ++ text)
      else
        let c ← parseEscape
        parseStringEscapedLoop fuel (s ++ text ++ [c]) []

/-- The slow path from the first backslash on; `run` is the text before it. -/
def parseStringEscaped (run : Bytes) : P Str := do
  let p ← Run.get
  parseStringEscapedLoop (p.rest.length + 1) [] run

/-- A string after its opening quote: the span up to the closing quote, or the slow path at the first backslash. -/
def parseStringBody : P Str := do
  let span ← takeWhile isClean
  match ← peek with
  | none => Run.fail (.parse "unterminated string")
  | some b =>
    if b = byte '"' then
      let s ← slice span
      let _ ← bump
      pure s
    else parseStringEscaped span

def parseString : P Str := do
  expect (byte '"')
  parseStringBody

/-! ### Numbers -/

def isAsciiDigit (b : UInt8) : Bool := decide (48 ≤ b.toNat) && decide (b.toNat ≤ 57)

/-- The bytes of a number that make it a float. -/
def isFloatByte (b : UInt8) : Bool :=
  b == byte '.' || b == byte 'e' || b == byte 'E' || b == byte '+' || b == byte '-'

def isNumberByte (b : UInt8) : Bool := isAsciiDigit b || isFloatByte b

/-- The value of a number's text. -/
def numberValue (isFloat : Bool) (text : Str) : Except CodecError Value :=
  let asFloat : Except CodecError Value :=
    match parseF64 text with
    | some f => .ok (.float f)
    | none => .error (.parse ("invalid number: " ++ String.ofList text))
  if isFloat then asFloat
  else
    match parseI64 text with
    | some i => .ok (.int i)
    | none =>
      match parseU64 text with
      | some u => .ok (.uint u)
      | none => asFloat

/-- The sign of a number, which does not make it a float. -/
def takeSign : P Bytes := do
  if (← peek) = some (byte '-') then
    let _ ← bump
    pure [byte '-']
  else pure []

def parseNumber : P Value := do
  let sign ← takeSign
  let body ← takeWhile isNumberByte
  let text ← slice (sign ++ body)
  Run.lift (numberValue (body.any isFloatByte) text)

/-! ### Containers -/

section Items

variable {β : Type}

/-- The loop over the entries of a container: an entry, then a comma and the next one, or the closing byte. -/
def itemsLoop (close : UInt8) (message : String) (item : β → P β) : Nat → β → P β
  | 0, _ => Run.diverge
  | fuel + 1, acc => do
    let acc ← item acc
    skipWs
    match ← bump with
    | none => Run.fail (.parse message)
    | some b =>
      if b = byte ',' then itemsLoop close message item fuel acc
      else if b = close then pure acc
      else Run.fail (.parse message)

/-- The entries of a container after its opening byte, up to and with its closing byte. -/
def items (close : UInt8) (message : String) (item : β → P β) (init : β) : P β := do
  skipWs
  if (← peek) = some close then
    let _ ← bump
    pure init
  else
    let p ← Run.get
    itemsLoop close message item (p.rest.length + 1) init

/-- The entries of an array. -/
def arrayItems (item : β → P β) (init : β) : P β := items (byte ']') "expected ',' or ']' in array" item init

/-- The entries of an object. -/
def objectItems (item : β → P β) (init : β) : P β := items (byte '\x7d') "expected ',' or '\x7d' in object" item init

end Items

/-- An element of an array, pushed onto those before it. -/
def parseElement (value : P Value) (items : List Value) : P (List Value) := do
  let v ← value
  pure (items ++ [v])

/-- An array, given how to parse its elements. -/
def parseArray (value : P Value) : P Value := do
  expect (byte '[')
  let items ← arrayItems (parseElement value) []
  pure (.array items)

/-- An entry of an object, pushed onto those before it. -/
def parseEntry (value : P Value) (entries : List (Str × Value)) : P (List (Str × Value)) := do
  skipWs
  let key ← parseString
  skipWs
  expect (byte ':')
  let v ← value
  pure (entries ++ [(key, v)])

/-- An object, given how to parse its values. -/
def parseObject (value : P Value) : P Value := do
  expect (byte '\x7b')
  let entries ← objectItems (parseEntry value) []
  pure (.object entries)

/-- A value; the fuel bounds the nesting, which `enter` bounds by `MAX_DEPTH`. -/
def parseValueFuel : Nat → P Value
  | 0 => Run.diverge
  | fuel + 1 => do
    skipWs
    match ← peek with
    | none => Run.fail (.parse "unexpected end of input")
    | some b =>
      if b = byte '\x7b' then
        enter
        let v ← parseObject (parseValueFuel fuel)
        leave
        pure v
      else if b = byte '[' then
        enter
        let v ← parseArray (parseValueFuel fuel)
        leave
        pure v
      else if b = byte '"' then
        let s ← parseString
        pure (.str s)
      else if b = byte 't' ∨ b = byte 'f' then parseBool
      else if b = byte 'n' then parseNull
      else if b = byte '-' ∨ isAsciiDigit b then parseNumber
      else Run.fail (.parse ("unexpected character " ++ quoted b))

def parseValue : P Value := parseValueFuel (MAX_DEPTH + 1)

/-- The end of a document. -/
def finish {α : Type} (v : α) : P α := do
  skipWs
  let p ← Run.get
  if p.rest ≠ [] then Run.fail (.parse "trailing characters after JSON value") else pure v

/-- The result of a parse from the start of a text. -/
def run {α : Type} (parser : P α) (input : Str) : Except (Fault CodecError) α := (parser (.new input)).map Prod.fst

/-- Parse a JSON text. -/
def fromStr (input : Str) : Except (Fault CodecError) Value :=
  run (do
    skipWs
    let v ← parseValue
    finish v) input

/-- Parse the bytes of a JSON text. -/
def fromSlice (input : Bytes) : Except (Fault CodecError) Value :=
  match fromUtf8 input with
  | some s => fromStr s
  | none => .error (.error (.parse (utf8Error input)))

/-! ### The parser as a streaming decoder -/

def decodeValue : P Value := do
  skipWs
  parseValue

def decodeString : P Str := do
  skipWs
  if (← peek) ≠ some (byte '"') then Run.fail (.expected "string") else parseString

def peekNull : P Bool := do
  skipWs
  let p ← Run.get
  pure ((utf8 "null".toList).isPrefixOf p.rest)

def decodeNull : P Unit := do
  skipWs
  if ← takeLiteral "null".toList then pure () else Run.fail (.expected "null")

def skipValue : P Unit := do
  skipWs
  let _ ← parseValue
  pure ()

section Read

variable {β : Type}

/-- Read an array; `f` decodes an element and takes it in. -/
def readSeq (f : β → P β) (init : β) : P β := do
  skipWs
  expect (byte '[')
  enter
  let out ← arrayItems f init
  leave
  pure out

/-- The key of an entry: the span of a key without escapes, or the slow path. -/
def readKey : P Str := do
  if (← peek) ≠ some (byte '"') then Run.fail (.parse "expected object key")
  else
    let _ ← bump
    parseStringBody

/-- An entry of an object; `f` decodes its value and takes it in under its key. -/
def readEntry (f : Str → β → P β) (acc : β) : P β := do
  skipWs
  let key ← readKey
  skipWs
  expect (byte ':')
  f key acc

/-- Read an object. -/
def readMap (f : Str → β → P β) (init : β) : P β := do
  skipWs
  expect (byte '\x7b')
  enter
  let out ← objectItems (readEntry f) init
  leave
  pure out

end Read

end Ferroly.Json
