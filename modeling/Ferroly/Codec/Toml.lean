import Ferroly.Codec.Fmt
import Ferroly.Lib.Run

/-!
# The TOML codec

The encoder writes a table as its scalar and inline entries first and then its subtables, each under a header. The parser keeps
the table of the document and the path of the last header, and each statement changes the table at that path: the helpers that
walk a path are given what to do with the table they reach.
-/

namespace Ferroly.Toml

/-- The entries of a table, in order. -/
abbrev Table := List (Str × Value)

/-! ## Encoder -/

/-- The four hexadecimal digits of `{:04X}`. -/
def hex4 (n : Nat) : Str := ((Nat.toDigits 16 n).map Char.toUpper).leftpad 4 '0'

/-- How a character is escaped in a basic string, if it is. -/
def escapeOf (c : Char) : Option Str :=
  if c = '"' then some ['\\', '"']
  else if c = '\\' then some ['\\', '\\']
  else if c = '\n' then some ['\\', 'n']
  else if c = '\r' then some ['\\', 'r']
  else if c = '\t' then some ['\\', 't']
  else if c = '\x08' then some ['\\', 'b']
  else if c = '\x0c' then some ['\\', 'f']
  else if c.toNat < 0x20 then some ('\\' :: 'u' :: hex4 c.toNat)
  else none

/-- The loop of `write_basic_string`: `run` is the run of characters without an escape since the last one with. -/
def writeBasicStringLoop (out run : Str) : Str → Str
  | [] => out ++ run
  | c :: s =>
    match escapeOf c with
    | some esc => writeBasicStringLoop (out ++ run ++ esc) [] s
    | none => writeBasicStringLoop out (run ++ [c]) s

def writeBasicString (out s : Str) : Str := writeBasicStringLoop (out ++ ['"']) [] s ++ ['"']

/-- The characters of a bare key. -/
def isBareChar (c : Char) : Bool := c.isAlphanum || c == '_' || c == '-'

/-- A key as a bare key when possible, otherwise a basic string. -/
def keyRepr (k : Str) : Str := if !k.isEmpty && k.all isBareChar then k else writeBasicString [] k

def writeKey (out k : Str) : Str := out ++ keyRepr k

def headerJoin (header k : Str) : Str := if header.isEmpty then keyRepr k else header ++ ['.'] ++ keyRepr k

/-- The characters that tell a float from an integer. -/
def isFloatMark (c : Char) : Bool := c == '.' || c == 'e' || c == 'E'

/-- Append a float so that it reads back as one. -/
def writeFloat (D : FloatDisplay binary64) (out : Str) (f : F64) : Str :=
  if f.isNan then out ++ "nan".toList
  else if f.isInfinite then out ++ (if f.ltZero then "-inf".toList else "inf".toList)
  else
    let text := D.toText f
    if !text.any isFloatMark then out ++ text ++ ".0".toList else out ++ text

/-- A nonempty array whose every element is a table. -/
def isArrayOfTables (a : List Value) : Bool := !a.isEmpty && a.all (fun v => v.asObject.isSome)

/-- Whether a value is written under a header of its own. -/
def isSection : Value → Bool
  | .object o => !o.isEmpty
  | .array a => isArrayOfTables a
  | _ => false

/-- The loop that writes the bytes of a `Bytes` value; `i` is the index of the next one. -/
def writeBytesLoop (out : Str) (i : Nat) : Bytes → Str
  | [] => out
  | b :: bs =>
    let out := if i > 0 then out ++ ", ".toList else out
    writeBytesLoop (Fmt.writeU64 out ⟨b.toNat, byte_fits b⟩) (i + 1) bs

mutual

/-- Append a value in inline form. -/
def writeInline (D : FloatDisplay binary64) : Value → Str → Str
  | .null, out => out ++ "\"\"".toList
  | .bool b, out => out ++ (if b then "true".toList else "false".toList)
  | .int i, out => Fmt.writeI64 out i
  | .uint u, out => Fmt.writeU64 out u
  | .float f, out => writeFloat D out f
  | .str s, out => writeBasicString out s
  | .bytes b, out => writeBytesLoop (out ++ ['[']) 0 b ++ [']']
  | .array a, out => writeInlineItems D a (out ++ ['[']) 0 ++ [']']
  | .object o, out =>
    if o.all (fun e => e.2.isNull) then out ++ "\x7b\x7d".toList
    else writeInlineEntries D o (out ++ "\x7b ".toList) true ++ " \x7d".toList

/-- The elements of an inline array; `i` is the index of the next one. -/
def writeInlineItems (D : FloatDisplay binary64) : List Value → Str → Nat → Str
  | [], out, _ => out
  | v :: a, out, i =>
    let out := if i > 0 then out ++ ", ".toList else out
    writeInlineItems D a (writeInline D v out) (i + 1)

/-- The entries of an inline table; `first` until one is written. -/
def writeInlineEntries (D : FloatDisplay binary64) : Table → Str → Bool → Str
  | [], out, _ => out
  | (k, v) :: o, out, first =>
    if v.isNull then writeInlineEntries D o out first
    else
      let out := if !first then out ++ ", ".toList else out
      writeInlineEntries D o (writeInline D v (writeKey out k ++ " = ".toList)) false

end

/-- The first loop of `write_table`: the entries that stand on a line of their own. -/
def writeLines (D : FloatDisplay binary64) : Table → Str → Str
  | [], out => out
  | (k, v) :: o, out =>
    if v.isNull || isSection v then writeLines D o out
    else writeLines D o (writeInline D v (writeKey out k ++ " = ".toList) ++ ['\n'])

mutual

/-- The second loop of `write_table`: the subtables, under headers that extend `header`. -/
def writeSections (D : FloatDisplay binary64) : Table → Str → Str → Str
  | [], out, _ => out
  | (k, v) :: o, out, header => writeSections D o (writeSection D v out (headerJoin header k)) header

/-- The turn of that loop for a value. -/
def writeSection (D : FloatDisplay binary64) : Value → Str → Str → Str
  | .object o, out, header =>
    if o.isEmpty then out
    else writeSections D o (writeLines D o (out ++ "\n[".toList ++ header ++ "]\n".toList)) header
  | .array a, out, header => if isArrayOfTables a then writeTables D a out header else out
  | _, out, _ => out

/-- The elements of an array of tables. -/
def writeTables (D : FloatDisplay binary64) : List Value → Str → Str → Str
  | [], out, _ => out
  | .object o :: a, out, header =>
    writeTables D a (writeSections D o (writeLines D o (out ++ "\n[[".toList ++ header ++ "]]\n".toList)) header) header
  | _ :: a, out, header => writeTables D a out header

end

/-- Write an object as a table under a dotted header, which is empty at the root. -/
def writeTable (D : FloatDisplay binary64) (out : Str) (entries : Table) (header : Str) : Str :=
  writeSections D entries (writeLines D entries out) header

/-- A value as a TOML document. A value that is no table is wrapped under a key. -/
def encode (D : FloatDisplay binary64) : Value → Str
  | .object entries => writeTable D [] entries []
  | other => writeInline D other "value = ".toList ++ ['\n']

/-! ## Document tree -/

/-- What to do with the table that a value refers to: the object itself, or the last element of an array of tables. -/
def descend (f : Table → Except CodecError Table) (v : Value) (seg : Str) : Except CodecError Value :=
  let notTable : Except CodecError Value := .error (.parse ("'" ++ String.ofList seg ++ "' is not a table"))
  match v with
  | .object o => (f o).map Value.object
  | .array a =>
    match a.getLast? with
    | some (.object o) => (f o).map (fun o => .array (a.dropLast ++ [.object o]))
    | _ => notTable
  | _ => notTable

/-- The index of the first entry with a key. -/
def position (k : Str) (t : Table) : Option Nat := t.findIdx? (fun e => e.1 == k)

/-- Change the value of the entry at an index. -/
def modifyEntry (g : Value → Except CodecError Value) (t : Table) (i : Nat) : Except CodecError Table :=
  match t[i]? with
  | some (k, v) => (g v).map (fun v => t.set i (k, v))
  | none => .ok t

/-- Walk a path of existing tables and change the one it leads to. -/
def resolve (f : Table → Except CodecError Table) : List Str → Table → Except CodecError Table
  | [], cur => f cur
  | seg :: path, cur =>
    match position seg cur with
    | none => .error (.parse ("no such table '" ++ String.ofList seg ++ "'"))
    | some i => modifyEntry (fun v => descend (resolve f path) v seg) cur i

/-- The same, with the tables that are missing created. -/
def getOrCreate (f : Table → Except CodecError Table) : List Str → Table → Except CodecError Table
  | [], cur => f cur
  | seg :: path, cur =>
    match position seg cur with
    | none =>
      let cur := cur ++ [(seg, .object [])]
      modifyEntry (fun v => descend (getOrCreate f path) v seg) cur (cur.length - 1)
    | some i => modifyEntry (fun v => descend (getOrCreate f path) v seg) cur i

/-- Push a new table onto the array of tables of a key. -/
def pushTable (last : Str) (base : Table) : Except CodecError Table :=
  let push : Value → Except CodecError Value
    | .array a => .ok (.array (a ++ [.object []]))
    | v => .ok v
  match position last base with
  | some i =>
    match base[i]? with
    | some (_, .array _) => modifyEntry push base i
    | _ => .error (.parse ("'" ++ String.ofList last ++ "' is not an array of tables"))
  | none =>
    let base := base ++ [(last, .array [])]
    modifyEntry push base (base.length - 1)

/-- Append a new table to the array of tables at a path. -/
def appendArrayTable (path : List Str) (root : Table) : Except CodecError Table :=
  match path.getLast? with
  | none => .error (.parse "empty table header")
  | some last => getOrCreate (pushTable last) path.dropLast root

/-- Add an entry with a key that is not there yet. -/
def addEntry (last : Str) (val : Value) (tbl : Table) : Except CodecError Table :=
  if tbl.any (fun e => e.1 == last) then .error (.parse ("duplicate key '" ++ String.ofList last ++ "'"))
  else .ok (tbl ++ [(last, val)])

/-- Set a key path to a value. -/
def setNested (keypath : List Str) (val : Value) (base : Table) : Except CodecError Table :=
  match keypath.getLast? with
  | none => .error (.parse "empty key")
  | some last => getOrCreate (addEntry last val) keypath.dropLast base

/-! ## Atoms -/

/-- `0x`, `0o` and `0b` integers. -/
def radixInt (tok : Str) : Option Value :=
  let read (rest : Str) (radix : Nat) : Option Value :=
    let digits := rest.filter (· != '_')
    match (parseSigned 64 radix digits).bind I64.ofInt? with
    | some i => some (.int i)
    | none => ((parseUnsigned 64 radix digits).bind U64.ofNat?).map Value.uint
  match tok with
  | '0' :: 'x' :: rest => read rest 16
  | '0' :: 'o' :: rest => read rest 8
  | '0' :: 'b' :: rest => read rest 2
  | _ => none

/-- A decimal number, or else the token as a string. -/
def decimalAtom (tok : Str) : Value :=
  let cleaned := tok.filter (· != '_')
  if cleaned.any isFloatMark then
    match parseF64 cleaned with
    | some f => .float f
    | none => .str tok
  else
    match parseI64 cleaned with
    | some i => .int i
    | none =>
      match parseU64 cleaned with
      | some u => .uint u
      | none => .str tok

/-- A bare token as a scalar. -/
def atom (tok : Str) : Value :=
  if tok = "true".toList then .bool true
  else if tok = "false".toList then .bool false
  else if tok = "inf".toList ∨ tok = "+inf".toList then .float (Flt.infinity binary64)
  else if tok = "-inf".toList then .float (Flt.negInfinity binary64)
  else if tok = "nan".toList ∨ tok = "+nan".toList ∨ tok = "-nan".toList then .float .nan
  else
    match radixInt tok with
    | some v => v
    | none => decimalAtom tok

/-! ## Parser -/

/-- How deep arrays and inline tables may nest. -/
def MAX_DEPTH : Nat := 128

/-- The parser's state: the bytes from its position on, and the position. -/
structure Parser where
  rest : Bytes
  pos : Nat
  deriving DecidableEq, Repr

/-- A parser of `α`s. -/
abbrev P (α : Type) := Run Parser CodecError α

def Parser.new (src : Str) : Parser := ⟨utf8 src, 0⟩

/-- Move on by `n` bytes. -/
def Parser.advance (p : Parser) (n : Nat) : Parser := ⟨p.rest.drop n, p.pos + n⟩

def peek : P (Option UInt8) := fun p => .ok (p.rest.head?, p)

def bump : P Unit := fun p => .ok ((), p.advance 1)

/-- Advance over the bytes that satisfy `q`, and return them. -/
def takeWhile (q : UInt8 → Bool) : P Bytes := fun p =>
  .ok (p.rest.takeWhile q, p.advance (p.rest.takeWhile q).length)

/-- Whether the input goes on with a text. -/
def startsWith (s : Str) : P Bool := fun p => .ok ((utf8 s).isPrefixOf p.rest, p)

/-- A slice of the input as text: it panics off a character boundary. -/
def slice (b : Bytes) : P Str :=
  match fromUtf8 b with
  | some s => pure s
  | none => Run.panic

def isInlineWs (b : UInt8) : Bool := b == byte ' ' || b == byte '\t' || b == byte '\r'

def skipInlineWs : P Unit := do
  let _ ← takeWhile isInlineWs
  pure ()

/-- How many bytes of white space, newlines and comments the input begins with; `comment` inside of a comment. -/
def wsLength : Bool → Bytes → Nat
  | _, [] => 0
  | true, b :: s => wsLength (b != byte '\n') s + 1
  | false, b :: s =>
    if isInlineWs b || b == byte '\n' then wsLength false s + 1
    else if b == byte '#' then wsLength true s + 1
    else 0

/-- Skip white space, newlines and comments. -/
def skipWsNlComments : P Unit := fun p => .ok ((), p.advance (wsLength false p.rest))

/-- A byte as the character of that number. -/
def charText (b : UInt8) : String := String.singleton (Char.ofNat b.toNat)

/-- The next byte after inline white space, which must be `c`. -/
def expect (c : UInt8) : P Unit := do
  skipInlineWs
  if (← peek) = some c then bump
  else
    let p ← Run.get
    Run.fail (.parse ("expected '" ++ charText c ++ "' at byte " ++ Nat.repr p.pos))

/-- The rest of the line, if it is a comment. -/
def skipComment : P Unit := do
  if (← peek) = some (byte '#') then
    let _ ← takeWhile (fun b => b != byte '\n')
    pure ()
  else pure ()

/-- After a statement: a comment, then the end of the line or of the input. -/
def finishLine : P Unit := do
  skipInlineWs
  skipComment
  match ← peek with
  | none => pure ()
  | some c =>
    if c = byte '\n' then bump
    else
      let p ← Run.get
      Run.fail (.parse ("unexpected trailing input '" ++ charText c ++ "' at byte " ++ Nat.repr p.pos))

/-! ### Strings and keys -/

/-- `char::from_u32`. -/
def charFromU32 (n : Nat) : Option Char := if n.isValidChar then some (Char.ofNat n) else none

def parseHex (n : Nat) : P Char := do
  let p ← Run.get
  if n > p.rest.length then Run.fail (.parse "truncated unicode escape")
  else
    let hex ← slice (p.rest.take n)
    Run.set (p.advance n)
    match parseUnsigned 32 16 hex with
    | none => Run.fail (.parse "invalid unicode escape")
    | some code =>
      match charFromU32 code with
      | some c => pure c
      | none => Run.fail (.parse "invalid unicode scalar")

/-- The character of an escape, after the backslash. -/
def parseEscape : P Char := do
  match ← peek with
  | none => Run.fail (.parse "unterminated escape")
  | some c => do
    bump
    if c = byte '"' then pure '"'
    else if c = byte '\\' then pure '\\'
    else if c = byte 'b' then pure '\x08'
    else if c = byte 't' then pure '\t'
    else if c = byte 'n' then pure '\n'
    else if c = byte 'f' then pure '\x0c'
    else if c = byte 'r' then pure '\r'
    else if c = byte 'u' then parseHex 4
    else if c = byte 'U' then parseHex 8
    else Run.fail (.parse ("invalid escape '\\" ++ charText c ++ "'"))

/-- A byte that stands for itself in a basic string. -/
def isClean (b : UInt8) : Bool := b != byte '"' && b != byte '\\' && b != byte '\n'

/-- The loop of `parse_basic_string`; `out` is the text so far. -/
def parseBasicStringLoop : Nat → Str → P Str
  | 0, _ => Run.diverge
  | fuel + 1, out => do
    let clean ← takeWhile isClean
    let text ← slice clean
    match ← peek with
    | none => Run.fail (.parse "unterminated string")
    | some b =>
      if b = byte '\n' then Run.fail (.parse "unterminated string")
      else if b = byte '"' then do
        bump
        pure (out ++ text)
      else do
        bump
        let c ← parseEscape
        parseBasicStringLoop fuel (out ++ text ++ [c])

def parseBasicString : P Str := do
  bump
  let p ← Run.get
  parseBasicStringLoop (p.rest.length + 1) []

def parseLiteralString : P Str := do
  bump
  let body ← takeWhile (fun b => b != byte '\'' && b != byte '\n')
  if (← peek) = some (byte '\'') then
    let s ← slice body
    bump
    pure s
  else Run.fail (.parse "unterminated literal string")

/-- The bytes of a bare key. -/
def isBareByte (b : UInt8) : Bool := isBareChar (Char.ofNat b.toNat)

def parseKeySegment : P Str := do
  let next ← peek
  if next = some (byte '"') then parseBasicString
  else if next = some (byte '\'') then parseLiteralString
  else
    let p ← Run.get
    let key ← takeWhile isBareByte
    if key = [] then Run.fail (.parse ("expected key at byte " ++ Nat.repr p.pos)) else slice key

/-- The loop of `parse_key_path`. -/
def parseKeyPathLoop : Nat → List Str → P (List Str)
  | 0, _ => Run.diverge
  | fuel + 1, path => do
    skipInlineWs
    let seg ← parseKeySegment
    skipInlineWs
    if (← peek) = some (byte '.') then
      bump
      parseKeyPathLoop fuel (path ++ [seg])
    else pure (path ++ [seg])

/-- A dotted key path. -/
def parseKeyPath : P (List Str) := do
  let p ← Run.get
  parseKeyPathLoop (p.rest.length + 1) []

/-! ### Values -/

/-- The bytes that end a bare token. -/
def isAtomEnd (b : UInt8) : Bool :=
  isInlineWs b || b == byte '\n' || b == byte ',' || b == byte ']' || b == byte '\x7d' || b == byte '#'

def parseAtom : P Value := do
  let p ← Run.get
  let body ← takeWhile (fun b => !isAtomEnd b)
  let text ← slice body
  let tok := trim text
  if tok = [] then Run.fail (.parse ("expected a value at byte " ++ Nat.repr p.pos)) else pure (atom tok)

/-- The loop of `parse_array`, given how to parse an element. -/
def parseArrayLoop (value : P Value) : Nat → List Value → P (List Value)
  | 0, _ => Run.diverge
  | fuel + 1, items => do
    skipWsNlComments
    if (← peek) = some (byte ']') then
      bump
      pure items
    else
      let v ← value
      skipWsNlComments
      let next ← peek
      if next = some (byte ',') then
        bump
        parseArrayLoop value fuel (items ++ [v])
      else if next = some (byte ']') then
        bump
        pure (items ++ [v])
      else Run.fail (.parse "expected ',' or ']' in array")

def parseArray (value : P Value) : P Value := do
  bump
  let p ← Run.get
  let items ← parseArrayLoop value (p.rest.length + 1) []
  pure (.array items)

/-- The loop of `parse_inline_table`, given how to parse a value. -/
def parseInlineTableLoop (value : P Value) : Nat → Table → P Table
  | 0, _ => Run.diverge
  | fuel + 1, entries => do
    skipWsNlComments
    let keypath ← parseKeyPath
    expect (byte '=')
    skipInlineWs
    let val ← value
    let entries ← Run.lift (setNested keypath val entries)
    skipWsNlComments
    let next ← peek
    if next = some (byte ',') then
      bump
      parseInlineTableLoop value fuel entries
    else if next = some (byte '\x7d') then
      bump
      pure entries
    else Run.fail (.parse "expected ',' or '\x7d' in inline table")

def parseInlineTable (value : P Value) : P Value := do
  bump
  skipWsNlComments
  if (← peek) = some (byte '\x7d') then
    bump
    pure (.object [])
  else
    let p ← Run.get
    let entries ← parseInlineTableLoop value (p.rest.length + 1) []
    pure (.object entries)

/-- A value; the fuel bounds the nesting, which `MAX_DEPTH` bounds. -/
def parseValueFuel : Nat → Nat → P Value
  | 0, _ => Run.diverge
  | fuel + 1, depth =>
    if depth > MAX_DEPTH then Run.fail (.parse "nesting too deep")
    else do
      skipInlineWs
      match ← peek with
      | none => Run.fail (.parse "expected a value")
      | some b =>
        if b = byte '"' then
          if ← startsWith "\"\"\"".toList then Run.fail (.parse "multi-line strings are not supported")
          else
            let s ← parseBasicString
            pure (.str s)
        else if b = byte '\'' then
          if ← startsWith "'''".toList then Run.fail (.parse "multi-line strings are not supported")
          else
            let s ← parseLiteralString
            pure (.str s)
        else if b = byte '[' then parseArray (parseValueFuel fuel (depth + 1))
        else if b = byte '\x7b' then parseInlineTable (parseValueFuel fuel (depth + 1))
        else parseAtom

/-- `parse_value(0)`. -/
def parseValue : P Value := parseValueFuel (MAX_DEPTH + 2) 0

/-! ### Statements -/

/-- The table of the document so far, and the path of the last header. -/
structure Doc where
  root : Table
  current : List Str

/-- A header or a key and its value. -/
def statement (doc : Doc) : P Doc := do
  if (← peek) = some (byte '[') then
    bump
    if (← peek) = some (byte '[') then
      bump
      let path ← parseKeyPath
      expect (byte ']')
      expect (byte ']')
      let root ← Run.lift (appendArrayTable path doc.root)
      finishLine
      pure ⟨root, path⟩
    else
      let path ← parseKeyPath
      expect (byte ']')
      let root ← Run.lift (getOrCreate .ok path doc.root)
      finishLine
      pure ⟨root, path⟩
  else
    let keypath ← parseKeyPath
    skipInlineWs
    expect (byte '=')
    skipInlineWs
    let val ← parseValue
    let root ← Run.lift (resolve (setNested keypath val) doc.current doc.root)
    finishLine
    pure ⟨root, doc.current⟩

/-- The loop of `parse` over the statements. -/
def parseLoop : Nat → Doc → P Doc
  | 0, _ => Run.diverge
  | fuel + 1, doc => do
    skipWsNlComments
    if (← peek) = none then pure doc
    else
      let doc ← statement doc
      parseLoop fuel doc

/-- Parse a TOML document. -/
def fromStr (input : Str) : Except (Fault CodecError) Value :=
  let p := Parser.new input
  match parseLoop (p.rest.length + 1) ⟨[], []⟩ p with
  | .ok (doc, _) => .ok (.object doc.root)
  | .error e => .error e

end Ferroly.Toml
