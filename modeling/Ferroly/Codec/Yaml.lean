import Ferroly.Codec.Fmt
import Ferroly.Lib.Run

/-!
# The YAML codec

The encoder writes block style only: a line for each scalar, key or dash, indented by two spaces a level. The parser first
splits the input into its significant lines, each with its indentation and its content, and then reads blocks off them: a
sequence of dashes, a mapping of keys, or one scalar.
-/

namespace Ferroly.Yaml

/-! ## Encoder -/

def pad (out : Str) (indent : Nat) : Str := out ++ List.replicate indent ' '

/-- The first characters that make a string need quotes. -/
def indicators : List Char :=
  ['-', '?', '[', ']', '\x7b', '\x7d', '&', '*', '!', '|', '>', '%', '@', '\x60']

/-- The characters that make a string need quotes wherever they stand. -/
def specials : List Char := [':', '#', '\n', '"', '\'']

/-- Whether a string would not be read back as itself without quotes. -/
def needsQuote (s : Str) : Bool :=
  if s.isEmpty || s != trim s then true
  else if s.any (specials.contains ·) then true
  else if s.head?.any (indicators.contains ·) then true
  else
    s == "null".toList || s == "~".toList || s == "true".toList || s == "false".toList || (parseI64 s).isSome || (parseF64 s).isSome

/-- How a character is escaped between double quotes, if it is. -/
def escapeOf (c : Char) : Option Str :=
  if c = '"' then some ['\\', '"']
  else if c = '\\' then some ['\\', '\\']
  else if c = '\n' then some ['\\', 'n']
  else none

/-- The loop of `write_quoted`: `run` is the run of characters without an escape since the last one with. -/
def writeQuotedLoop (out run : Str) : Str → Str
  | [] => out ++ run
  | c :: s =>
    match escapeOf c with
    | none => writeQuotedLoop out (run ++ [c]) s
    | some esc => writeQuotedLoop (out ++ run ++ esc) [] s

def writeQuoted (out s : Str) : Str := writeQuotedLoop (out ++ ['"']) [] s ++ ['"']

def writeKey (out k : Str) : Str := if needsQuote k then writeQuoted out k else out ++ k

/-- The loop that writes the bytes of a `Bytes` value with commas between them. -/
def writeBytesLoop (inner : Str) (first : Bool) : Bytes → Str
  | [] => inner
  | b :: bs =>
    let inner := if first then inner else inner ++ [',']
    writeBytesLoop (Fmt.writeU64 inner ⟨b.toNat, byte_fits b⟩) false bs

/-- Append a scalar; a container, which the callers handle, is `null` here. -/
def writeScalar (D : FloatDisplay binary64) (out : Str) : Value → Str
  | .null => out ++ "null".toList
  | .bool b => out ++ (if b then "true".toList else "false".toList)
  | .int i => Fmt.writeI64 out i
  | .uint u => Fmt.writeU64 out u
  | .float f => Fmt.writeF64 D out f
  | .str s => if needsQuote s then writeQuoted out s else out ++ s
  | .bytes b => writeQuoted out (writeBytesLoop [] true b)
  | .array _ => out ++ "null".toList
  | .object _ => out ++ "null".toList

/-- Write the value that follows a `key:` or `-` marker; `block` writes it as a block of its own. -/
def writeAfterMarker (D : FloatDisplay binary64) (block : Str → Nat → Str) (out : Str) (value : Value) (indent : Nat) : Str :=
  match value with
  | .object (_ :: _) => block (out ++ ['\n']) (indent + 2)
  | .array (_ :: _) => block (out ++ ['\n']) (indent + 2)
  | .object [] => out ++ " \x7b\x7d\n".toList
  | .array [] => out ++ " []\n".toList
  | scalar => writeScalar D (out ++ [' ']) scalar ++ ['\n']

mutual

def writeBlock (D : FloatDisplay binary64) : Value → Str → Nat → Str
  | .object (e :: o), out, indent => writeEntries D (e :: o) out indent
  | .array (v :: a), out, indent => writeItems D (v :: a) out indent
  | other, out, indent => writeScalar D (pad out indent) other ++ ['\n']

/-- The lines of a mapping's entries. -/
def writeEntries (D : FloatDisplay binary64) : List (Str × Value) → Str → Nat → Str
  | [], out, _ => out
  | (k, v) :: o, out, indent =>
    let out := writeKey (pad out indent) k ++ [':']
    writeEntries D o (writeAfterMarker D (writeBlock D v) out v indent) indent

/-- The lines of a sequence's items. -/
def writeItems (D : FloatDisplay binary64) : List Value → Str → Nat → Str
  | [], out, _ => out
  | v :: a, out, indent =>
    let out := pad out indent ++ ['-']
    writeItems D a (writeAfterMarker D (writeBlock D v) out v indent) indent

end

/-- A value as a YAML document. -/
def encode (D : FloatDisplay binary64) (value : Value) : Str := writeBlock D value [] 0

/-! ## Scalars -/

/-- The loop of `unquote` over the text between double quotes. -/
def unescape : Str → Str
  | [] => []
  | '\\' :: 'n' :: s => '\n' :: unescape s
  | '\\' :: 't' :: s => '\t' :: unescape s
  | '\\' :: c :: s => c :: unescape s
  | ['\\'] => []
  | c :: s => c :: unescape s

/-- Whether a text stands between two of the quotes `q`. -/
def isQuotedBy (q : Char) (t : Str) : Bool := t.head? == some q && t.getLast? == some q && decide (2 ≤ t.length)

def unquote (s : Str) : Str :=
  let t := trim s
  if isQuotedBy '"' t then unescape t.tail.dropLast
  else if isQuotedBy '\'' t then t.tail.dropLast
  else t

/-- A scalar that is neither quoted nor one of the words: a number, or else a string. -/
def plainScalar (t : Str) : Value :=
  match parseI64 t with
  | some i => .int i
  | none =>
    match parseU64 t with
    | some u => .uint u
    | none =>
      match parseF64 t with
      | some f => .float f
      | none => .str t

def parseScalar (s : Str) : Value :=
  let t := trim s
  if isQuotedBy '"' t || isQuotedBy '\'' t then .str (unquote t)
  else if t = [] ∨ t = "null".toList ∨ t = "~".toList then .null
  else if t = "[]".toList then .array []
  else if t = "\x7b\x7d".toList then .object []
  else if t = "true".toList then .bool true
  else if t = "false".toList then .bool false
  else plainScalar t

/-- The text before and after the first `:` that a space or the end of the line follows. -/
def splitMarker : Str → Option (Str × Str)
  | [] => none
  | c :: s =>
    if c = ':' ∧ (s = [] ∨ s.head? = some ' ') then some ([], s)
    else (splitMarker s).map (fun p => (c :: p.1, p.2))

/-- The key of a line `key: value`, unquoted, and the rest of the line. -/
def mappingKey (s : Str) : Option (Str × Str) := (splitMarker s).map (fun p => (unquote (trim p.1), trim p.2))

/-! ## Parser -/

/-- A significant line: its indentation in bytes, and its content. -/
abbrev Line := Nat × Str

/-- The line of a raw line of the input, unless it is blank, a comment or a document marker. -/
def significant (raw : Str) : Option Line :=
  let content := trimStart raw
  if content = [] ∨ content.head? = some '#' ∨ content = "---".toList then none
  else some ((utf8 raw).length - (utf8 content).length, trimEnd content)

/-- The significant lines of the input. -/
def preprocess (input : Str) : List Line := (lines input).filterMap significant

/-- How deep blocks may nest. -/
def MAX_DEPTH : Nat := 128

/-- A parser over the lines from its position on. -/
abbrev P (α : Type) := Run (List Line) CodecError α

/-- Go to the next line. -/
def advance : P Unit := fun st => .ok ((), st.tail)

/-- The value of a key or a dash with nothing after it: the block below it if that is indented more, else null. -/
def parseChild (block : Nat → Nat → P Value) (indent depth : Nat) : P Value := do
  match ← Run.get with
  | [] => pure .null
  | (childIndent, _) :: _ => if childIndent > indent then block childIndent (depth + 1) else pure .null

/-- The entry of a mapping's line. -/
def parseEntry (block : Nat → Nat → P Value) (indent depth : Nat) (content : Str) : P (Str × Value) :=
  match mappingKey content with
  | none => Run.fail (.parse ("expected 'key: value', got: " ++ String.ofList content))
  | some (key, rest) => do
    advance
    if rest = [] then
      let v ← parseChild block indent depth
      pure (key, v)
    else pure (key, parseScalar rest)

/-- The item of a sequence's line. -/
def parseItem (block : Nat → Nat → P Value) (indent depth : Nat) (content : Str) : P Value :=
  let after := trimStart content.tail
  if after = [] then do
    advance
    parseChild block indent depth
  else
    match mappingKey after with
    | some (key, rest) => do
      advance
      pure (.object [(key, parseScalar rest)])
    | none => do
      advance
      pure (parseScalar after)

/-- Whether the content of a line begins with a dash. -/
def isDash (content : Str) : Bool := content.head? == some '-'

/-- The loop over the lines of a block that are indented as it is and of its kind, with what to read off each. -/
def linesLoop {α : Type} (dash : Bool) (message : String) (line : Str → P α) (indent : Nat) : Nat → List α → P (List α)
  | 0, _ => Run.diverge
  | fuel + 1, acc => do
    match ← Run.get with
    | [] => pure acc
    | (ind, content) :: _ =>
      if ind < indent ∨ isDash content ≠ dash then pure acc
      else if ind > indent then Run.fail (.parse message)
      else
        let x ← line content
        linesLoop dash message line indent fuel (acc ++ [x])

/-- A mapping, given how to parse a block. -/
def parseMapping (block : Nat → Nat → P Value) (indent depth : Nat) : P Value := do
  let st ← Run.get
  let entries ← linesLoop false "unexpected indentation in mapping" (parseEntry block indent depth) indent (st.length + 1) []
  pure (.object entries)

/-- A sequence, given how to parse a block. -/
def parseSequence (block : Nat → Nat → P Value) (indent depth : Nat) : P Value := do
  let st ← Run.get
  let items ← linesLoop true "unexpected indentation in sequence" (parseItem block indent depth) indent (st.length + 1) []
  pure (.array items)

/-- A block; the fuel bounds the nesting, which `MAX_DEPTH` bounds. -/
def parseBlockFuel : Nat → Nat → Nat → P Value
  | 0, _, _ => Run.diverge
  | fuel + 1, indent, depth =>
    if depth > MAX_DEPTH then Run.fail (.parse "nesting too deep")
    else do
      match ← Run.get with
      | [] => Run.panic
      | (_, content) :: _ =>
        if isDash content then parseSequence (parseBlockFuel fuel) indent depth
        else if (mappingKey content).isSome then parseMapping (parseBlockFuel fuel) indent depth
        else do
          advance
          pure (parseScalar content)

/-- Parse a YAML document. Lines after the first block are not looked at. -/
def fromStr (input : Str) : Except (Fault CodecError) Value :=
  match preprocess input with
  | [] => .ok .null
  | (base, content) :: rest =>
    match parseBlockFuel (MAX_DEPTH + 2) base 0 ((base, content) :: rest) with
    | .ok (v, _) => .ok v
    | .error e => .error e

end Ferroly.Yaml
