import Ferroly.Http.Server

/-!
# What delimits the body of a request

The fields of a head as they stand in its bytes, without the server's reading of them: the codings of all `Transfer-Encoding` fields
together, and the values of all `Content-Length` fields. `MessageBody` says which bytes after a head are its body.
-/

namespace Ferroly.Http

/-- The values of all fields of a name, in order. -/
def valuesOf (name : Str) (entries : List (Str × Str)) : List Str :=
  (entries.filter (fun e => eqIgnoreAsciiCase e.1 name)).map Prod.snd

def HeaderMap.values (h : HeaderMap) (name : Str) : List Str := valuesOf name h.entries

def HeaderMap.transferEncodings (h : HeaderMap) : List Str := h.values "transfer-encoding".toList

def HeaderMap.contentLengths (h : HeaderMap) : List Str := h.values "content-length".toList

theorem valuesOf_cons (name k v : Str) (entries : List (Str × Str)) : valuesOf name ((k, v) :: entries) =
      if eqIgnoreAsciiCase k name then v :: valuesOf name entries else valuesOf name entries := by
  unfold valuesOf
  rw [List.filter_cons]
  split <;> rfl

/-- The first field of a name is the first of all its fields. -/
theorem HeaderMap.get_eq_head (h : HeaderMap) (name : Str) : h.get name = (h.values name).head? := by
  rw [HeaderMap.get, HeaderMap.values, valuesOf, List.head?_map, List.head?_filter]

theorem valuesOf_append (name : Str) (xs ys : List (Str × Str)) :
    valuesOf name (xs ++ ys) = valuesOf name xs ++ valuesOf name ys := by
  simp [valuesOf]

/-- Optional white space around an element of a list. -/
def isOws (c : Char) : Bool := c == ' ' || c == '\t'

def trimOws (s : Str) : Str := (s.dropWhile isOws).rdropWhile isOws

/-- The values of the fields that frame a message, in order. -/
structure FramingFields where
  transferEncodings : List Str
  contentLengths : List Str
  deriving DecidableEq

/-- The framing fields among some fields. -/
def framingOf (fields : List (Str × Str)) : FramingFields :=
  ⟨valuesOf "transfer-encoding".toList fields, valuesOf "content-length".toList fields⟩

def HeaderMap.framing (h : HeaderMap) : FramingFields := framingOf h.entries

/-- The codings of the combined field list, in order; empty elements do not count. -/
def FramingFields.codings (w : FramingFields) : List Str :=
  ((w.transferEncodings.flatMap (split ',')).map trimOws).filter (fun s => s ≠ [])

/-- Whether a `Transfer-Encoding` value mentions `chunked`. -/
def mentionsChunked (v : Str) : Bool := containsStr (toAsciiLowercase v) "chunked".toList

/-- The server and the client look at the first field only. -/
theorem HeaderMap.isChunked_eq (h : HeaderMap) : h.isChunked = h.transferEncodings.head?.any mentionsChunked := by
  rw [HeaderMap.isChunked, HeaderMap.get_eq_head, HeaderMap.transferEncodings]
  rcases h.values "transfer-encoding".toList with _ | ⟨v, vs⟩ <;> rfl

/-- Whether the last coding is exactly `chunked`, in any letter case. -/
def FramingFields.endsChunked (w : FramingFields) : Bool := (w.codings.getLast?.map toAsciiLowercase) == some "chunked".toList

def HeaderMap.endsChunked (h : HeaderMap) : Bool := h.framing.endsChunked

/-- A nonempty string of digits. -/
def isPlainNumber (v : Str) : Bool := !v.isEmpty && v.all Char.isDigit

/-- Every `Content-Length` is a plain number, and it is `n`; and there is one. -/
def FramingFields.ClearLength (w : FramingFields) (n : Nat) : Prop :=
  w.contentLengths ≠ [] ∧ ∀ v ∈ w.contentLengths, isPlainNumber v = true ∧ Nat.ofDigitChars 10 v 0 = n

def HeaderMap.ClearLength (h : HeaderMap) (n : Nat) : Prop := h.framing.ClearLength n

/-! ## Heads by their bytes -/

/-- The lines of some bytes, each with its newline; the last one may lack it. -/
def splitLines : Bytes → List Bytes
  | [] => []
  | b :: rest =>
    if b = byte '\n' then [b] :: splitLines rest
    else
      match splitLines rest with
      | [] => [[b]]
      | line :: lines => (b :: line) :: lines

/-- The text of a line without its end: the newline, and a carriage return before it. -/
def lineText (line : Bytes) : Str := stripCr ((fromUtf8Lossy line).filter (fun c => c ≠ '\n'))

/-- The field in a line, if it has a colon: what stands before it, and what stands after it without the blanks around that. -/
def lineFields (line : Bytes) : List (Str × Str) :=
  match splitOnce ':' (lineText line) with
  | some (k, v) => [(k, trimOws v)]
  | none => []

/-- Whether a line of a head is not the empty one that ends it. -/
def isInHead (line : Bytes) : Bool := lineText line ≠ []

/-- The lines of a head after the first one. -/
def headLines (start : Bytes) : List Bytes := (splitLines start).tail.takeWhile isInHead

/-- The framing fields in the bytes of a head. -/
def wireFraming (start : Bytes) : FramingFields := framingOf ((headLines start).flatMap lineFields)

/-- What stands after a head. -/
def afterEmptyLine (start : Bytes) : Bytes := ((splitLines start).tail.dropWhile isInHead).tail.flatten

/-! ## Chunked bodies -/

/-- Trailer lines and the blank line that ends them. -/
inductive Trailers : Bytes → Prop where
  | blank {line : Bytes} {s : Str} : Conn.IsLine line → fromUtf8 line = some s → trim s = [] → Trailers line
  | more {line rest : Bytes} {s : Str} : Conn.IsLine line → fromUtf8 line = some s → trim s ≠ [] →
      Trailers rest → Trailers (line ++ rest)

/-- The text of a size line names a size: a number, with a plus sign or not, between white space, and what a `;` begins. -/
def NamesSize (text : Str) (n : Nat) : Prop :=
  ∃ before num after ext, text = before ++ num ++ after ++ ext ∧ (∀ c ∈ before, isWhitespace c = true) ∧
    (∀ c ∈ after, isWhitespace c = true) ∧ (ext = [] ∨ ext.head? = some ';') ∧ parseUnsigned 64 16 num = some n

/-- A body in chunked coding: chunks, each a line with its size, so many bytes and two more; a chunk of size zero; trailers. -/
inductive ChunkedCoding : Bytes → Prop where
  | last {line trailers : Bytes} {s : Str} : Conn.IsLine line → fromUtf8 line = some s →
      NamesSize s 0 → Trailers trailers → ChunkedCoding (line ++ trailers)
  | chunk {line data crlf rest : Bytes} {s : Str} {n : Nat} : Conn.IsLine line → fromUtf8 line = some s →
      NamesSize s n → n ≠ 0 → data.length = n → crlf.length = 2 → ChunkedCoding rest →
      ChunkedCoding (line ++ (data ++ (crlf ++ rest)))

/-! ## Streams cut into chunks -/

/-- A chunk as it stands in a stream: its size line, its data, and the bytes before the next size line. -/
structure ChunkPiece where
  line : Bytes
  data : Bytes
  gap : Bytes

/-- Chunks, the size line of the last one, trailer lines and the line that ends them. -/
structure ChunkCut where
  chunks : List ChunkPiece
  last : Bytes
  trailers : List Bytes
  final : Bytes

def ChunkCut.data (cut : ChunkCut) : Bytes := cut.chunks.flatMap ChunkPiece.data

theorem ChunkCut.data_chunk (cut : ChunkCut) (line data gap : Bytes) :
    ({ cut with chunks := ⟨line, data, gap⟩ :: cut.chunks } : ChunkCut).data = data ++ cut.data := List.flatMap_cons

/-- What counts as a line: up to a newline, or all that is left of a stream that ends without one. -/
def TakesLine (ending : Ending) (line rest : Bytes) : Prop :=
  Conn.IsLine line ∨ ending = .eof ∧ Conn.splitLine line = (line, [], false) ∧ rest = []

/-- Trailer lines and the blank line after them at the start of a stream, and what is left then. -/
inductive CutsTrailers (ending : Ending) : List Bytes → Bytes → Bytes → Bytes → Prop where
  | blank {line rest : Bytes} {s : Str} : TakesLine ending line rest → fromUtf8 line = some s → trim s = [] →
      CutsTrailers ending [] line (line ++ rest) rest
  | more {lines : List Bytes} {line final input rest : Bytes} {s : Str} : TakesLine ending line input → fromUtf8 line = some s →
      trim s ≠ [] → CutsTrailers ending lines final input rest → CutsTrailers ending (line :: lines) final (line ++ input) rest

/-- A stream cut into chunks of at most `most` bytes and trailers, and what is left then. The two bytes after a chunk may be any. -/
inductive CutsChunks (ending : Ending) (most : Nat) : ChunkCut → Bytes → Bytes → Prop where
  | last {lines : List Bytes} {line final input rest : Bytes} {s : Str} : TakesLine ending line input → fromUtf8 line = some s →
      NamesSize s 0 → CutsTrailers ending lines final input rest → CutsChunks ending most ⟨[], line, lines, final⟩ (line ++ input) rest
  | chunk {cut : ChunkCut} {line data gap input rest : Bytes} {s : Str} : TakesLine ending line (data ++ (gap ++ input)) →
      fromUtf8 line = some s → NamesSize s data.length → data ≠ [] → data.length ≤ most → gap.length = 2 →
      CutsChunks ending most cut input rest →
      CutsChunks ending most { cut with chunks := ⟨line, data, gap⟩ :: cut.chunks } (line ++ (data ++ (gap ++ input))) rest

/-! ## The chunked coding of the standard -/

/-- An extension of a size line. -/
def isChunkExtension (ext : Str) : Bool := (ext.isEmpty || (ext.dropWhile isOws).head? == some ';') && !ext.any isCrlf

/-- A size line of the standard, for a size of 64 bits: hexadecimal digits, maybe an extension, and CRLF. -/
def BareSize (line : Bytes) (n : Nat) : Prop :=
  n < 2 ^ 64 ∧ ∃ digits ext, line = utf8 (digits ++ ext ++ "\r\n".toList) ∧ parseDigits 16 digits = some n ∧ isChunkExtension ext = true

/-- A trailer line of the standard: a field and CRLF. -/
def FieldLine (line : Bytes) : Prop := ∃ field, line = utf8 (field ++ "\r\n".toList) ∧ ':' ∈ field ∧ '\n' ∉ field

/-- Trailer lines and the empty line after them. -/
inductive TrailerSection : Bytes → Prop where
  | empty : TrailerSection (utf8 "\r\n".toList)
  | line {line rest : Bytes} : FieldLine line → TrailerSection rest → TrailerSection (line ++ rest)

/-- A body in the chunked coding of the standard, and its data. -/
inductive ChunkedBody : Bytes → Bytes → Prop where
  | last {line trailers : Bytes} : BareSize line 0 → TrailerSection trailers → ChunkedBody [] (line ++ trailers)
  | chunk {line data more rest : Bytes} : BareSize line data.length → data ≠ [] → ChunkedBody more rest →
      ChunkedBody (data ++ more) (line ++ (data ++ (utf8 "\r\n".toList ++ rest)))

/-- The pieces of a cut as the standard has them: bare digits in the size lines, a literal CRLF after each chunk, fields in the trailer
lines and an empty line after them. -/
structure ChunkCut.Strict (cut : ChunkCut) : Prop where
  sizes : ∀ line ∈ cut.last :: cut.chunks.map ChunkPiece.line, ∃ n, BareSize line n
  gaps : ∀ p ∈ cut.chunks, p.gap = utf8 "\r\n".toList
  trailers : ∀ line ∈ cut.trailers, FieldLine line
  final : cut.final = utf8 "\r\n".toList

/-- A body of `n` bytes is within a limit; the sum of the sizes of its chunks saturates. -/
abbrev fits (limit n : Nat) : Prop := min n (2 ^ 64 - 1) ≤ limit

/-- The bytes of a body under a framing. -/
def Delimits : BodyFraming → Bytes → Prop
  | .chunked, body => ChunkedCoding body
  | .length n, body => body.length = n
  | .empty, body => body = []

/-- The body of a message by its head: in chunked coding if that is the last of its codings and no length is given, of the given
length if that is clear and there are no codings, and none if there is neither. -/
inductive MessageBody (w : FramingFields) (body : Bytes) : Prop where
  | chunked : w.endsChunked = true → w.contentLengths = [] → ChunkedCoding body → MessageBody w body
  | length {n : Nat} : w.transferEncodings = [] → w.ClearLength n → body.length = n → MessageBody w body
  | none : w.transferEncodings = [] → w.contentLengths = [] → body = [] → MessageBody w body

/-! ## Requests framed by their heads -/

/-- A request is framed by the bytes of its head, given the requests that the server takes from the connection after it. With a
`Transfer-Encoding` its body is read in chunked coding, which is then its last coding and the only framing given, or it is answered
with an error and nothing more is taken. A length frames it only if it is clear and the only framing given. The next request starts
right after its body; after a body of the standard's chunked coding, if there is one. -/
structure Framed (x : Exchange) (after : List Exchange) : Prop where
  encoded : (wireFraming x.start).transferEncodings ≠ [] →
    (x.framing = some .chunked ∧ (wireFraming x.start).endsChunked = true ∧ (wireFraming x.start).contentLengths = []) ∨
    (x.request = none ∧ (∃ status, x.reply = some status ∧ 400 ≤ status.code.toNat) ∧ after = [])
  length : ∀ n, x.framing = some (.length n) → (wireFraming x.start).transferEncodings = [] ∧ (wireFraming x.start).ClearLength n
  next : ∀ y, after.head? = some y → ∃ body, afterEmptyLine x.start = body ++ y.start ∧ MessageBody (wireFraming x.start) body
  chunks : x.framing = some .chunked → ∀ y, after.head? = some y → ∀ data used rest, afterEmptyLine x.start = used ++ rest →
    ChunkedBody data used → rest = y.start

/-! ## Heads that the server reads right -/

/-- Two lengths differ, or one is none. -/
def lengthsClash : List Str → Bool
  | [] => false
  | v :: vs => (HeaderMap.parseLength v).isNone || vs.any (fun w => HeaderMap.parseLength w != HeaderMap.parseLength v)

/-- The heads whose framing the server decides as the fields have it. A clash of lengths is always refused. With a
`Transfer-Encoding`, the first of its fields mentions `chunked`, and either a length is given, which is refused, or the last coding is
`chunked`. Without, no length has a sign. -/
def FramingFields.isUnambiguous (w : FramingFields) : Bool :=
  lengthsClash w.contentLengths || match w.transferEncodings with
    | [] => w.contentLengths.all (fun v => v.head? != some '+')
    | v :: _ => mentionsChunked v && (!w.contentLengths.isEmpty || w.endsChunked)

/-- The framing that the guard lets pass. -/
def HeaderMap.Accepts (h : HeaderMap) (f : BodyFraming) : Prop :=
  ∃ r, h.contentLengthChecked = .ok r ∧ ¬(h.isChunked && r.isSome) = true ∧ f = bodyFraming h.isChunked r

/-- Whether a framing leaves nothing to read. -/
def BodyFraming.isNothing : BodyFraming → Bool
  | .chunked => false
  | .length n => n == 0
  | .empty => true

/-- A header line added to some headers: a line without a colon is skipped. -/
def addLine (h : HeaderMap) (text : Str) : HeaderMap :=
  match splitOnce ':' text with
  | some (k, v) => h.append (trim k) (trim v)
  | none => h

/-- Whether a header line is not blank to the server. -/
def isField (line : Bytes) : Bool := trimEndCrlf (fromUtf8Lossy line) ≠ []

/-- Header lines added to some headers, as the server reads them. -/
def addLines (h : HeaderMap) (lines : List Bytes) : HeaderMap :=
  lines.foldl (fun h line => addLine h (trimEndCrlf (fromUtf8Lossy line))) h

/-- A header line that the server reads as it stands: it is not blank to it, it does not go on with the line before, and the server
finds the same framing fields in it. -/
def readsAlike (line : Bytes) : Bool :=
  isField line && !(lineText line).head?.any isOws && (addLines HeaderMap.new [line]).framing = framingOf (lineFields line)

/-- The heads that the server reads as they stand and whose framing it decides as the fields have it. -/
def isClearHead (start : Bytes) : Bool := (headLines start).all readsAlike && (wireFraming start).isUnambiguous

/-! ## Responses as they are read back -/

/-- The status of a response is not an interim one, and in the range of those in use. -/
def StatusCode.isFinal (status : StatusCode) : Prop := 200 ≤ status.code.toNat ∧ status.code.toNat ≤ 599

/-- What a response is to hand over: nothing for `HEAD`, `204` and `304`, otherwise the data of its chunks or its fixed body. -/
def HttpResponse.entity (resp : HttpResponse) (method : Method) : Bytes :=
  if bodyless method resp.status then []
  else
    match resp.stream with
    | some chunks => chunks.flatten
    | none => resp.body

/-- The handler has left the framing and the connection to the server. -/
def HttpResponse.Unframed (resp : HttpResponse) : Prop :=
  ∀ e ∈ resp.headers.entries, eqIgnoreAsciiCase e.1 "content-length".toList = false ∧
    eqIgnoreAsciiCase e.1 "transfer-encoding".toList = false ∧ eqIgnoreAsciiCase e.1 "connection".toList = false

/-- All fields of the head of a response. -/
def responseFields (resp : HttpResponse) (method : Method) (keep : Bool) : List (Str × Str) :=
  resp.headers.entries ++ (if resp.stream.isSome && !bodyless method resp.status then
      if resp.headers.contains "transfer-encoding".toList then [] else [("Transfer-Encoding".toList, "chunked".toList)]
    else if !resp.headers.contains "content-length".toList && !noContent resp.status then
      [("Content-Length".toList, Nat.toDigits 10 resp.body.length)]
    else []) ++
    (if resp.headers.contains "connection".toList then []
    else [("Connection".toList, if keep then "keep-alive".toList else "close".toList)])

/-- A field as it is read back from its line: its name ends at the first colon. -/
def wireField (e : Str × Str) : Str × Str :=
  match splitOnce ':' (e.1 ++ ": ".toList ++ e.2) with
  | some (k, v) => (trim k, trim v)
  | none => ([], [])

/-- The headers that are read back from some fields. -/
def readBack (h : HeaderMap) (fields : List (Str × Str)) : HeaderMap :=
  fields.foldl (fun h e => h.append (wireField e).1 (wireField e).2) h

/-- The fields are within the limits of the reader: their number, the length of each line and of all of them. -/
def fieldsFit (fields : List (Str × Str)) : Bool :=
  decide (fields.length ≤ MAX_HEADERS) && fields.all (fun e => decide ((utf8 (headerLine e)).length ≤ MAX_LINE_BYTES)) &&
    decide ((utf8 (fields.flatMap headerLine)).length + 2 ≤ MAX_HEADER_TOTAL_BYTES)

/-- The responses that are read back as they were written. The head is within the limits. If the status has a body, no name that the
handler gave reads as a `Transfer-Encoding` or a `Content-Length` that frames the body otherwise, and the length written in the
head is the number of bytes that follow; for `HEAD` it is that of the body, of which none follow. -/
def HttpResponse.isReadBack (resp : HttpResponse) (method : Method) (keep : Bool) : Bool :=
  let codings := valuesOf "transfer-encoding".toList (resp.headers.entries.map wireField)
  let lengths := valuesOf "content-length".toList (resp.headers.entries.map wireField)
  fieldsFit (responseFields resp method keep) && (noContent resp.status ||
      if resp.stream.isSome && method != .head then codings.head?.all mentionsChunked
      else !codings.head?.any mentionsChunked && (lengths.head?.map HeaderMap.parseLength).getD (some resp.body.length) ==
          some (if method = .head then 0 else resp.body.length))

end Ferroly.Http
