import Ferroly.Http.Core

/-!
# HTTP/1.1 wire encoding and decoding

The heads of requests and responses as they are read from a connection, and requests as they are written.
-/

namespace Ferroly.Http

/-- The most bytes of a request line, a status line or a header line. -/
def MAX_LINE_BYTES : Nat := 16 * 1024

/-- The most header lines. -/
def MAX_HEADERS : Nat := 128

/-- The most bytes of all header lines. -/
def MAX_HEADER_TOTAL_BYTES : Nat := 64 * 1024

/-- The loop of `read_line_capped`, after the bytes `buf`; the count is how many more of them fit. -/
def readLineLoop : Nat → Bytes → Task Conn HttpError Bytes
  | room, buf => do
    match ← Conn.readU8.attempt with
    | .error .unexpectedEof => pure buf
    | .error e => Task.fail (.io e)
    | .ok b =>
      match room with
      | 0 => Task.fail (.protocol "request or header line too long")
      | room + 1 => if b = byte '\n' then pure (buf ++ [b]) else readLineLoop room (buf ++ [b])

/-- Read a line of at most `cap` bytes, and how many bytes it has; none at the end of the stream. -/
def readLineCapped (cap : Nat) : Task Conn HttpError (Str × Nat) := do
  let buf ← readLineLoop cap []
  pure (fromUtf8Lossy buf, buf.length)

/-- The loop of `read_headers`, with the number of headers there is still room for and the bytes read. -/
def readHeadersLoop : Nat → Nat → HeaderMap → Task Conn HttpError HeaderMap
  | room, total, headers => do
    let (line, n) ← readLineCapped MAX_LINE_BYTES
    if n = 0 then pure headers
    else if total + n > MAX_HEADER_TOTAL_BYTES then Task.fail (.protocol "header block too large")
    else if trimEndCrlf line = [] then pure headers
    else
      match room with
      | 0 => Task.fail (.protocol "too many headers")
      | room + 1 =>
        match splitOnce ':' (trimEndCrlf line) with
        | some (k, v) => readHeadersLoop room (total + n) (headers.append (trim k) (trim v))
        | none => readHeadersLoop room (total + n) headers

def readHeaders : Task Conn HttpError HeaderMap := readHeadersLoop MAX_HEADERS 0 HeaderMap.new

/-- Read a status line and headers. -/
def readResponseHead : Task Conn HttpError (StatusCode × HeaderMap) := do
  let (line, n) ← readLineCapped MAX_LINE_BYTES
  if n = 0 then Task.fail (.protocol "empty response")
  else
    match ((split ' ' (trimEnd line))[1]?).bind (parseUnsigned 16 10) with
    | none => Task.fail (.protocol ("bad status line: " ++ String.ofList (trim line)))
    | some code =>
      let headers ← readHeaders
      pure (⟨UInt16.ofNat code⟩, headers)

/-- The head of a request: its method, target and headers. -/
structure RequestHead where
  method : Method
  target : Str
  headers : HeaderMap
  deriving DecidableEq

/-- Read a request line and headers. -/
def readRequestHead : Task Conn HttpError RequestHead := do
  let (line, n) ← readLineCapped MAX_LINE_BYTES
  if n = 0 then Task.fail (.protocol "empty request")
  else
    match split ' ' (trimEnd line) with
    | method :: target :: _ =>
      let headers ← readHeaders
      pure ⟨Method.parse method, target, headers⟩
    | [_] => Task.fail (.protocol "no target")
    | [] => Task.fail (.protocol "no method")

/-- One header line. -/
def headerLine (e : Str × Str) : Str := e.1 ++ ": ".toList ++ e.2 ++ "\r\n".toList

/-- The head of a request in origin form. -/
def requestHead (req : Request) : Str :=
  req.method.asStr ++ " ".toList ++ req.uri.requestTarget ++ " HTTP/1.1\r\n".toList ++
    (if req.headers.contains "host".toList then [] else headerLine ("Host".toList, req.uri.authority)) ++
    req.headers.entries.flatMap headerLine ++
    (if !req.body.isEmpty && !req.headers.contains "content-length".toList then
      headerLine ("Content-Length".toList, Nat.toDigits 10 req.body.length) else []) ++
    "\r\n".toList

/-- Write a request. -/
def writeRequest (req : Request) : Task Conn HttpError Unit := do
  (Conn.writeAll (utf8 (requestHead req))).mapErr .io
  if !req.body.isEmpty then (Conn.writeAll req.body).mapErr .io

/-- How a response's body is delimited. -/
inductive Framing where
  | length (n : Nat)
  | chunked
  | eof
  | done
  deriving DecidableEq, Repr

/-- The framing of a response by its status and headers. -/
def responseFraming (status : StatusCode) (headers : HeaderMap) : Framing :=
  let code := status.code.toNat
  if code = 204 ∨ code = 304 ∨ 100 ≤ code ∧ code < 200 then .done
  else if headers.isChunked then .chunked
  else
    match headers.contentLength with
    | some len => .length len
    | none => .eof

end Ferroly.Http
