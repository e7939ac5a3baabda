import Ferroly.Http.Message

/-!
# The HTTP/1.1 server

The requests of one connection, served one after the other: the head is read, the guard against request smuggling decides how the
body is delimited, the handler answers and the response is written. What happens is noted down request by request; the notes are
not part of the program.

The handler may answer the same request differently at different times, so it is given the number of the request on the connection.
A handler that does not return, a shutdown and the deadlines are the environment's: a connection that sends nothing more (`stall`)
runs into the deadlines, and `drained` says from which request on the server is shutting down.
-/

namespace Ferroly.Http

/-! ## Responses -/

/-- A response of a handler: a fixed body, or a stream of chunks. -/
structure HttpResponse where
  status : StatusCode
  headers : HeaderMap
  body : Bytes
  stream : Option (List Bytes)
  deriving DecidableEq

namespace HttpResponse

def new (status : StatusCode) : HttpResponse := ⟨status, HeaderMap.new, [], none⟩

/-- Set a header. -/
def header (r : HttpResponse) (name value : Str) : HttpResponse := { r with headers := r.headers.set name value }

/-- A `text/plain` response. -/
def text (status : StatusCode) (s : Str) : HttpResponse :=
  { (new status).header "Content-Type".toList "text/plain; charset=utf-8".toList with body := utf8 s }

end HttpResponse

/-- Whether a status has no body, whatever the request. -/
def noContent (status : StatusCode) : Bool := status.code.toNat == 204 || status.code.toNat == 304

/-- Whether a response to a method has no body. -/
def bodyless (method : Method) (status : StatusCode) : Bool := method == .head || noContent status

/-- The head of a response. -/
def responseHead (resp : HttpResponse) (method : Method) (keep : Bool) : Str :=
  let streaming := resp.stream.isSome && !bodyless method resp.status
  "HTTP/1.1 ".toList ++ Nat.toDigits 10 resp.status.code.toNat ++ " ".toList ++ resp.status.reason ++ "\r\n".toList ++
    resp.headers.entries.flatMap headerLine ++
    (if streaming then
      if resp.headers.contains "transfer-encoding".toList then [] else headerLine ("Transfer-Encoding".toList, "chunked".toList)
    else if !resp.headers.contains "content-length".toList && !noContent resp.status then
      headerLine ("Content-Length".toList, Nat.toDigits 10 resp.body.length)
    else []) ++
    (if resp.headers.contains "connection".toList then []
    else headerLine ("Connection".toList, if keep then "keep-alive".toList else "close".toList)) ++
    "\r\n".toList

/-- One chunk: its size in upper-case hexadecimal, its data. -/
def chunkBytes (chunk : Bytes) : Bytes :=
  if chunk.isEmpty then []
  else utf8 ((Nat.toDigits 16 chunk.length).map Char.toUpper ++ "\r\n".toList) ++ chunk ++ utf8 "\r\n".toList

/-- What stands after the head of a response. -/
def responseBody (resp : HttpResponse) (method : Method) : Bytes :=
  if bodyless method resp.status then []
  else
    match resp.stream with
    | some chunks => chunks.flatMap chunkBytes ++ utf8 "0\r\n\r\n".toList
    | none => resp.body

/-- The bytes of a response. -/
def responseBytes (resp : HttpResponse) (method : Method) (keep : Bool) : Bytes :=
  utf8 (responseHead resp method keep) ++ responseBody resp method

/-- Write a response. -/
def writeResponse (resp : HttpResponse) (method : Method) (keep : Bool) : Task Conn HttpError Unit := do
  (Conn.writeAll (utf8 (responseHead resp method keep))).mapErr .io
  (Conn.writeAll (responseBody resp method)).mapErr .io

/-! ## Chunked request bodies -/

/-- The loop of `read_chunked_body`, after the data `body`. `none` when there is more than `limit` bytes of it; the sum
saturates. -/
def readChunkedLoop (limit : Nat) : Nat → Bytes → Task Conn HttpError (Option Bytes)
  | 0, _ => Task.diverge
  | fuel + 1, body => do
    let (line, n) ← Conn.readLine.mapErr .io
    if n = 0 then Task.fail (.protocol "unexpected EOF in chunked body")
    else
      match chunkSize line with
      | .error e => Task.fail e
      | .ok size =>
        if size = 0 then do
          let c ← Task.get
          skipTrailers (c.input.length + 1)
          pure (some body)
        else if min (body.length + size) (2 ^ 64 - 1) > limit then pure none
        else do
          let buf ← (Conn.readExact size).mapErr .io
          let _ ← (Conn.readExact 2).mapErr .io
          readChunkedLoop limit fuel (body ++ buf)

/-- Read a chunked request body of at most `limit` bytes. -/
def readChunkedBody (limit : Nat) : Task Conn HttpError (Option Bytes) := do
  let c ← Task.get
  readChunkedLoop limit (c.input.length + 1) []

/-! ## One connection -/

/-- The limits that bear on one connection. -/
structure ServerConfig where
  maxBodyBytes : Nat
  maxKeepAliveRequests : Nat

/-- How the body of a request is delimited. -/
inductive BodyFraming where
  | chunked
  | length (n : Nat)
  | empty
  deriving DecidableEq, Repr

/-- The framing the server decides on. -/
def bodyFraming (chunked : Bool) (contentLength : Option Nat) : BodyFraming :=
  if chunked then .chunked
  else
    match contentLength with
    | some n => .length n
    | none => .empty

/-- What is noted down about one request: its head between the input before and after it, the framing once it is decided, the
request the handler got, and the status answered. -/
structure Exchange where
  start : Bytes
  head : RequestHead
  afterHead : Bytes
  framing : Option BodyFraming
  request : Option Request
  reply : Option StatusCode
  deriving DecidableEq

/-- A connection of the server, with the notes on its requests, the latest first. -/
structure ServerConn where
  conn : Conn
  notes : List Exchange

/-- A task on the connection itself. -/
def onConn {α : Type} (p : Task Conn HttpError α) : Task ServerConn HttpError α :=
  p.zoom ServerConn.conn (fun c s => { s with conn := c })

/-- Complete the note on the request at hand. -/
def note (f : Exchange → Exchange) : Task ServerConn HttpError Unit :=
  Task.modify (fun s => { s with notes := s.notes.modifyHead f })

/-- Answer a request. -/
def answer (resp : HttpResponse) (method : Method) (keep : Bool) : Task ServerConn HttpError Unit := do
  note (fun x => { x with reply := some resp.status })
  onConn (writeResponse resp method keep)

/-- Whether the request carries `Expect: 100-continue`. -/
def expectsContinue (headers : HeaderMap) : Bool :=
  match headers.get "expect".toList with
  | some v => eqIgnoreAsciiCase (trim v) "100-continue".toList
  | none => false

/-- Whether the request's `Connection` header permits keep-alive. -/
def wantsKeepAlive (headers : HeaderMap) : Bool := keepAlive headers

/-- Read the body of a request. `none` when it is larger than the limit. -/
def readBody (config : ServerConfig) (chunked : Bool) (contentLength : Option Nat) : Task Conn HttpError (Option Bytes) :=
  if chunked then (readChunkedBody config.maxBodyBytes).timeout .timeout
  else
    match contentLength with
    | some len =>
      if len > config.maxBodyBytes then pure none
      else do
        let buf ← ((Conn.readExact len).mapErr .io).timeout .timeout
        pure (some buf)
    | none => pure (some [])

/-- The interim response to a client that waits for it before it sends a body. -/
def sendContinue (headers : HeaderMap) (expectsBody : Bool) : Task ServerConn HttpError Unit :=
  if expectsBody && expectsContinue headers then
    onConn ((Conn.writeAll (utf8 "HTTP/1.1 100 Continue\r\n\r\n".toList)).mapErr .io)
  else pure ()

/-- The request the handler gets. -/
def serverRequest (head : RequestHead) (body : Bytes) : Request :=
  let (path, query) := splitTarget head.target
  let host := (head.headers.get "host".toList).getD []
  ⟨head.method, ⟨[], host, 0, path, query⟩, head.headers, body⟩

/-- The rest of `handle_one`, once the body is read or found too large. -/
def respond (config : ServerConfig) (handler : Nat → Request → HttpResponse) (head : RequestHead) (served : Nat) :
    Option Bytes → Task ServerConn HttpError Bool
  | none => do
    answer (HttpResponse.text .PAYLOAD_TOO_LARGE "payload too large".toList) head.method false
    pure false
  | some body => do
    let reqKeepAlive := wantsKeepAlive head.headers
    note (fun x => { x with request := some (serverRequest head body) })
    answer (handler served (serverRequest head body)) head.method (reqKeepAlive && served < config.maxKeepAliveRequests)
    pure reqKeepAlive

/-- Serve one request; the result is whether the request permits keep-alive. -/
def handleOne (config : ServerConfig) (handler : Nat → Request → HttpResponse) (head : RequestHead) (served : Nat) :
    Task ServerConn HttpError Bool :=
  let chunked := head.headers.isChunked
  match head.headers.contentLengthChecked with
  | .error _ => do
    answer (HttpResponse.text .BAD_REQUEST "invalid Content-Length".toList) head.method false
    pure false
  | .ok contentLength =>
    if chunked && contentLength.isSome then do
      answer (HttpResponse.text .BAD_REQUEST "conflicting Content-Length and Transfer-Encoding".toList) head.method false
      pure false
    else do
      note (fun x => { x with framing := some (bodyFraming chunked contentLength) })
      sendContinue head.headers (chunked || contentLength.getD 0 > 0)
      let read ← onConn (readBody config chunked contentLength)
      respond config handler head served read

/-- The loop of `serve_conn`, after `served` requests. -/
def serveLoop (config : ServerConfig) (handler : Nat → Request → HttpResponse) (drained : Nat → Bool) :
    Nat → Nat → Task ServerConn HttpError Unit
  | 0, _ => Task.diverge
  | fuel + 1, served => do
    if drained served then pure ()
    else do
      let s ← Task.get
      match ← (onConn (readRequestHead.timeout .timeout)).attempt with
      | .error _ => pure ()
      | .ok head => do
        Task.modify (fun t => { t with notes := ⟨s.conn.input, head, t.conn.input, none, none, none⟩ :: t.notes })
        if (← handleOne config handler head (served + 1)) && served + 1 < config.maxKeepAliveRequests then
          serveLoop config handler drained fuel (served + 1)
        else pure ()

/-- Serve the requests of a connection, and note them down in order. -/
def serveConn (config : ServerConfig) (handler : Nat → Request → HttpResponse) (drained : Nat → Bool) (conn : Conn) :
    Except (Fault HttpError) Unit × Conn × List Exchange :=
  match serveLoop config handler drained (config.maxKeepAliveRequests + 1) 0 ⟨conn, []⟩ with
  | (r, s) => (r, s.conn, s.notes.reverse)

end Ferroly.Http
