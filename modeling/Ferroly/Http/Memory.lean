import Ferroly.Lib.Ghost
import Ferroly.Http.Spec

/-!
# The bytes a server holds

The server of one connection again, with a meter: `held` is how many received bytes are in the buffers of the request at hand, and
`most` the most there have been. A read adds the bytes it takes off the connection, whatever its outcome; a byte that is copied from
one buffer to another counts once. The bytes of a head count until its request is done. A size line counts until its chunk has been
read, a trailer until it has been looked at. The reader's own buffer has a fixed size and counts as full.
-/

namespace Ferroly.Http

/-- The capacity of the buffered reader. -/
def BUFFER_BYTES : Nat := 8 * 1024

/-- A connection with a meter. -/
structure MeteredConn where
  conn : Conn
  held : Nat
  most : Nat

/-- A read into a buffer. -/
def hold {ε α : Type} (p : Task Conn ε α) : Task MeteredConn ε α := fun m =>
  let held := m.held + (m.conn.input.length - (p m.conn).2.input.length)
  ((p m.conn).1, ⟨(p m.conn).2, held, max m.most held⟩)

/-- Buffers are dropped, and so many bytes are left. -/
def keepHeld {ε : Type} (n : Nat) : Task MeteredConn ε Unit := Task.modify (fun m => { m with held := n })

/-! ## Chunked bodies -/

/-- `skipTrailers` with a meter; each line is dropped before the next one is read. -/
def meteredTrailers : Nat → Task MeteredConn HttpError Unit
  | 0 => Task.diverge
  | fuel + 1 => do
    let m ← Task.get
    let (line, n) ← hold (Conn.readLine.mapErr .io)
    if n = 0 ∨ trim line = [] then pure ()
    else do
      keepHeld m.held
      meteredTrailers fuel

/-- `readChunkedLoop` with a meter; the size line and the line end are dropped with the turn of the loop. -/
def meteredChunkedLoop (limit : Nat) : Nat → Bytes → Task MeteredConn HttpError (Option Bytes)
  | 0, _ => Task.diverge
  | fuel + 1, body => do
    let m ← Task.get
    let (line, n) ← hold (Conn.readLine.mapErr .io)
    if n = 0 then Task.fail (.protocol "unexpected EOF in chunked body")
    else
      match chunkSize line with
      | .error e => Task.fail e
      | .ok size =>
        if size = 0 then do
          let m' ← Task.get
          meteredTrailers (m'.conn.input.length + 1)
          pure (some body)
        else if min (body.length + size) (2 ^ 64 - 1) > limit then pure none
        else do
          let buf ← hold ((Conn.readExact size).mapErr .io)
          let _ ← hold ((Conn.readExact 2).mapErr .io)
          keepHeld (m.held + size)
          meteredChunkedLoop limit fuel (body ++ buf)

def meteredChunkedBody (limit : Nat) : Task MeteredConn HttpError (Option Bytes) := do
  let m ← Task.get
  meteredChunkedLoop limit (m.conn.input.length + 1) []

/-! ## One connection -/

/-- The state of the server with a meter. -/
structure MeteredServer where
  reader : MeteredConn
  notes : List Exchange

/-- The state without the meter. -/
def MeteredServer.plain (m : MeteredServer) : ServerConn := ⟨m.reader.conn, m.notes⟩

/-- A task on the metered connection. -/
def onReader {α : Type} (q : Task MeteredConn HttpError α) : Task MeteredServer HttpError α :=
  q.zoom MeteredServer.reader (fun r m => { m with reader := r })

/-- A task that receives nothing. -/
def unmetered {α : Type} (p : Task ServerConn HttpError α) : Task MeteredServer HttpError α := fun m =>
  ((p m.plain).1, ⟨{ m.reader with conn := (p m.plain).2.conn }, (p m.plain).2.notes⟩)

/-- `readBody` with a meter. -/
def meteredBody (config : ServerConfig) (chunked : Bool) (contentLength : Option Nat) : Task MeteredConn HttpError (Option Bytes) :=
  if chunked then (meteredChunkedBody config.maxBodyBytes).timeout .timeout
  else hold (readBody config false contentLength)

/-- `handleOne` with a meter. -/
def meteredHandleOne (config : ServerConfig) (handler : Nat → Request → HttpResponse) (head : RequestHead) (served : Nat) :
    Task MeteredServer HttpError Bool :=
  let chunked := head.headers.isChunked
  match head.headers.contentLengthChecked with
  | .error _ => unmetered (handleOne config handler head served)
  | .ok contentLength =>
    if chunked && contentLength.isSome then unmetered (handleOne config handler head served)
    else do
      unmetered (note (fun x => { x with framing := some (bodyFraming chunked contentLength) }))
      unmetered (sendContinue head.headers (chunked || contentLength.getD 0 > 0))
      let read ← onReader (meteredBody config chunked contentLength)
      unmetered (respond config handler head served read)

/-- `serveLoop` with a meter; nothing is left of a request when the next head is read. -/
def meteredLoop (config : ServerConfig) (handler : Nat → Request → HttpResponse) (drained : Nat → Bool) :
    Nat → Nat → Task MeteredServer HttpError Unit
  | 0, _ => Task.diverge
  | fuel + 1, served => do
    if drained served then pure ()
    else do
      onReader (keepHeld 0)
      let s ← Task.get
      match ← (onReader (hold (readRequestHead.timeout .timeout))).attempt with
      | .error _ => pure ()
      | .ok head => do
        unmetered (Task.modify (fun t => { t with notes := ⟨s.reader.conn.input, head, t.conn.input, none, none, none⟩ :: t.notes }))
        if (← meteredHandleOne config handler head (served + 1)) && served + 1 < config.maxKeepAliveRequests then
          meteredLoop config handler drained fuel (served + 1)
        else pure ()

/-- A run of the server on a connection, with its meter. -/
def meteredServe (config : ServerConfig) (handler : Nat → Request → HttpResponse) (drained : Nat → Bool) (conn : Conn) :
    Except (Fault HttpError) Unit × MeteredServer :=
  meteredLoop config handler drained (config.maxKeepAliveRequests + 1) 0 ⟨⟨conn, 0, 0⟩, []⟩

/-- The most received bytes held at any time of a run. -/
def peakBytes (config : ServerConfig) (handler : Nat → Request → HttpResponse) (drained : Nat → Bool) (conn : Conn) : Nat :=
  (meteredServe config handler drained conn).2.reader.most + BUFFER_BYTES

/-! ## The bound -/

/-- The most bytes of a head that is accepted. -/
def headBytes : Nat := MAX_LINE_BYTES + MAX_HEADER_TOTAL_BYTES

/-- What a request may take: its head, its body, a size line, and a trailer or the end of a chunk. -/
def heldBound (maxBodyBytes : Nat) : Nat := headBytes + maxBodyBytes + 2 * MAX_LINE_BYTES + 2

def memoryBound (maxBodyBytes : Nat) : Nat := heldBound maxBodyBytes + BUFFER_BYTES

/-- Whether the trailers up to a blank line are lines of at most `cap` bytes. -/
def shortTrailers (cap : Nat) : Nat → Bytes → Bool
  | 0, _ => true
  | fuel + 1, input =>
    let (line, rest, _) := Conn.splitLine input
    decide (line.length ≤ cap) && match fromUtf8 line with
      | some s => decide (trim s = []) || shortTrailers cap fuel rest
      | none => true

/-- Whether the size lines and trailers of a chunked body of at most `limit` bytes have at most `cap` bytes each. -/
def shortLines (cap : Nat) : Nat → Nat → Bytes → Bool
  | 0, _, _ => true
  | fuel + 1, limit, input =>
    let (line, rest, _) := Conn.splitLine input
    decide (line.length ≤ cap) && match (fromUtf8 line).map chunkSize with
      | some (.ok size) =>
        if size = 0 then shortTrailers cap (rest.length + 1) rest
        else decide (limit < size) || shortLines cap fuel (limit - size) (rest.drop (size + 2))
      | _ => true

/-- Whether the lines in the body of a request are no longer than those of a head may be. -/
def Exchange.hasShortLines (config : ServerConfig) (x : Exchange) : Bool :=
  x.framing != some .chunked || shortLines MAX_LINE_BYTES (x.afterHead.length + 1) config.maxBodyBytes x.afterHead

end Ferroly.Http
