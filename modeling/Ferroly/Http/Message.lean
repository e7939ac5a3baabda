import Ferroly.Http.Io

/-!
# Streaming response bodies

A body reads its connection chunk by chunk. When it is complete and the response permits it, the connection goes back to the pool.
-/

namespace Ferroly.Http

/-- The most bytes of one chunk: 64 MiB. -/
def MAX_CHUNK_SIZE : Nat := 64 * 1024 * 1024

/-- The most bytes asked for by one read of a body. -/
def READ_SIZE : Nat := 16384

/-- Pool key: host, port and whether TLS is used. -/
abbrev PoolKey := Str × UInt16 × Bool

/-- A streaming body: its connection until it is finished, its framing, and the pool key to return the connection to. -/
structure Body where
  reader : Option Conn
  framing : Framing
  reclaim : Option PoolKey
  deriving DecidableEq

/-- A connection handed to the pool. -/
abbrev Put := PoolKey × Conn

namespace Body

/-- Hand the connection back to the pool, if the response permits it. -/
def reclaimConn (b : Body) : Body × Option Put :=
  match b.reclaim, b.reader with
  | some key, some conn => (⟨none, b.framing, none⟩, some (key, conn))
  | some _, none => (⟨none, b.framing, none⟩, none)
  | none, reader => (⟨reader, b.framing, none⟩, none)

end Body

/-- The size of a chunk by its first line: `;` starts an extension. -/
def chunkSize (line : Str) : Except HttpError Nat :=
  let size := trim ((split ';' (trim line)).headD [])
  match parseUnsigned 64 16 size with
  | some n => .ok n
  | none => .error (.protocol ("bad chunk size: " ++ String.ofList size))

/-- Consume trailers up to a blank line or the end of the stream. -/
def skipTrailers : Nat → Task Conn HttpError Unit
  | 0 => Task.diverge
  | fuel + 1 => do
    let (line, n) ← Conn.readLine.mapErr .io
    if n = 0 ∨ trim line = [] then pure () else skipTrailers fuel

/-- The read of one chunk: its data, or `none` for the last one. -/
def readChunk : Task Conn HttpError (Option Bytes) := do
  let (line, _) ← Conn.readLine.mapErr .io
  match chunkSize line with
  | .error e => Task.fail e
  | .ok size =>
    if size > MAX_CHUNK_SIZE then Task.fail (.protocol "chunk size exceeds maximum")
    else if size = 0 then do
      let c ← Task.get
      skipTrailers (c.input.length + 1)
      pure none
    else do
      let buf ← (Conn.readExact size).mapErr .io
      let _ ← (Conn.readExact 2).mapErr .io
      pure (some buf)

/-- The next chunk of a body, or `none` at its end; the body after it; and the connection if it went back to the pool. -/
def Body.nextChunk (b : Body) : Except (Fault HttpError) (Option Bytes) × Body × Option Put :=
  match b.reader with
  | none => (.ok none, b, none)
  | some conn =>
    match b.framing with
    | .done => (.ok none, b.reclaimConn)
    | .length 0 => (.ok none, ({ b with framing := .done } : Body).reclaimConn)
    | .length n =>
      match ((Conn.read (min n READ_SIZE)).mapErr HttpError.io) conn with
      | (.error e, conn) => (.error e, { b with reader := some conn }, none)
      | (.ok [], _) => (.ok none, { b with reader := none, framing := .done }, none)
      | (.ok buf, conn) => (.ok (some buf), { b with reader := some conn, framing := .length (n - buf.length) }, none)
    | .chunked =>
      match readChunk conn with
      | (.error e, conn) => (.error e, { b with reader := some conn }, none)
      | (.ok none, conn) => (.ok none, ({ b with reader := some conn, framing := .done } : Body).reclaimConn)
      | (.ok (some buf), conn) => (.ok (some buf), { b with reader := some conn }, none)
    | .eof =>
      match ((Conn.read READ_SIZE).mapErr HttpError.io) conn with
      | (.error e, conn) => (.error e, { b with reader := some conn }, none)
      | (.ok [], _) => (.ok none, { b with reader := none, framing := .done }, none)
      | (.ok buf, conn) => (.ok (some buf), { b with reader := some conn }, none)

end Ferroly.Http
