import Ferroly.Http.Message

/-!
# The HTTP/1.1 client

Requests over pooled or fresh connections. A connect is the environment's: a call of `send` is given the outcome of the connect it
may make. The connections it uses are returned with its result, as they were before and after; that record is not part of the
program.
-/

namespace Ferroly.Http

/-! ## The pool -/

/-- The most idle connections of one key. -/
def MAX_IDLE_PER_HOST : Nat := 32

/-- The idle connections of each key, the one to be taken next first. -/
abbrev Pool : Type := PoolKey → List Conn

namespace Pool

def new : Pool := fun _ => []

/-- Remove an idle connection of a key. -/
def take (pool : Pool) (key : PoolKey) : Option (Conn × Pool) :=
  match pool key with
  | [] => none
  | conn :: rest => some (conn, Function.update pool key rest)

/-- Return a connection; it is dropped if there are too many. -/
def put (pool : Pool) (p : Put) : Pool :=
  if (pool p.1).length < MAX_IDLE_PER_HOST then Function.update pool p.1 (pool p.1 ++ [p.2]) else pool

end Pool

/-! ## Responses -/

/-- A response with a streaming body. -/
structure Response where
  status : StatusCode
  headers : HeaderMap
  body : Body
  deriving DecidableEq

/-- Whether the response's `Connection` header permits reusing the connection. -/
def responseKeepAlive (headers : HeaderMap) : Bool := keepAlive headers

/-- The response with a head, its body wired to return the connection to the pool if it can be reused. -/
def openResponse (key : PoolKey) (status : StatusCode) (headers : HeaderMap) (conn : Conn) : Response :=
  let framing := responseFraming status headers
  let reusable := responseKeepAlive headers && framing != .eof
  ⟨status, headers, ⟨some conn, framing, if reusable then some key else none⟩⟩

/-- Read the head of a response. -/
def receive (key : PoolKey) (conn : Conn) : Except (Fault HttpError) Response × Conn :=
  match readResponseHead conn with
  | (.error e, conn) => (.error e, conn)
  | (.ok (status, headers), conn) => (.ok (openResponse key status headers conn), conn)

/-- The loop of `bytes`, after the data `out`: the rest of the body, the body after it, and the connection if it went back to the
pool. -/
def Body.bytes : Nat → Body → Bytes → Except (Fault HttpError) Bytes × Body × Option Put
  | 0, b, _ => (.error .diverge, b, none)
  | fuel + 1, b, out =>
    match b.nextChunk with
    | (.error e, b', put) => (.error e, b', put)
    | (.ok (some chunk), b', _) => Body.bytes fuel b' (out ++ chunk)
    | (.ok none, b', put) => (.ok out, b', put)

/-- The connection of a body, wherever it is, unless it has been dropped. -/
def Body.unread (b : Body) (put : Option Put) : Option Conn := (put.map Prod.snd).or b.reader

/-- What a body hands over when it is read to its end, and its connection then. -/
def Body.finish (fuel : Nat) (b : Body) (out : Bytes) : Except (Fault HttpError) Bytes × Option Conn :=
  let r := b.bytes fuel out
  (r.1, r.2.1.unread r.2.2)

/-- As many chunks as a body can have: every chunk takes input. -/
def Body.fuel (b : Body) : Nat := (b.reader.map (fun c => c.input.length)).getD 0 + 1

/-- Read the entire body. -/
def Response.bytes (r : Response) : Except (Fault HttpError) Bytes × Body × Option Put := r.body.bytes r.body.fuel []

/-- What a response hands over, and its connection then. -/
def Response.finish (r : Response) : Except (Fault HttpError) Bytes × Option Conn := r.body.finish r.body.fuel []

/-! ## Requests -/

/-- Write a request and read the head of the response. -/
def exchange (req : Request) (key : PoolKey) (conn : Conn) : Except (Fault HttpError) Response × Conn :=
  match writeRequest req conn with
  | (.error e, conn) => (.error e, conn)
  | (.ok _, conn) => receive key conn

/-- One use of a connection for a request. -/
structure Attempt where
  before : Conn
  after : Conn
  deriving DecidableEq

def Request.poolKey (req : Request) : PoolKey := (req.uri.host, req.uri.port, req.uri.isTls)

/-- Send on a fresh connection. -/
def sendFresh (req : Request) (connect : Except (Fault HttpError) Conn) : Except (Fault HttpError) Response × List Attempt :=
  match connect with
  | .error e => (.error e, [])
  | .ok conn =>
    match exchange req req.poolKey conn with
    | (r, after) => (r, [⟨conn, after⟩])

/-- Send a request: on a pooled connection if there is one, and on a fresh one if that fails. -/
def sendInner (pool : Pool) (req : Request) (connect : Except (Fault HttpError) Conn) :
    Except (Fault HttpError) Response × Pool × List Attempt :=
  match pool.take req.poolKey with
  | none =>
    match sendFresh req connect with
    | (r, attempts) => (r, pool, attempts)
  | some (conn, pool) =>
    match exchange req req.poolKey conn with
    | (.ok resp, after) => (.ok resp, pool, [⟨conn, after⟩])
    | (.error .diverge, after) => (.error .diverge, pool, [⟨conn, after⟩])
    | (.error .panic, after) => (.error .panic, pool, [⟨conn, after⟩])
    | (.error (.error _), after) =>
      match sendFresh req connect with
      | (r, attempts) => (r, pool, ⟨conn, after⟩ :: attempts)

/-- Send a request within the deadline, if there is one. -/
def send (timeout : Bool) (pool : Pool) (req : Request) (connect : Except (Fault HttpError) Conn) :
    Except (Fault HttpError) Response × Pool × List Attempt :=
  match sendInner pool req connect with
  | (.error .diverge, pool, attempts) => (if timeout then .error (.error .timeout) else .error .diverge, pool, attempts)
  | r => r

end Ferroly.Http
