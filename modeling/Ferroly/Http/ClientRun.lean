import Ferroly.Http.ClientSpec

/-!
# Runs of a client

A client shared by any number of callers: they send requests, take chunks of the responses, give up on a call that waits, and drop
responses, in any order. Each response in flight is kept with the method of its request, the input its connection had when the request
was written, and whether a call for a chunk has failed or has been given up; these are not part of the program.
-/

namespace Ferroly.Http

/-- A response in flight. -/
structure InFlight where
  body : Body
  method : Method
  start : Bytes
  broken : Bool

/-- A call for a chunk that is given up after it has taken `taken` bytes. Only the read of a chunk's size and data takes several
steps; the other reads take nothing before they return. -/
def InFlight.cancel (x : InFlight) (taken : Nat) : InFlight :=
  match x.body.reader, x.body.framing with
  | some conn, .chunked =>
    let most := conn.input.length - (readChunk conn).2.input.length
    { x with body := { x.body with reader := some { conn with input := conn.input.drop (min taken most) } }, broken := true }
  | _, _ => x

/-- A client and its responses in flight. -/
structure ClientRun where
  pool : Pool
  flights : List InFlight

def ClientRun.new : ClientRun := ⟨Pool.new, []⟩

/-- What the callers may do. The outcome of the connect is the environment's. -/
inductive Action where
  | send (timeout : Bool) (req : Request) (connect : Except (Fault HttpError) Conn)
  | chunk (i : Nat)
  | cancel (i taken : Nat)
  | drop (i : Nat)

/-- The connection of the last attempt, before it was used. -/
def answering (attempts : List Attempt) : Option Conn := attempts.getLast?.map Attempt.before

/-- A connection put into the pool, with the response it comes from. -/
structure PutEvent where
  flight : InFlight
  put : Put

/-- One action. -/
def ClientRun.step (s : ClientRun) : Action → ClientRun × Option PutEvent
  | .send timeout req connect =>
    match Http.send timeout s.pool req (connect.map Conn.fresh) with
    | (.ok resp, pool, attempts) =>
      let start := ((answering attempts).map Conn.input).getD []
      (⟨pool, s.flights ++ [⟨resp.body, req.method, start, false⟩]⟩, none)
    | (.error _, pool, _) => (⟨pool, s.flights⟩, none)
  | .chunk i =>
    match s.flights[i]? with
    | none => (s, none)
    | some x =>
      match x.body.nextChunk with
      | (r, body, put) =>
        let failed := match r with
          | .ok _ => false
          | .error _ => true
        (⟨(put.map s.pool.put).getD s.pool, s.flights.set i { x with body := body, broken := x.broken || failed }⟩,
          put.map (fun p => ⟨x, p⟩))
  | .cancel i taken =>
    match s.flights[i]? with
    | none => (s, none)
    | some x => (⟨s.pool, s.flights.set i (x.cancel taken)⟩, none)
  | .drop i => (⟨s.pool, s.flights.eraseIdx i⟩, none)

/-- The connections put into the pool in a run, in order. -/
def ClientRun.puts (s : ClientRun) : List Action → List PutEvent
  | [] => []
  | a :: as => (s.step a).2.toList ++ (s.step a).1.puts as

/-! ## Runs with clear answers -/

/-- The framing that the client takes from a head is that of the response, or the connection is not to be reused. -/
def rightFraming (method : Method) (status : StatusCode) (h : HeaderMap) : Bool :=
  !responseKeepAlive h || !decide (100 ≤ status.code.toNat ∧ status.code.toNat < 200) && (noContent status ||
        if h.isChunked then method != .head && h.endsChunked
        else
          match h.contentLength with
          | none => true
          | some n =>
            if method = .head then n == 0
            else h.transferEncodings.isEmpty &&
              h.contentLengths.all (fun v => v.head? != some '+' && HeaderMap.parseLength v == some n))

/-- The answer of a server: if its stream ends, it has a complete head; and a complete head has the right framing. -/
def ClearAnswer (method : Method) (conn : Conn) : Prop :=
  (conn.ending = .eof → ∃ head rest status h, conn.input = head ++ rest ∧ ResponseHead head status h) ∧
    ∀ head rest status h, conn.input = head ++ rest → ResponseHead head status h → rightFraming method status h = true

/-- A last chunk in a stream that ends is complete, with its trailers. -/
def ClearEnd (conn : Conn) : Prop :=
  conn.ending = .eof → ∀ line after s, conn.input = line ++ after → Conn.IsLine line ∨ after = [] → fromUtf8 line = some s →
    chunkSize s = .ok 0 → Conn.IsLine line ∧ ∃ trailers rest, after = trailers ++ rest ∧ Trailers trailers

/-- An action whose answers are clear: a connection that gives a response has a clear answer; a chunk is not asked for after a call
for one has failed or has been given up, and its stream has a clear end. -/
def ClientRun.Clear (s : ClientRun) : Action → Prop
  | .send timeout req connect => ∀ resp pool attempts conn,
      Http.send timeout s.pool req (connect.map Conn.fresh) = (.ok resp, pool, attempts) → answering attempts = some conn →
      ClearAnswer req.method conn
  | .chunk i => ∀ x, s.flights[i]? = some x →
      x.broken = false ∧ ∀ conn, x.body.reader = some conn → x.body.framing = .chunked → ClearEnd conn
  | .cancel _ _ => True
  | .drop _ => True

/-- All actions of a run are clear. -/
def ClientRun.AllClear (s : ClientRun) : List Action → Prop
  | [] => True
  | a :: as => s.Clear a ∧ (s.step a).1.AllClear as

end Ferroly.Http
