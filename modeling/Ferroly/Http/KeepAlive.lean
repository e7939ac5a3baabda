import Ferroly.Lib.Ghost
import Ferroly.Http.Client
import Ferroly.Http.Spec

/-!
# What becomes of a connection after a response

The server of one connection again, with a ledger: for every response that has been written, the request it answers, what
`write_response` was given, and whether the loop then goes on to another request or closes the connection.
-/

namespace Ferroly.Http

/-- What `handle_one` has settled when it comes to write: the request the handler got, if it got one, the response, the flag for
`Connection`, and its own result. -/
structure Reply where
  request : Option Request
  response : HttpResponse
  keep : Bool
  goesOn : Bool

/-- A response without a handler. -/
def refusal (response : HttpResponse) : Reply := ⟨none, response, false, false⟩

/-- `handleOne` up to the writing of the response. -/
def decideReply (config : ServerConfig) (handler : Nat → Request → HttpResponse) (head : RequestHead) (served : Nat) :
    Task ServerConn HttpError Reply :=
  let chunked := head.headers.isChunked
  match head.headers.contentLengthChecked with
  | .error _ => pure (refusal (HttpResponse.text .BAD_REQUEST "invalid Content-Length".toList))
  | .ok contentLength =>
    if chunked && contentLength.isSome then
      pure (refusal (HttpResponse.text .BAD_REQUEST "conflicting Content-Length and Transfer-Encoding".toList))
    else do
      note (fun x => { x with framing := some (bodyFraming chunked contentLength) })
      sendContinue head.headers (chunked || contentLength.getD 0 > 0)
      match ← onConn (readBody config chunked contentLength) with
      | none => pure (refusal (HttpResponse.text .PAYLOAD_TOO_LARGE "payload too large".toList))
      | some body => do
        let req := serverRequest head body
        note (fun x => { x with request := some req })
        pure ⟨some req, handler served req, wantsKeepAlive head.headers && served < config.maxKeepAliveRequests,
          wantsKeepAlive head.headers⟩

/-- One entry of the ledger: the response to the request of number `served`, and whether the connection stays open after it. -/
structure Turn where
  served : Nat
  method : Method
  reply : Reply
  stays : Bool

/-- The server with its ledger, the latest entry first. -/
structure WatchedServer where
  server : ServerConn
  turns : List Turn

/-- A task on the server itself. -/
def onServer {α : Type} (p : Task ServerConn HttpError α) : Task WatchedServer HttpError α :=
  p.zoom WatchedServer.server (fun s w => { w with server := s })

/-- `serveLoop` with a ledger. -/
def watchedLoop (config : ServerConfig) (handler : Nat → Request → HttpResponse) (drained : Nat → Bool) :
    Nat → Nat → Task WatchedServer HttpError Unit
  | 0, _ => Task.diverge
  | fuel + 1, served => do
    if drained served then pure ()
    else do
      let w ← Task.get
      match ← (onServer (onConn (readRequestHead.timeout .timeout))).attempt with
      | .error _ => pure ()
      | .ok head => do
        onServer (Task.modify (fun t =>
          { t with notes := ⟨w.server.conn.input, head, t.conn.input, none, none, none⟩ :: t.notes }))
        let reply ← onServer (decideReply config handler head (served + 1))
        onServer (answer reply.response head.method reply.keep)
        let stays := reply.goesOn && served + 1 < config.maxKeepAliveRequests
        Task.modify (fun w => { w with turns := ⟨served + 1, head.method, reply, stays⟩ :: w.turns })
        if stays then watchedLoop config handler drained fuel (served + 1) else pure ()

/-- A run of the server on a connection, with its ledger. -/
def watchedServe (config : ServerConfig) (handler : Nat → Request → HttpResponse) (drained : Nat → Bool) (conn : Conn) :
    Except (Fault HttpError) Unit × WatchedServer :=
  watchedLoop config handler drained (config.maxKeepAliveRequests + 1) 0 ⟨⟨conn, []⟩, []⟩

/-- The responses of a run. -/
def turns (config : ServerConfig) (handler : Nat → Request → HttpResponse) (drained : Nat → Bool) (conn : Conn) : List Turn :=
  (watchedServe config handler drained conn).2.turns.reverse

/-! ## The header that tells the client -/

/-- What the client makes of the `Connection` header of the response, as it reads it. -/
def Turn.clientKeeps (t : Turn) : Bool :=
  responseKeepAlive (readBack HeaderMap.new (responseFields t.reply.response t.method t.reply.keep))

/-- The headers a handler has set, as the client reads them. -/
def ownHeaders (resp : HttpResponse) : HeaderMap := readBack HeaderMap.new resp.headers.entries

/-- The handler leaves `Connection` to the server, or says there what the server does: it keeps the connection if the request
permits it and is not the last one the limit allows. -/
def Turn.agrees (config : ServerConfig) (t : Turn) : Bool :=
  match t.reply.request with
  | none => true
  | some req =>
    !(ownHeaders t.reply.response).contains "connection".toList || responseKeepAlive (ownHeaders t.reply.response) ==
        (wantsKeepAlive req.headers && decide (t.served < config.maxKeepAliveRequests))

end Ferroly.Http
