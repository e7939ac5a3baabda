import Ferroly.Http.Client
import Ferroly.Http.Spec

/-!
# What the client owes its servers

How often a call of `send` delivers its request, and the calls that deliver it at most once.
-/

namespace Ferroly.Http

/-! ## Deliveries -/

/-- The bytes of a request. -/
def requestBytes (req : Request) : Bytes := utf8 (requestHead req) ++ req.body

/-- The complete request has reached the peer of the connection. -/
def Attempt.delivers (req : Request) (a : Attempt) : Bool := (a.before.output ++ requestBytes req).isPrefixOf a.after.received

/-- How many of the connections used have carried the complete request to their peer. -/
def deliveries (req : Request) (attempts : List Attempt) : Nat := attempts.countP (Attempt.delivers req)

/-- The head of a response cannot be read: the stream ends, fails or is malformed before its end. -/
def failsHead (conn : Conn) : Bool :=
  match (readResponseHead conn).1 with
  | .error (.error _) => true
  | _ => false

/-- The calls that deliver their request at most once. There is no idle connection; or the idle connection does not carry the whole
request, or the head of a response can be read from it, or nothing comes for ever; or no fresh connection is made, or it does not
carry the whole request. -/
def deliversOnce (pool : Pool) (req : Request) (connect : Except (Fault HttpError) Conn) : Bool :=
  match pool req.poolKey with
  | [] => true
  | idle :: _ =>
    !(idle.carries (requestBytes req) && failsHead (idle.wrote (requestBytes req)) && match connect with
      | .ok fresh => fresh.carries (requestBytes req)
      | .error _ => false)

/-! ## Complete responses -/

/-- Header lines up to the blank one, added to some headers. -/
inductive HeaderBlock : HeaderMap → Bytes → HeaderMap → Prop where
  | blank {h : HeaderMap} {line : Bytes} : Conn.IsLine line → trimEndCrlf (fromUtf8Lossy line) = [] → HeaderBlock h line h
  | field {h h' : HeaderMap} {line rest : Bytes} : Conn.IsLine line → trimEndCrlf (fromUtf8Lossy line) ≠ [] →
      HeaderBlock (addLine h (trimEndCrlf (fromUtf8Lossy line))) rest h' → HeaderBlock h (line ++ rest) h'

/-- The complete head of a response. -/
inductive ResponseHead : Bytes → StatusCode → HeaderMap → Prop where
  | mk {line block : Bytes} {code : Nat} {h : HeaderMap} : Conn.IsLine line →
      ((split ' ' (trimEnd (fromUtf8Lossy line)))[1]?).bind (parseUnsigned 16 10) = some code →
      HeaderBlock HeaderMap.new block h → ResponseHead (line ++ block) ⟨UInt16.ofNat code⟩ h

def StatusCode.isInterim (status : StatusCode) : Prop := 100 ≤ status.code.toNat ∧ status.code.toNat < 200

/-- The body of a response that delimits itself: none to `HEAD` and for two statuses, otherwise in chunked coding if that is the last
of its codings, or of the given length if that is clear and there are no codings. -/
inductive ResponseBody (method : Method) (status : StatusCode) (h : HeaderMap) (body : Bytes) : Prop where
  | none : bodyless method status = true → body = [] → ResponseBody method status h body
  | chunked : bodyless method status = false → h.endsChunked = true → ChunkedCoding body → ResponseBody method status h body
  | length {n : Nat} : bodyless method status = false → h.transferEncodings = [] → h.ClearLength n → body.length = n →
      ResponseBody method status h body

/-- Interim responses, and the complete final one. -/
inductive FinalResponse (method : Method) : Bytes → Prop where
  | interim {head rest : Bytes} {status : StatusCode} {h : HeaderMap} : ResponseHead head status h → status.isInterim →
      FinalResponse method rest → FinalResponse method (head ++ rest)
  | final {head body : Bytes} {status : StatusCode} {h : HeaderMap} : ResponseHead head status h → ¬status.isInterim →
      ResponseBody method status h body → FinalResponse method (head ++ body)

/-- A connection whose input was `start` when a request was written to it: the final response has been read and nothing after it, and
the peer has not been seen to close the connection. -/
def Drained (method : Method) (start : Bytes) (conn : Conn) : Prop :=
  (∃ used, start = used ++ conn.input ∧ FinalResponse method used) ∧ conn.sawEof = false

end Ferroly.Http
