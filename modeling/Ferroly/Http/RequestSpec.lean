import Ferroly.Http.ClientSpec

/-!
# Requests as they are read back

The head of a request is text that ends lines with a line feed. What a client takes from a URL stands in it as it is, so a line feed
in the host or the target makes a line of its own.
-/

namespace Ferroly.Http

/-- The request line. -/
def requestLine (req : Request) : Str :=
  req.method.asStr ++ " ".toList ++ req.uri.requestTarget ++ " HTTP/1.1\r\n".toList

/-- All fields of the head of a request. -/
def requestFields (req : Request) : List (Str × Str) :=
  (if req.headers.contains "host".toList then [] else [("Host".toList, req.uri.authority)]) ++ req.headers.entries ++
    (if !req.body.isEmpty && !req.headers.contains "content-length".toList then
      [("Content-Length".toList, Nat.toDigits 10 req.body.length)] else [])

/-- The lines some fields are written as, without the line feed at the end of each. -/
def wireLines (fields : List (Str × Str)) : List Str :=
  fields.flatMap (fun e => split '\n' (e.1 ++ ": ".toList ++ e.2 ++ "\r".toList))

/-- The lines are within the limits of the reader: their number, the length of each and of all of them. -/
def linesFit (lines : List Str) : Bool :=
  decide (lines.length ≤ MAX_HEADERS) && lines.all (fun l => decide ((utf8 (l ++ "\n".toList)).length ≤ MAX_LINE_BYTES)) &&
    decide ((utf8 (lines.flatMap (fun l => l ++ "\n".toList))).length + 2 ≤ MAX_HEADER_TOTAL_BYTES)

/-- A name that ends at its colon. -/
def isFieldName (name : Str) : Bool := !name.contains ':' && trim name == name

/-- A token without a space or a line feed. -/
def isWord (s : Str) : Bool := !s.contains ' ' && !s.contains '\n'

/-- Whether the `Host` that is added reads back: its first line is all of it, up to white space around it, and a line after a line
feed is neither blank nor a field. -/
def hostReadsBack (authority : Str) : Bool :=
  match split '\n' (authority ++ "\r".toList) with
  | [] => false
  | first :: more =>
    stripCrlf (trim first) == trim authority && more.all (fun l => !l.contains ':' && trimEndCrlf l != [])

/-- The requests whose heads are read back as they were written. -/
def Request.isReadBack (req : Request) : Bool :=
  isWord req.method.asStr && Method.parse req.method.asStr == req.method && isWord req.uri.requestTarget &&
    decide ((utf8 (requestLine req)).length ≤ MAX_LINE_BYTES) &&
    (req.headers.contains "host".toList || hostReadsBack req.uri.authority) &&
    req.headers.entries.all (fun e => isFieldName e.1) && linesFit (wireLines (requestFields req))

/-- From every connection that goes on with the head of the request, exactly this head is read: its method, its target, its fields
with their values trimmed. -/
def Request.ReadsBack (req : Request) : Prop :=
  ∀ (conn : Conn) (R : Bytes), conn.input = utf8 (requestHead req) ++ R →
    ∃ head conn', readRequestHead conn = (.ok head, conn') ∧ conn'.input = R ∧ head.method = req.method ∧
      head.target = req.uri.requestTarget ∧ head.headers.entries = (requestFields req).map (fun e => (e.1, trim e.2))

end Ferroly.Http
