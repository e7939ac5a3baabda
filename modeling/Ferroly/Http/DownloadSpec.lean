import Ferroly.Http.ClientSpec
import Ferroly.Http.Download

/-!
# Honest servers

What a server of one fixed resource may answer to a request, how it may put the answer on the wire, and how much of that a connection
may carry before it is dropped.
-/

namespace Ferroly.Http

/-- The answers of a server of a resource: all of it, the range that was asked for, that there is none, or a status that is neither a
success nor about ranges. -/
inductive Answer (res : Bytes) (req : Request) : StatusCode → Bytes → Prop where
  | full : Answer res req .OK res
  | ranged {k : Nat} : req.headers.get "range".toList = some (rangeValue k) → k < res.length →
      Answer res req .PARTIAL_CONTENT (res.drop k)
  | unsatisfiable {k : Nat} {entity : Bytes} : req.headers.get "range".toList = some (rangeValue k) → res.length ≤ k →
      Answer res req .RANGE_NOT_SATISFIABLE entity
  | other {status : StatusCode} {entity : Bytes} : ¬(200 ≤ status.code.toNat ∧ status.code.toNat < 300) →
      status ≠ .RANGE_NOT_SATISFIABLE → Answer res req status entity

/-- The line before a chunk: the digits of its size and maybe an extension. -/
def sizeLine (digits ext : Str) : Str := digits ++ ext ++ "\r\n".toList

/-- An extension of a size line. -/
def isExtension (ext : Str) : Bool := (ext.isEmpty || ext.head? == some ';') && !ext.contains '\n'

/-- Data in chunked coding: chunks, a chunk of size zero, trailers. The digits of a size may have zeros before them unless the sizes
are plain. -/
inductive ChunkedData (plain : Bool) : Bytes → Bytes → Prop where
  | last {digits ext : Str} {trailers : Bytes} : parseDigits 16 digits = some 0 → isExtension ext = true → Trailers trailers →
      ChunkedData plain [] (utf8 (sizeLine digits ext) ++ trailers)
  | chunk {digits ext : Str} {data more rest : Bytes} : parseDigits 16 digits = some data.length → data ≠ [] →
      isExtension ext = true → (plain = true → digits.head? ≠ some '0') → ChunkedData plain more rest →
      ChunkedData plain (data ++ more) (utf8 (sizeLine digits ext) ++ (data ++ (utf8 "\r\n".toList ++ rest)))

/-- No field frames the body: it ends with the connection. -/
def HeaderMap.closeDelimited (h : HeaderMap) : Prop := h.transferEncodings = [] ∧ h.contentLengths = []

/-- How an entity stands on the wire after a head, and whether its end is marked there: a part of it cannot be taken for all of it. -/
inductive Coding (h : HeaderMap) (entity : Bytes) : Bool → Bytes → Prop where
  | length : h.transferEncodings = [] → h.ClearLength entity.length → entity.length < 2 ^ 64 → Coding h entity false entity
  | chunked {v : Str} {plain : Bool} {coded : Bytes} : h.transferEncodings = [v] → eqIgnoreAsciiCase v "chunked".toList = true →
      ChunkedData plain entity coded → Coding h entity plain coded
  | close : h.closeDelimited → Coding h entity false entity

/-- What a server does on a connection for a request: an answer, as a head and a body, of which the connection carries a part or all,
and maybe what comes later. -/
structure Transfer (res : Bytes) (req : Request) (conn : Conn) where
  status : StatusCode
  headers : HeaderMap
  entity : Bytes
  head : Bytes
  coded : Bytes
  marked : Bool
  answer : Answer res req status entity
  isHead : ResponseHead head status headers
  coding : Coding headers entity marked coded
  arrives : conn.input <+: head ++ coded ∨ head ++ coded <+: conn.input ∧ ¬headers.closeDelimited

/-- A dropped connection does not pass for the end of the response: the response is complete, the connection does not end but fails,
or the head is complete and the end of its body is marked. -/
def Transfer.Detected {res : Bytes} {req : Request} {conn : Conn} (t : Transfer res req conn) : Prop :=
  conn.ending = .eof → t.head ++ t.coded <+: conn.input ∨ t.head <+: conn.input ∧ t.marked = true

/-- Every connection a call has used is of a server of the resource, and no drop of it passes for the end of a response. -/
def Downloaded.Served (res : Bytes) (d : Downloaded) : Prop :=
  ∀ req, d.request = some req → ∀ a ∈ d.attempts, ∃ t : Transfer res req a.before, t.Detected

end Ferroly.Http
