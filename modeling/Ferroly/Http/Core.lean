import Ferroly.Lib.Conn
import Ferroly.Lib.Digits

/-!
# HTTP value types

Methods, status codes, headers and request targets, and the error type of the HTTP stack.
-/

namespace Ferroly.Http

open List

inductive HttpError where
  | invalidUrl (url : String)
  | io (e : IoError)
  | tls (reason : String)
  | protocol (reason : String)
  | timeout
  deriving DecidableEq, Repr

/-- The text of an error, but for the system's own text of an I/O error. -/
def HttpError.display : HttpError → String
  | .invalidUrl url => "invalid url: " ++ url
  | .io _ => "io error"
  | .tls reason => "tls error: " ++ reason
  | .protocol reason => "malformed http: " ++ reason
  | .timeout => "timed out"

/-! ## Methods and status codes -/

inductive Method where
  | get
  | post
  | put
  | delete
  | patch
  | head
  | options
  | trace
  | connect
  | other (s : Str)
  deriving DecidableEq, Repr

/-- The method's token. -/
def Method.asStr : Method → Str
  | .get => "GET".toList
  | .post => "POST".toList
  | .put => "PUT".toList
  | .delete => "DELETE".toList
  | .patch => "PATCH".toList
  | .head => "HEAD".toList
  | .options => "OPTIONS".toList
  | .trace => "TRACE".toList
  | .connect => "CONNECT".toList
  | .other s => s

/-- The method of a token. -/
def Method.parse (s : Str) : Method :=
  if s = "GET".toList then .get
  else if s = "POST".toList then .post
  else if s = "PUT".toList then .put
  else if s = "DELETE".toList then .delete
  else if s = "PATCH".toList then .patch
  else if s = "HEAD".toList then .head
  else if s = "OPTIONS".toList then .options
  else if s = "TRACE".toList then .trace
  else if s = "CONNECT".toList then .connect
  else .other s

/-- A status code, a `u16`. -/
structure StatusCode where
  code : UInt16
  deriving DecidableEq, Repr

namespace StatusCode

def OK : StatusCode := ⟨200⟩
def PARTIAL_CONTENT : StatusCode := ⟨206⟩
def BAD_REQUEST : StatusCode := ⟨400⟩
def NOT_FOUND : StatusCode := ⟨404⟩
def METHOD_NOT_ALLOWED : StatusCode := ⟨405⟩
def PAYLOAD_TOO_LARGE : StatusCode := ⟨413⟩
def RANGE_NOT_SATISFIABLE : StatusCode := ⟨416⟩
def TOO_MANY_REQUESTS : StatusCode := ⟨429⟩
def SERVICE_UNAVAILABLE : StatusCode := ⟨503⟩

/-- A reason phrase for common codes. -/
def reason (s : StatusCode) : Str :=
  match s.code.toNat with
  | 200 => "OK".toList
  | 201 => "Created".toList
  | 202 => "Accepted".toList
  | 204 => "No Content".toList
  | 301 => "Moved Permanently".toList
  | 302 => "Found".toList
  | 304 => "Not Modified".toList
  | 400 => "Bad Request".toList
  | 401 => "Unauthorized".toList
  | 403 => "Forbidden".toList
  | 404 => "Not Found".toList
  | 405 => "Method Not Allowed".toList
  | 409 => "Conflict".toList
  | 413 => "Payload Too Large".toList
  | 422 => "Unprocessable Entity".toList
  | 429 => "Too Many Requests".toList
  | 500 => "Internal Server Error".toList
  | 502 => "Bad Gateway".toList
  | 503 => "Service Unavailable".toList
  | _ => []

end StatusCode

/-! ## Headers -/

/-- Whether a character ends a line. -/
def isCrlf (c : Char) : Bool := c == '\r' || c == '\n'

/-- Remove carriage returns and line feeds. -/
def stripCrlf (s : Str) : Str := if s.any isCrlf then s.filter (fun c => !isCrlf c) else s

theorem stripCrlf_eq (s : Str) : stripCrlf s = s.filter (fun c => !isCrlf c) := by
  unfold stripCrlf
  split
  · rfl
  · next h =>
    refine (filter_eq_self.mpr (fun c hc => ?_)).symm
    rw [any_eq_true] at h
    rw [Bool.not_eq_true']
    exact (Bool.not_eq_true _).mp (fun hq => h ⟨c, hc, hq⟩)

/-- No carriage return and no line feed. -/
def isOneLine (s : Str) : Bool := !s.any isCrlf

theorem isOneLine_stripCrlf (s : Str) : isOneLine (stripCrlf s) = true := by
  rw [stripCrlf_eq, isOneLine, Bool.not_eq_true', any_eq_false]
  intro c hc
  simpa using (mem_filter.mp hc).2

/-- Headers in order. Their names and values cannot end a line. -/
structure HeaderMap where
  entries : List (Str × Str)
  oneLine : ∀ e ∈ entries, isOneLine e.1 = true ∧ isOneLine e.2 = true

namespace HeaderMap

instance : DecidableEq HeaderMap := fun g h =>
  decidable_of_iff (g.entries = h.entries) (by cases g; cases h; simp)

def new : HeaderMap := ⟨[], by simp⟩

/-- Append a header. -/
def append (h : HeaderMap) (name value : Str) : HeaderMap :=
  ⟨h.entries ++ [(stripCrlf name, stripCrlf value)], by
    intro e he
    rcases mem_append.mp he with he | he
    · exact h.oneLine e he
    · rw [mem_singleton.mp he]
      exact ⟨isOneLine_stripCrlf name, isOneLine_stripCrlf value⟩⟩

/-- Set a header: the values of that name are replaced. -/
def set (h : HeaderMap) (name value : Str) : HeaderMap :=
  append ⟨h.entries.filter (fun e => !eqIgnoreAsciiCase e.1 (stripCrlf name)), fun e he =>
    h.oneLine e (mem_filter.mp he).1⟩ name value

/-- The first value of a name. -/
def get (h : HeaderMap) (name : Str) : Option Str :=
  (h.entries.find? (fun e => eqIgnoreAsciiCase e.1 name)).map Prod.snd

def contains (h : HeaderMap) (name : Str) : Bool := h.entries.any (fun e => eqIgnoreAsciiCase e.1 name)

/-- `text.trim().parse::<u64>().ok()`. -/
def parseLength (v : Str) : Option Nat := parseUnsigned 64 10 (trim v)

/-- The first `Content-Length`, if it is valid. -/
def contentLength (h : HeaderMap) : Option Nat := (h.get "content-length".toList).bind parseLength

/-- The loop of `content_length_checked`. -/
def contentLengthLoop : Option Nat → List (Str × Str) → Except HttpError (Option Nat)
  | seen, [] => .ok seen
  | seen, (k, v) :: entries =>
    if eqIgnoreAsciiCase k "content-length".toList then
      match parseLength v with
      | none => .error (.protocol "invalid Content-Length")
      | some n =>
        match seen with
        | some prev =>
          if prev ≠ n then .error (.protocol "conflicting Content-Length values") else contentLengthLoop (some n) entries
        | none => contentLengthLoop (some n) entries
    else contentLengthLoop seen entries

/-- The `Content-Length`, unless a value is invalid or two of them differ. -/
def contentLengthChecked (h : HeaderMap) : Except HttpError (Option Nat) := contentLengthLoop none h.entries

/-- Whether `Transfer-Encoding` indicates chunked framing. -/
def isChunked (h : HeaderMap) : Bool :=
  match h.get "transfer-encoding".toList with
  | some v => containsStr (toAsciiLowercase v) "chunked".toList
  | none => false

end HeaderMap

/-- Whether a `Connection` header permits keeping the connection: none does, and one without the option `close`. -/
def keepAlive (h : HeaderMap) : Bool :=
  match h.get "connection".toList with
  | some v => !(split ',' (toAsciiLowercase v)).any (fun t => trim t == "close".toList)
  | none => true

/-! ## Targets -/

/-- A URL, or the target of a request. -/
structure Uri where
  scheme : Str
  host : Str
  port : UInt16
  path : Str
  query : Option Str
  deriving DecidableEq, Repr

namespace Uri

def isTls (u : Uri) : Bool := u.scheme == "https".toList || u.scheme == "wss".toList

/-- The value of the `Host` header. -/
def authority (u : Uri) : Str :=
  let default : Nat := if u.isTls then 443 else 80
  if u.port.toNat = default then u.host else u.host ++ ':' :: Nat.toDigits 10 u.port.toNat

/-- The target in origin form. -/
def requestTarget (u : Uri) : Str :=
  match u.query with
  | some q => u.path ++ '?' :: q
  | none => u.path

end Uri

/-- The path and the query of a target; an empty path is `/`. -/
def splitTarget (target : Str) : Str × Option Str :=
  let (path, query) := match splitOnce '?' target with
    | some (p, q) => (p, some q)
    | none => (target, none)
  (if path = [] then "/".toList else path, query)

/-- Parse an absolute URL. -/
def Uri.parse (url : Str) : Except HttpError Uri :=
  match splitOnceStr "://".toList url with
  | none => .error (.invalidUrl (String.ofList url))
  | some (scheme, rest) =>
    let scheme := toAsciiLowercase scheme
    let defaultPort : Option Nat :=
      if scheme = "http".toList ∨ scheme = "ws".toList then some 80
      else if scheme = "https".toList ∨ scheme = "wss".toList then some 443
      else none
    match defaultPort with
    | none => .error (.invalidUrl ("unsupported scheme: " ++ String.ofList scheme))
    | some defaultPort =>
      let authority := rest.takeWhile (fun c => c != '/' && c != '?')
      let remainder := rest.dropWhile (fun c => c != '/' && c != '?')
      let hostPort : Option (Str × Nat) :=
        match rsplitOnce ':' authority with
        | some (h, p) => (parseUnsigned 16 10 p).map (fun port => (h, port))
        | none => some (authority, defaultPort)
      match hostPort with
      | none => .error (.invalidUrl (String.ofList url))
      | some (host, port) =>
        if host = [] then .error (.invalidUrl (String.ofList url))
        else
          let (path, query) := splitTarget remainder
          .ok ⟨scheme, host, UInt16.ofNat port, path, query⟩

/-! ## Requests -/

structure Request where
  method : Method
  uri : Uri
  headers : HeaderMap
  body : Bytes
  deriving DecidableEq

end Ferroly.Http
