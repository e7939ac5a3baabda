import Ferroly.Clients.Retry
import Ferroly.Codec.Value
import Ferroly.Http.Client

/-!
# The REST client

A request builder over the HTTP client: path and query parameters, headers, a body, authentication and retries. The connects and the
authentication provider may behave differently each time, so they are given the number of the execution. The encoding of a body is
done when it is set; here a builder holds its bytes, or the error kept for later.
-/

namespace Ferroly.Rest

open Http

inductive ClientError where
  | invalidRequest (reason : String)
  | transport (e : HttpError)
  | codec (e : CodecError)

structure RequestBuilder where
  method : Method
  url : Str
  pathParams : List (Str × Str)
  query : List (Str × Str)
  headers : List (Str × Str)
  contentType : Str
  body : Option Bytes
  deferredErr : Option CodecError

/-- A fully read response. -/
structure Response where
  status : Nat
  contentType : Option Str
  body : Bytes
  deriving DecidableEq

/-! ## URLs -/

/-- Substitute the parameters of a path one after the other. -/
def substitutePath (url : Str) (params : List (Str × Str)) : Except ClientError Str :=
  let out := params.foldl (fun out p => replace ("$\x7b".toList ++ p.1 ++ "\x7d".toList) p.2 out) url
  if containsStr out "$\x7b".toList then
    .error (.invalidRequest ("unsubstituted path placeholder in: " ++ String.ofList out))
  else .ok out

/-- A hexadecimal digit in upper case. -/
def hexDigit (n : Nat) : Char := (Nat.digitChar n).toUpper

/-- Percent-encode everything but letters, digits and four marks. -/
def urlEncode (s : Str) : Str :=
  (utf8 s).flatMap (fun b =>
    let c := Char.ofNat b.toNat
    if c.isAlphanum || c == '-' || c == '_' || c == '.' || c == '~' then [c]
    else ['%', hexDigit (b.toNat / 16), hexDigit (b.toNat % 16)])

/-- Append query parameters to a URL. -/
def appendQuery (url : Str) (query : List (Str × Str)) : Str :=
  if query.isEmpty then url
  else url ++ (if url.contains '?' then '&' else '?') ::
    ['&'].intercalate (query.map (fun p => urlEncode p.1 ++ '=' :: urlEncode p.2))

/-! ## Sending -/

/-- The client: its pool, the connections used so far in order, and how many requests have been executed. -/
structure ClientState where
  pool : Pool
  attempts : List Attempt
  executed : Nat

/-- What the client is configured with, and what the environment does at each execution. -/
structure Client where
  timeout : Bool
  retry : Option Clients.RetryPolicy
  auth : Nat → Request → Request
  connect : Nat → Except (Fault HttpError) Conn

/-- The request of a builder, at a URL without placeholders. -/
def RequestBuilder.request (b : RequestBuilder) (auth : Request → Request) (url : Str) : Except ClientError Request :=
  match Uri.parse (appendQuery url b.query) with
  | .error e => .error (.invalidRequest e.display)
  | .ok uri =>
    let headers := b.headers.foldl (fun h e => h.set e.1 e.2) HeaderMap.new
    let req : Request := match b.body with
      | some body => ⟨b.method, uri, headers.set "content-type".toList b.contentType, body⟩
      | none => ⟨b.method, uri, headers, []⟩
    .ok (auth req)

/-- Send a request and read its response to the end. -/
def execute (client : Client) (req : Request) : Task ClientState HttpError Response := fun s =>
  match send client.timeout s.pool req (client.connect s.executed) with
  | (.error e, pool, attempts) => (.error e, ⟨pool, s.attempts ++ attempts, s.executed + 1⟩)
  | (.ok resp, pool, attempts) =>
    match resp.bytes with
    | (r, _, put) =>
      (r.map (fun body => ⟨resp.status.code.toNat, resp.headers.get "content-type".toList, body⟩),
        ⟨(put.map pool.put).getD pool, s.attempts ++ attempts, s.executed + 1⟩)

/-- One execution of a request builder. -/
def executeOnce (client : Client) (b : RequestBuilder) (url : Str) : Task ClientState ClientError Response := do
  let s ← Task.get
  match b.request (client.auth s.executed) url with
  | .error e => Task.fail e
  | .ok req => (execute client req).mapErr .transport

/-- Whether a failed request may be retried: only after a transport error. -/
def isRetryable : ClientError → Bool
  | .transport _ => true
  | _ => false

/-- Whether a method is safe to retry after a transport failure. -/
def isIdempotent : Method → Bool
  | .get | .head | .put | .delete | .options | .trace => true
  | _ => false

/-- Send the request of a builder, applying authentication and retry. -/
def RequestBuilder.send (client : Client) (b : RequestBuilder) : Task ClientState ClientError Response :=
  match b.deferredErr with
  | some e => Task.fail (.codec e)
  | none =>
    match substitutePath b.url b.pathParams with
    | .error e => Task.fail e
    | .ok url =>
      match client.retry, isIdempotent b.method with
      | some policy, true => Clients.retry policy isRetryable (fun _ => pure ()) (executeOnce client b url)
      | _, _ => executeOnce client b url

end Ferroly.Rest
