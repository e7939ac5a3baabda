import Ferroly.Rest.Client
import Ferroly.Turbo.Router

/-!
# Query parameters

A query as the router's context reads it.
-/

namespace Ferroly.Turbo

open Http

/-- The byte of the two hexadecimal digits some bytes begin with. -/
def hexPair : Bytes → Option UInt8
  | high :: low :: _ => ((fromUtf8 [high, low]).bind (parseUnsigned 8 16)).map UInt8.ofNat
  | _ => none

/-- The loop of `percent_decode`, with the bytes of an escape still to pass over. -/
def percentDecodeFrom : Nat → Bytes → Bytes
  | _, [] => []
  | skip + 1, _ :: bs => percentDecodeFrom skip bs
  | 0, b :: bs =>
    if b = byte '+' then byte ' ' :: percentDecodeFrom 0 bs
    else if b = byte '%' then
      match hexPair bs with
      | some v => v :: percentDecodeFrom 2 bs
      | none => b :: percentDecodeFrom 0 bs
    else b :: percentDecodeFrom 0 bs

def percentDecode (s : Str) : Str := fromUtf8Lossy (percentDecodeFrom 0 (utf8 s))

/-- The loop of `percent_decode` over the index of a byte; `none` is a read out of range. -/
def percentDecodeAt (bytes : Bytes) (i : Nat) (out : Bytes) : Option Bytes :=
  if i < bytes.length then do
    let b ← bytes[i]?
    if b = byte '+' then percentDecodeAt bytes (i + 1) (out ++ [byte ' '])
    else if b = byte '%' ∧ i + 2 < bytes.length then
      let hex ← if i + 3 ≤ bytes.length then some ((bytes.drop (i + 1)).take 2) else none
      match (fromUtf8 hex).bind (parseUnsigned 8 16) with
      | some v => percentDecodeAt bytes (i + 3) (out ++ [UInt8.ofNat v])
      | none => percentDecodeAt bytes (i + 1) (out ++ [b])
    else percentDecodeAt bytes (i + 1) (out ++ [b])
  else some out
termination_by bytes.length - i

/-- A parameter of the query, its value percent-decoded. -/
def Ctx.queryParam (ctx : Ctx) (name : Str) : Option Str :=
  ctx.request.uri.query.bind (fun q =>
    (split '&' q).findSome? (fun pair =>
      let (k, v) := (splitOnce '=' pair).getD (pair, [])
      if k = name then some (percentDecode v) else none))

/-! ## On the wire -/

/-- What the server finds of a parameter in the target of a request to a URL. -/
def receivedParam (uri : Uri) (method : Method) (headers : HeaderMap) (body : Bytes) (params : Params) (name : Str) : Option Str :=
  Ctx.queryParam ⟨serverRequest ⟨method, uri.requestTarget, headers⟩ body, params⟩ name

/-- The value of the first pair with a key. -/
def firstValue (query : List (Str × Str)) (name : Str) : Option Str := (query.find? (fun p => p.1 == name)).map Prod.snd

end Ferroly.Turbo
