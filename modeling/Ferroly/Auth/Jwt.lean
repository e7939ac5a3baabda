import Ferroly.Auth.Base64Url
import Ferroly.Hash.Sha256
import Ferroly.Lib.FloatOrder
import Ferroly.Codec.Json

/-!
# JSON web tokens

Minting and verifying HS256 tokens. The clock is an argument, in whole seconds; the text of the claims is written with a given
display of floats.
-/

namespace Ferroly.Auth

/-- Errors from token verification. -/
inductive JwtError where
  | malformed
  | unsupportedAlg
  | invalidSignature
  | expired
  | notYetValid
  deriving DecidableEq, Repr

/-- The header of every minted token. -/
def jwtHeader : Str := "\x7b\"alg\":\"HS256\",\"typ\":\"JWT\"\x7d".toList

/-- Mint a token for claims signed with a secret. -/
def encodeHs256 (D : FloatDisplay binary64) (claims : Value) (secret : Bytes) : Str :=
  let header := b64urlEncode (utf8 jwtHeader)
  let payload := b64urlEncode (utf8 (Json.toString D claims))
  let signingInput := header ++ '.' :: payload
  let sig := Hash.hmacSha256 secret (utf8 signingInput)
  signingInput ++ '.' :: b64urlEncode sig

/-- A value as a number, if it is one. -/
def asNumber : Value → Except Unit F64
  | .int i => .ok (Flt.ofInt binary64 i.val)
  | .uint u => .ok (Flt.ofInt binary64 u.val)
  | .float f => .ok f
  | _ => .error ()

/-- A numeric claim: none if it is absent, an error if it is present and no number. -/
def numericClaim (claims : Value) (key : Str) : Option (Except Unit F64) := (claims.get key).map asNumber

/-- Length-checked, timing-safe comparison. -/
def constantTimeEq (a b : Bytes) : Bool :=
  if a.length ≠ b.length then false else (a.zip b).foldl (fun diff xy => diff ||| (xy.1 ^^^ xy.2)) 0 == 0

/-- The bytes of a segment as a JSON value; whatever is wrong with them, the token is malformed. -/
def segmentJson (segment : Str) : Except (Fault JwtError) Value :=
  match b64urlDecode segment with
  | none => .error (.error .malformed)
  | some bytes =>
    match Json.fromSlice bytes with
    | .ok v => .ok v
    | .error (.error _) => .error (.error .malformed)
    | .error .panic => .error .panic
    | .error .diverge => .error .diverge

/-- The check of a claim about time: a number that fails it is an error of its own, anything but a number malformed. -/
def checkClaim (claims : Value) (key : Str) (fails : F64 → Bool) (e : JwtError) : Except (Fault JwtError) Unit :=
  match numericClaim claims key with
  | some (.ok x) => if fails x then .error (.error e) else .ok ()
  | some (.error ()) => .error (.error .malformed)
  | none => .ok ()

/-- The checks of the `exp` and the `nbf` claim against the clock. -/
def checkTimes (now : F64) (claims : Value) : Except (Fault JwtError) Value := do
  checkClaim claims "exp".toList (fun exp => exp.le now) .expired
  checkClaim claims "nbf".toList (fun nbf => now.lt nbf) .notYetValid
  pure claims

/-- The header must name the algorithm. -/
def checkAlg (header : Value) : Except (Fault JwtError) Unit :=
  if (header.get "alg".toList).bind Value.asStr ≠ some "HS256".toList then .error (.error .unsupportedAlg) else .ok ()

/-- The signature must be that of the two segments before it, as they stand. -/
def checkSignature (secret : Bytes) (h p s : Str) : Except (Fault JwtError) Unit :=
  let expected := Hash.hmacSha256 secret (utf8 (h ++ '.' :: p))
  match b64urlDecode s with
  | none => .error (.error .malformed)
  | some actual => if !constantTimeEq expected actual then .error (.error .invalidSignature) else .ok ()

/-- Verify a token under a secret and return its claims. -/
def decodeHs256 (now : Nat) (token : Str) (secret : Bytes) : Except (Fault JwtError) Value :=
  match split '.' token with
  | [h, p, s] => do
    let header ← segmentJson h
    checkAlg header
    checkSignature secret h p s
    let claims ← segmentJson p
    checkTimes (Flt.ofInt binary64 now) claims
  | _ => .error (.error .malformed)

/-! ## What a valid token is -/

/-- A number that is, exactly, greater than a whole number. -/
def isAfter (now : Nat) : Value → Bool
  | .int i => decide ((now : Int) < i.val)
  | .uint u => decide (now < u.val)
  | .float f => f.exceeds now
  | _ => false

/-- A number that is, exactly, at most a whole number. -/
def isBy (now : Nat) : Value → Bool
  | .int i => decide (i.val ≤ now)
  | .uint u => decide (u.val ≤ now)
  | .float f => f.atMost now
  | _ => false

/-- The token has not expired and is valid already. -/
structure InTime (now : Nat) (claims : Value) : Prop where
  exp : ∀ v, claims.get "exp".toList = some v → isAfter now v = true
  nbf : ∀ v, claims.get "nbf".toList = some v → isBy now v = true

/-- The header segment names the algorithm. -/
def NamesHs256 (h : Str) : Prop :=
  ∃ bytes v, Denotes h bytes ∧ Json.fromSlice bytes = .ok v ∧ v.get "alg".toList = some (.str "HS256".toList)

/-- Three segments are a token with these claims that the secret signed. -/
structure Signed (secret : Bytes) (h p s : Str) (claims : Value) : Prop where
  header : NamesHs256 h
  signature : Denotes s (Hash.Spec.hmacSha256 secret (utf8 (h ++ '.' :: p)))
  payload : ∃ bytes, Denotes p bytes ∧ Json.fromSlice bytes = .ok claims

/-- A string is a valid token with these claims. -/
def Valid (now : Nat) (secret : Bytes) (token : Str) (claims : Value) : Prop :=
  ∃ h p s, token = h ++ '.' :: p ++ '.' :: s ∧ '.' ∉ h ∧ '.' ∉ p ∧ '.' ∉ s ∧ Signed secret h p s claims ∧ InTime now claims

end Ferroly.Auth
