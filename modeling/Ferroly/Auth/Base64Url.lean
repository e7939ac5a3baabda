import Ferroly.Lib.Bits
import Ferroly.Lib.Blocks

/-!
# Base64url

The encoder and the decoder of the `auth` module, and what a base64url text stands for: the bits of its digits, cut to whole bytes.
-/

namespace Ferroly.Auth

/-- The alphabet, by digit. -/
def B64URL : Str := "ABCDEFGHIJKLMNOPQRSTUVWXYZabcdefghijklmnopqrstuvwxyz0123456789-_".toList

/-- The character of a digit. -/
def b64urlChar (d : Nat) : Char := B64URL.getD d 'A'

/-- The characters of up to three bytes: one more than there are bytes. -/
def encodeChunk (chunk : Bytes) : Str :=
  let b0 := (chunk.getD 0 0).toNat
  let b1 := (chunk.getD 1 0).toNat
  let b2 := (chunk.getD 2 0).toNat
  let n := b0 <<< 16 ||| b1 <<< 8 ||| b2
  [b64urlChar (n >>> 18 &&& 63), b64urlChar (n >>> 12 &&& 63)] ++
    (if 1 < chunk.length then [b64urlChar (n >>> 6 &&& 63)] else []) ++ (if 2 < chunk.length then [b64urlChar (n &&& 63)] else [])

/-- URL-safe base64 without padding. -/
def b64urlEncode (input : Bytes) : Str := (chunksOf 3 input).flatMap encodeChunk

/-- The digit of a byte of the alphabet. -/
def b64urlVal (c : UInt8) : Option Nat :=
  if byte 'A' ≤ c ∧ c ≤ byte 'Z' then some (c - byte 'A').toNat
  else if byte 'a' ≤ c ∧ c ≤ byte 'z' then some (c - byte 'a' + 26).toNat
  else if byte '0' ≤ c ∧ c ≤ byte '9' then some (c - byte '0' + 52).toNat
  else if c = byte '-' then some 62
  else if c = byte '_' then some 63
  else none

/-- The bytes of up to four characters, aligned to the left when there are fewer; a single one is none. -/
def decodeChunk (chunk : Bytes) : Option Bytes := do
  let n ← chunk.foldlM (fun n c => (b64urlVal c).map (fun v => n <<< 6 ||| v)) 0
  let n := n <<< (6 * (4 - chunk.length))
  match chunk.length with
  | 4 => some [UInt8.ofNat (n >>> 16), UInt8.ofNat (n >>> 8), UInt8.ofNat n]
  | 3 => some [UInt8.ofNat (n >>> 16), UInt8.ofNat (n >>> 8)]
  | 2 => some [UInt8.ofNat (n >>> 16)]
  | _ => none

/-- Decode URL-safe base64, with or without padding. -/
def b64urlDecode (input : Str) : Option Bytes :=
  let bytes := (utf8 input).filter (· != byte '=')
  ((chunksOf 4 bytes).mapM decodeChunk).map List.flatten

/-! ## What a text stands for -/

/-- Digits of six bits stand for bytes, but for fewer than six bits at the end. -/
structure Regroups (ds : List Nat) (bs : Bytes) (extra : List Bool) : Prop where
  bits : bitsOf 6 ds = bitsOf 8 (bs.map UInt8.toNat) ++ extra
  short : extra.length < 6

/-- A text of the alphabet, wherever it has `=` signs, stands for bytes. -/
def Denotes (s : Str) (bs : Bytes) : Prop :=
  ∃ ds extra, s.filter (· != '=') = ds.map b64urlChar ∧ (∀ d ∈ ds, d < 64) ∧ Regroups ds bs extra

/-- A text stands for bytes without `=` signs, and the bits at its end that belong to no byte are zero. -/
def Canonical (s : Str) (bs : Bytes) : Prop :=
  ∃ ds n, s = ds.map b64urlChar ∧ (∀ d ∈ ds, d < 64) ∧ Regroups ds bs (List.replicate n false)

end Ferroly.Auth
