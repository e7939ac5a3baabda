import Ferroly.Lib.Blocks

/-!
# SHA-256 and HMAC-SHA256

The incremental hasher of the `hash` module, with the keyed hash built on it. The array behind the buffer is kept as the bytes it
holds; the eight words of the state are a structure, so that a round names them as the source does.
-/

namespace Ferroly.Hash

open List

/-- The size of a block in bytes. -/
def BLOCK : Nat := 64

theorem BLOCK_pos : 0 < BLOCK := by decide

/-- The eight words of the state. -/
structure Words where
  a : UInt32
  b : UInt32
  c : UInt32
  d : UInt32
  e : UInt32
  f : UInt32
  g : UInt32
  h : UInt32
  deriving DecidableEq, Repr

/-- The round constants. -/
def SHA256_K : List UInt32 := [
  0x428a2f98, 0x71374491, 0xb5c0fbcf, 0xe9b5dba5, 0x3956c25b, 0x59f111f1, 0x923f82a4, 0xab1c5ed5,
  0xd807aa98, 0x12835b01, 0x243185be, 0x550c7dc3, 0x72be5d74, 0x80deb1fe, 0x9bdc06a7, 0xc19bf174,
  0xe49b69c1, 0xefbe4786, 0x0fc19dc6, 0x240ca1cc, 0x2de92c6f, 0x4a7484aa, 0x5cb0a9dc, 0x76f988da,
  0x983e5152, 0xa831c66d, 0xb00327c8, 0xbf597fc7, 0xc6e00bf3, 0xd5a79147, 0x06ca6351, 0x14292967,
  0x27b70a85, 0x2e1b2138, 0x4d2c6dfc, 0x53380d13, 0x650a7354, 0x766a0abb, 0x81c2c92e, 0x92722c85,
  0xa2bfe8a1, 0xa81a664b, 0xc24b8b70, 0xc76c51a3, 0xd192e819, 0xd6990624, 0xf40e3585, 0x106aa070,
  0x19a4c116, 0x1e376c08, 0x2748774c, 0x34b0bcb5, 0x391c0cb3, 0x4ed8aa4a, 0x5b9cca4f, 0x682e6ff3,
  0x748f82ee, 0x78a5636f, 0x84c87814, 0x8cc70208, 0x90befffa, 0xa4506ceb, 0xbef9a3f7, 0xc67178f2]

/-- The state before any block. -/
def SHA256_H0 : Words :=
  ⟨0x6a09e667, 0xbb67ae85, 0x3c6ef372, 0xa54ff53a, 0x510e527f, 0x9b05688c, 0x1f83d9ab, 0x5be0cd19⟩

def rotateRight (x : UInt32) (n : UInt32) : UInt32 := (x >>> n) ||| (x <<< (32 - n))

/-- `u32::from_be_bytes` of the four bytes from `o` on. -/
def fromBeBytes (block : Bytes) (o : Nat) : UInt32 :=
  ((block.getD o 0).toUInt32 <<< 24) ||| ((block.getD (o + 1) 0).toUInt32 <<< 16) |||
    ((block.getD (o + 2) 0).toUInt32 <<< 8) ||| (block.getD (o + 3) 0).toUInt32

/-- `u32::to_be_bytes`. -/
def toBeBytes (w : UInt32) : Bytes := [(w >>> 24).toUInt8, (w >>> 16).toUInt8, (w >>> 8).toUInt8, w.toUInt8]

/-- `u64::to_be_bytes`. -/
def toBeBytes64 (w : UInt64) : Bytes :=
  [(w >>> 56).toUInt8, (w >>> 48).toUInt8, (w >>> 40).toUInt8, (w >>> 32).toUInt8,
    (w >>> 24).toUInt8, (w >>> 16).toUInt8, (w >>> 8).toUInt8, w.toUInt8]

/-- The word that follows in the schedule, which holds `i + 16` words. -/
def scheduleWord (w : List UInt32) (i : Nat) : UInt32 :=
  let w15 := w.getD (i + 1) 0
  let w2 := w.getD (i + 14) 0
  let s0 := rotateRight w15 7 ^^^ rotateRight w15 18 ^^^ (w15 >>> 3)
  let s1 := rotateRight w2 17 ^^^ rotateRight w2 19 ^^^ (w2 >>> 10)
  w.getD i 0 + s0 + w.getD (i + 9) 0 + s1

/-- The 64 words of a block. -/
def schedule (block : Bytes) : List UInt32 :=
  (range 48).foldl (fun w i => w ++ [scheduleWord w i]) ((range 16).map (fun i => fromBeBytes block (i * 4)))

/-- One round, with its constant and its word. -/
def round (s : Words) (kw : UInt32 × UInt32) : Words :=
  let s1 := rotateRight s.e 6 ^^^ rotateRight s.e 11 ^^^ rotateRight s.e 25
  let ch := (s.e &&& s.f) ^^^ (~~~s.e &&& s.g)
  let t1 := s.h + s1 + ch + kw.1 + kw.2
  let s0 := rotateRight s.a 2 ^^^ rotateRight s.a 13 ^^^ rotateRight s.a 22
  let maj := (s.a &&& s.b) ^^^ (s.a &&& s.c) ^^^ (s.b &&& s.c)
  let t2 := s0 + maj
  ⟨t1 + t2, s.a, s.b, s.c, s.d + t1, s.e, s.f, s.g⟩

/-- One block: 64 rounds, added to the state. -/
def sha256Compress (h : Words) (block : Bytes) : Words :=
  let v := (SHA256_K.zip (schedule block)).foldl round h
  ⟨h.a + v.a, h.b + v.b, h.c + v.c, h.d + v.d, h.e + v.e, h.f + v.f, h.g + v.g, h.h + v.h⟩

/-- The bytes of the state, which are the digest after the last block. -/
def Words.toBytes (s : Words) : Bytes := [s.a, s.b, s.c, s.d, s.e, s.f, s.g, s.h].flatMap toBeBytes

/-- An incremental SHA-256 hasher. -/
abbrev Sha256 := BlockHash Words BLOCK

namespace Sha256

def new : Sha256 := BlockHash.new BLOCK_pos SHA256_H0

/-- Absorb more input. -/
def update (s : Sha256) (data : Bytes) : Sha256 := BlockHash.update sha256Compress s data

/-- Finish the hash: a one bit and zeros, in a block of their own if the length would not fit after them, then the length. -/
def finalize (s : Sha256) : Bytes :=
  let bitLen := s.total * 8
  let buf := s.buf ++ [0x80]
  (if BLOCK - 8 < buf.length then
    sha256Compress (sha256Compress s.h (buf ++ replicate (BLOCK - buf.length) 0))
      (replicate (BLOCK - 8) 0 ++ toBeBytes64 bitLen)
  else sha256Compress s.h (buf ++ replicate (BLOCK - 8 - buf.length) 0 ++ toBeBytes64 bitLen)).toBytes

end Sha256

/-- The digest of the data in one call. -/
def sha256 (data : Bytes) : Bytes := (Sha256.new.update data).finalize

/-- An incremental keyed hash. -/
structure HmacSha256 where
  inner : Sha256
  oKey : Bytes

namespace HmacSha256

/-- Keys longer than a block are hashed first, shorter ones padded with zeros. -/
def blockKey (key : Bytes) : Bytes :=
  let k := if BLOCK < key.length then sha256 key else key
  k ++ replicate (BLOCK - k.length) 0

def new (key : Bytes) : HmacSha256 where
  inner := Sha256.new.update ((blockKey key).map (0x36 ^^^ ·))
  oKey := (blockKey key).map (0x5c ^^^ ·)

def update (s : HmacSha256) (data : Bytes) : HmacSha256 := { s with inner := s.inner.update data }

def finalize (s : HmacSha256) : Bytes := ((Sha256.new.update s.oKey).update s.inner.finalize).finalize

end HmacSha256

/-- The keyed hash of a message in one call. -/
def hmacSha256 (key msg : Bytes) : Bytes := ((HmacSha256.new key).update msg).finalize

/-! ## What the hashes are

A message is padded to whole blocks with a one bit, as few zeros as will do and its length in bits, and its blocks are folded into
the state. The keyed hash is the hash of the key against one pad and the hash of the key against the other pad and the message. Nothing
here is taken from the code but the words: constants, functions, schedule and rounds are those of the standard. -/

namespace Spec

/-- The integer part of a root below `2 ^ 36`. -/
def root (k n : Nat) : Nat := (range 36).foldr (fun i r => if (r + 2 ^ i) ^ k ≤ n then r + 2 ^ i else r) 0

/-- The first 32 bits of the fractional part of a root. -/
def rootBits (k p : Nat) : UInt32 := UInt32.ofNat (root k (p * 2 ^ (32 * k)))

/-- The first 64 prime numbers. -/
def primes : List Nat := (range 312).filter (fun p => decide (2 ≤ p) && (range p).all (fun d => decide (d < 2) || p % d != 0))

def roundConstants : List UInt32 := primes.map (rootBits 3)

def H0 : Words :=
  ⟨rootBits 2 2, rootBits 2 3, rootBits 2 5, rootBits 2 7, rootBits 2 11, rootBits 2 13, rootBits 2 17, rootBits 2 19⟩

def ch (x y z : UInt32) : UInt32 := (x &&& y) ^^^ (~~~x &&& z)

def maj (x y z : UInt32) : UInt32 := (x &&& y) ^^^ (x &&& z) ^^^ (y &&& z)

def bigSigma0 (x : UInt32) : UInt32 := rotateRight x 2 ^^^ rotateRight x 13 ^^^ rotateRight x 22

def bigSigma1 (x : UInt32) : UInt32 := rotateRight x 6 ^^^ rotateRight x 11 ^^^ rotateRight x 25

def smallSigma0 (x : UInt32) : UInt32 := rotateRight x 7 ^^^ rotateRight x 18 ^^^ (x >>> 3)

def smallSigma1 (x : UInt32) : UInt32 := rotateRight x 17 ^^^ rotateRight x 19 ^^^ (x >>> 10)

/-- The schedule of a block: its sixteen words, then each from four before it. -/
def word (block : Bytes) (t : Nat) : UInt32 :=
  if t < 16 then fromBeBytes block (4 * t)
  else smallSigma1 (word block (t - 2)) + word block (t - 7) + smallSigma0 (word block (t - 15)) + word block (t - 16)

/-- Round `t`. -/
def step (block : Bytes) (v : Words) (t : Nat) : Words :=
  let t1 := v.h + bigSigma1 v.e + ch v.e v.f v.g + roundConstants.getD t 0 + word block t
  let t2 := bigSigma0 v.a + maj v.a v.b v.c
  ⟨t1 + t2, v.a, v.b, v.c, v.d + t1, v.e, v.f, v.g⟩

def compress (H : Words) (block : Bytes) : Words :=
  let v := (range 64).foldl (step block) H
  ⟨H.a + v.a, H.b + v.b, H.c + v.c, H.d + v.d, H.e + v.e, H.f + v.f, H.g + v.g, H.h + v.h⟩

/-- The message in whole blocks. -/
def pad (m : Bytes) : Bytes :=
  m ++ 0x80 :: replicate ((BLOCK - 1 - 8 + (BLOCK - m.length % BLOCK)) % BLOCK) 0 ++ toBeBytes64 (UInt64.ofNat (8 * m.length))

def sha256 (m : Bytes) : Bytes :=
  let H := (chunksOf BLOCK (pad m)).foldl compress H0
  [H.a, H.b, H.c, H.d, H.e, H.f, H.g, H.h].flatMap toBeBytes

/-- A key of at most a block, with zeros to fill it. -/
def keyBlock (key : Bytes) : Bytes :=
  let k := if BLOCK < key.length then sha256 key else key
  k ++ replicate (BLOCK - k.length) 0

def hmacSha256 (key msg : Bytes) : Bytes :=
  sha256 ((keyBlock key).map (0x5c ^^^ ·) ++ sha256 ((keyBlock key).map (0x36 ^^^ ·) ++ msg))

end Spec

end Ferroly.Hash
