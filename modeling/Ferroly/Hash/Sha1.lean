import Ferroly.Hash.Sha256

/-!
# SHA-1

The other incremental hasher of the `hash` module. It differs from SHA-256 in its state and in how it folds a block in.
-/

namespace Ferroly.Hash

open List

structure Sha1Words where
  a : UInt32
  b : UInt32
  c : UInt32
  d : UInt32
  e : UInt32

def SHA1_H0 : Sha1Words := ⟨0x67452301, 0xEFCDAB89, 0x98BADCFE, 0x10325476, 0xC3D2E1F0⟩

def rotateLeft (x : UInt32) (n : UInt32) : UInt32 := (x <<< n) ||| (x >>> (32 - n))

/-- The 80 words of a block. -/
def sha1Schedule (block : Bytes) : List UInt32 :=
  (range 64).foldl (fun w i => w ++ [rotateLeft (w.getD (i + 13) 0 ^^^ w.getD (i + 8) 0 ^^^ w.getD (i + 2) 0 ^^^ w.getD i 0) 1])
    ((range 16).map (fun i => fromBeBytes block (i * 4)))

/-- What round `i` makes of three words, and its constant. -/
def sha1F (i : Nat) (b c d : UInt32) : UInt32 × UInt32 :=
  if i < 20 then ((b &&& c) ||| (~~~b &&& d), 0x5A827999)
  else if i < 40 then (b ^^^ c ^^^ d, 0x6ED9EBA1)
  else if i < 60 then ((b &&& c) ||| (b &&& d) ||| (c &&& d), 0x8F1BBCDC)
  else (b ^^^ c ^^^ d, 0xCA62C1D6)

/-- One round, with its word and its number. -/
def sha1Round (s : Sha1Words) (x : UInt32 × Nat) : Sha1Words :=
  let fk := sha1F x.2 s.b s.c s.d
  ⟨rotateLeft s.a 5 + fk.1 + s.e + fk.2 + x.1, s.a, rotateLeft s.b 30, s.c, s.d⟩

/-- One block: 80 rounds, added to the state. -/
def sha1Compress (h : Sha1Words) (block : Bytes) : Sha1Words :=
  let v := (sha1Schedule block).zipIdx.foldl sha1Round h
  ⟨h.a + v.a, h.b + v.b, h.c + v.c, h.d + v.d, h.e + v.e⟩

def Sha1Words.toBytes (s : Sha1Words) : Bytes := [s.a, s.b, s.c, s.d, s.e].flatMap toBeBytes

/-- An incremental SHA-1 hasher. -/
abbrev Sha1 := BlockHash Sha1Words BLOCK

namespace Sha1

def new : Sha1 := BlockHash.new BLOCK_pos SHA1_H0

def update (s : Sha1) (data : Bytes) : Sha1 := BlockHash.update sha1Compress s data

/-- The same as for SHA-256. -/
def finalize (s : Sha1) : Bytes :=
  let bitLen := s.total * 8
  let buf := s.buf ++ [0x80]
  (if BLOCK - 8 < buf.length then
    sha1Compress (sha1Compress s.h (buf ++ replicate (BLOCK - buf.length) 0)) (replicate (BLOCK - 8) 0 ++ toBeBytes64 bitLen)
  else sha1Compress s.h (buf ++ replicate (BLOCK - 8 - buf.length) 0 ++ toBeBytes64 bitLen)).toBytes

end Sha1

namespace Spec

/-- The functions of the standard: a choice, a parity and a majority, with their constants. -/
def sha1F (t : Nat) (x y z : UInt32) : UInt32 × UInt32 :=
  if t < 20 then (ch x y z, 0x5A827999)
  else if t < 40 then (x ^^^ y ^^^ z, 0x6ED9EBA1)
  else if t < 60 then (maj x y z, 0x8F1BBCDC)
  else (x ^^^ y ^^^ z, 0xCA62C1D6)

def sha1Word (block : Bytes) (t : Nat) : UInt32 :=
  if t < 16 then fromBeBytes block (4 * t)
  else rotateLeft (sha1Word block (t - 3) ^^^ sha1Word block (t - 8) ^^^ sha1Word block (t - 14) ^^^ sha1Word block (t - 16)) 1

def sha1Step (block : Bytes) (v : Sha1Words) (t : Nat) : Sha1Words :=
  let fk := sha1F t v.b v.c v.d
  ⟨rotateLeft v.a 5 + fk.1 + v.e + fk.2 + sha1Word block t, v.a, rotateLeft v.b 30, v.c, v.d⟩

def sha1Compress (H : Sha1Words) (block : Bytes) : Sha1Words :=
  let v := (range 80).foldl (sha1Step block) H
  ⟨H.a + v.a, H.b + v.b, H.c + v.c, H.d + v.d, H.e + v.e⟩

def sha1 (m : Bytes) : Bytes :=
  let H := (chunksOf BLOCK (pad m)).foldl sha1Compress ⟨0x67452301, 0xEFCDAB89, 0x98BADCFE, 0x10325476, 0xC3D2E1F0⟩
  [H.a, H.b, H.c, H.d, H.e].flatMap toBeBytes

end Spec

end Ferroly.Hash
