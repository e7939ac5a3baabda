import Ferroly.Lib.Utf8

/-!
# WebSocket frames

Opcodes, the two bytes every frame begins with, masking and encoding. A masking key is four bytes; where the program draws one at
random, the model is given it.
-/

namespace Ferroly.Ws

/-- A frame opcode. -/
inductive Opcode where
  | continuation
  | text
  | binary
  | close
  | ping
  | pong
  deriving DecidableEq, Repr

def Opcode.fromBits (b : UInt8) : Option Opcode :=
  if b = 0x0 then some .continuation
  else if b = 0x1 then some .text
  else if b = 0x2 then some .binary
  else if b = 0x8 then some .close
  else if b = 0x9 then some .ping
  else if b = 0xA then some .pong
  else none

def Opcode.bits : Opcode → UInt8
  | .continuation => 0x0
  | .text => 0x1
  | .binary => 0x2
  | .close => 0x8
  | .ping => 0x9
  | .pong => 0xA

/-- A decoded frame. -/
structure Frame where
  fin : Bool
  opcode : Opcode
  payload : Bytes
  deriving DecidableEq, Repr

/-- The meaning of the two bytes a frame begins with: the final flag, the opcode, the mask flag and the length marker. -/
def Frame.parseHeader (b0 b1 : UInt8) : Option (Bool × Opcode × Bool × UInt8) :=
  (Opcode.fromBits (b0 &&& 0x0f)).map (fun opcode => (b0 &&& 0x80 != 0, opcode, b1 &&& 0x80 != 0, b1 &&& 0x7f))

/-- A masking key. -/
abbrev MaskKey := Fin 4 → UInt8

/-- Combine a payload with a masking key. -/
def applyMask (payload : Bytes) (key : MaskKey) : Bytes := payload.mapIdx (fun i b => b ^^^ key (Fin.ofNat 4 i))

def MaskKey.bytes (key : MaskKey) : Bytes := [key 0, key 1, key 2, key 3]

/-- The lowest `width` bytes of a number, the highest of them first. -/
def beBytes : Nat → Nat → Bytes
  | 0, _ => []
  | width + 1, n => beBytes width (n / 256) ++ [UInt8.ofNat n]

/-- The number with these bytes, the highest first. -/
def ofBeBytes (b : Bytes) : Nat := b.foldl (fun n x => n * 256 + x.toNat) 0

/-- The bytes after the first one that give the length, with the mask flag. -/
def lengthBytes (maskBit : UInt8) (len : Nat) : Bytes :=
  if len < 126 then [maskBit ||| UInt8.ofNat len]
  else if len ≤ 0xFFFF then (maskBit ||| 126) :: beBytes 2 len
  else (maskBit ||| 127) :: beBytes 8 len

/-- Encode a frame, masked if there is a key. -/
def encode (fin : Bool) (opcode : Opcode) (payload : Bytes) (mask : Option MaskKey) : Bytes :=
  ((if fin then 0x80 else 0) ||| opcode.bits) :: lengthBytes (if mask.isSome then 0x80 else 0) payload.length ++
    match mask with
    | some key => key.bytes ++ applyMask payload key
    | none => payload

end Ferroly.Ws
