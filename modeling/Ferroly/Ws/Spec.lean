import Ferroly.Ws.Conn

/-!
# Frames on the wire, and what they say

A frame as RFC 6455 lays it out, with its reserved bits, any opcode and any key. Control frames apart, the frames of a connection fall
into groups that end with a final frame: each is a message, and the last group may still be open.
-/

namespace Ferroly.Ws

instance neZero8 : NeZero 8 := ⟨by decide⟩

instance neZero16 : NeZero 16 := ⟨by decide⟩

/-- A frame on the wire. -/
structure WireFrame where
  fin : Bool
  rsv : Fin 8
  code : Fin 16
  key : Option MaskKey
  payload : Bytes
  fits : payload.length < 2 ^ 63

namespace WireFrame

def firstByte (f : WireFrame) : UInt8 := UInt8.ofNat ((if f.fin then 128 else 0) + f.rsv.val * 16 + f.code.val)

/-- The octets after the first one that give the length: seven bits with the mask flag, or a marker there and 16 or 64 bits, the
highest octet first. -/
def lengthOctets (masked : Bool) (len : Nat) : Bytes :=
  let flag := if masked then 128 else 0
  if len ≤ 125 then [UInt8.ofNat (flag + len)]
  else if len < 2 ^ 16 then [UInt8.ofNat (flag + 126), UInt8.ofNat (len / 2 ^ 8), UInt8.ofNat len]
  else UInt8.ofNat (flag + 127) :: [56, 48, 40, 32, 24, 16, 8, 0].map (fun i => UInt8.ofNat (len / 2 ^ i))

/-- Masking: octet `i` of the payload combined with octet `i mod 4` of the key. -/
def maskOctets (payload : Bytes) (key : MaskKey) : Bytes :=
  (List.range payload.length).map (fun i => payload.getD i 0 ^^^ key.bytes.getD (i % 4) 0)

/-- The bytes of a frame. -/
def bytes (f : WireFrame) : Bytes :=
  f.firstByte :: lengthOctets f.key.isSome f.payload.length ++
    match f.key with
    | some key => key.bytes ++ maskOctets f.payload key
    | none => f.payload

def opcode (f : WireFrame) : Option Opcode := Opcode.fromBits (UInt8.ofNat f.code.val)

/-- An opcode in use. -/
def isKnown (f : WireFrame) : Bool := [0, 1, 2, 8, 9, 10].contains f.code

def isControl (f : WireFrame) : Bool := decide (8 ≤ f.code.val)

/-- What a frame owes by itself: no reserved bit, an opcode in use, and a control frame is final and short. -/
def isSound (f : WireFrame) : Bool :=
  f.rsv == 0 && f.isKnown && (!f.isControl || f.fin && decide (f.payload.length ≤ 125))

end WireFrame

/-! ## Messages -/

/-- One frame more: the groups that are complete, and the open one. -/
def joinGroup (g : List (List WireFrame) × List WireFrame) (f : WireFrame) : List (List WireFrame) × List WireFrame :=
  if f.isControl then g else if f.fin then (g.1 ++ [g.2 ++ [f]], []) else (g.1, g.2 ++ [f])

/-- The groups of data frames, each up to its final frame, and the frames after the last of those. -/
def groups (fs : List WireFrame) : List (List WireFrame) × List WireFrame := fs.foldl joinGroup ([], [])

def complete (fs : List WireFrame) : List (List WireFrame) := (groups fs).1

def opened (fs : List WireFrame) : List WireFrame := (groups fs).2

/-- The payload of a group. -/
def joined (g : List WireFrame) : Bytes := g.flatMap WireFrame.payload

/-- The message of a group by the opcode of its first frame, if a text is one. -/
def groupMessage (g : List WireFrame) : Option Message :=
  match g with
  | [] => none
  | f :: _ => if f.code = 1 then (fromUtf8 (joined g)).map .text else some (.binary (joined g))

/-- A group that is a message, or the beginning of one: text or binary, and continuations. -/
def isMessage (g : List WireFrame) : Bool :=
  match g with
  | [] => false
  | f :: more => (f.code == 1 || f.code == 2) && more.all (fun f => f.code == 0)

/-- No frame breaks the protocol. -/
def isValid (fs : List WireFrame) : Bool :=
  fs.all WireFrame.isSound && (complete fs).all (fun g => isMessage g && (groupMessage g).isSome) &&
    ((opened fs).isEmpty || isMessage (opened fs))

/-- The messages of some frames. -/
def messages (fs : List WireFrame) : List Message := (complete fs).filterMap groupMessage

/-- The payloads of the pings. -/
def pings (fs : List WireFrame) : List Bytes := (fs.filter (fun f => f.code == 9)).map WireFrame.payload

/-- The frames before the first close. -/
def beforeClose (fs : List WireFrame) : List WireFrame := fs.takeWhile (fun f => f.code != 8)

/-- No frame and no message, also the open one, is larger than the limits. -/
def withinLimits (maxFrameSize maxMessageSize : Option Nat) (fs : List WireFrame) : Bool :=
  fs.all (fun f => !exceeds maxFrameSize f.payload.length) &&
    (opened fs :: complete fs).all (fun g => !exceeds maxMessageSize (joined g).length)

end Ferroly.Ws
