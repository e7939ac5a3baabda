import Ferroly.Lib.Conn
import Ferroly.Ws.Frame

/-!
# The loops of a WebSocket connection

A reader over the connection, seeded with what the handshake has left over; the loop that reads frames and puts messages together; and
the loop that writes. The two channels are lists: `delivered` of what has been sent to the application, `queue` of what is to be
written. A message is kept with the opcode and the payload it comes from.
-/

namespace Ferroly.Ws

/-- The most bytes asked for by one read of the socket. -/
def READ_CHUNK : Nat := 64 * 1024

/-- An application message. -/
inductive Message where
  | text (s : Str)
  | binary (b : Bytes)
  deriving DecidableEq, Repr

/-- A message queued to be written to the peer. -/
inductive Outgoing where
  | msg (m : Message)
  | pong (payload : Bytes)
  | close
  deriving DecidableEq, Repr

/-! ## Reading frames -/

/-- A buffered reader over the connection. -/
structure Reader where
  inner : Conn
  buf : Bytes
  pos : Nat
  maxFrameSize : Option Nat

/-- The reader of a connection after a handshake. -/
def Reader.new (inner : Conn) (leftover : Bytes) (maxFrameSize : Option Nat) : Reader := ⟨inner, leftover, 0, maxFrameSize⟩

/-- The loop of `read_exact`, with `need` bytes still to read after `out`. -/
def readExactLoop : Nat → Nat → Bytes → Task Reader IoError Bytes
  | 0, _, _ => Task.diverge
  | fuel + 1, need, out => do
    if need = 0 then pure out
    else do
      let r ← Task.get
      if r.pos < r.buf.length then do
        let take := min need (r.buf.length - r.pos)
        Task.modify (fun r => { r with pos := r.pos + take })
        readExactLoop fuel (need - take) (out ++ (r.buf.drop r.pos).take take)
      else do
        let tmp ← (Conn.read (min need READ_CHUNK)).zoom Reader.inner (fun c r => { r with inner := c })
        if tmp = [] then Task.fail .unexpectedEof else readExactLoop fuel (need - tmp.length) (out ++ tmp)

/-- Read exactly `n` bytes. -/
def readExact (n : Nat) : Task Reader IoError Bytes := readExactLoop (n + 1) n []

/-- `true` if a size cap is set and `len` exceeds it. -/
def exceeds (cap : Option Nat) (len : Nat) : Bool :=
  match cap with
  | some m => decide (len > m)
  | none => false

/-- The payload length by its marker. -/
def readLength (len7 : UInt8) : Task Reader IoError Nat :=
  if len7 = 126 then do
    let b ← readExact 2
    pure (ofBeBytes b)
  else if len7 = 127 then do
    let b ← readExact 8
    if ofBeBytes b > 2 ^ 63 - 1 then Task.fail .invalidData else pure (ofBeBytes b)
  else pure len7.toNat

/-- The key of four bytes. -/
def maskKeyOf (k : Bytes) : MaskKey := fun i => k.getD i.val 0

/-- The payload after the length. -/
def readPayload (masked : Bool) (len : Nat) : Task Reader IoError Bytes :=
  if masked then do
    let k ← readExact 4
    let payload ← readExact len
    pure (applyMask payload (maskKeyOf k))
  else readExact len

/-- Read one frame. -/
def readFrame : Task Reader IoError Frame := do
  let hdr ← readExact 2
  match Frame.parseHeader (hdr.getD 0 0) (hdr.getD 1 0) with
  | none => Task.fail .invalidData
  | some (fin, opcode, masked, len7) => do
    let len ← readLength len7
    let r ← Task.get
    if exceeds r.maxFrameSize len then Task.fail .invalidData
    else do
      let payload ← readPayload masked len
      pure ⟨fin, opcode, payload⟩

/-! ## Putting messages together -/

/-- The message of a complete payload. -/
def messageOf (opcode : Opcode) (payload : Bytes) : Message :=
  match opcode with
  | .text => .text (fromUtf8Lossy payload)
  | _ => .binary payload

/-- The state of the read loop besides its reader: the fragments so far, what has been delivered, how many messages the receiver still
takes before it is gone, and what is queued for the peer. -/
structure Session where
  frag : Option (Opcode × Bytes)
  delivered : List (Opcode × Bytes)
  takes : Option Nat
  queue : List Outgoing
  deriving DecidableEq

/-- The messages of the application, in order. -/
def Session.messages (s : Session) : List Message := s.delivered.map (fun p => messageOf p.1 p.2)

/-- Forward a message; `false` if the receiver is gone. -/
def emit (s : Session) (opcode : Opcode) (payload : Bytes) : Session × Bool :=
  match s.takes with
  | some 0 => (s, false)
  | takes => ({ s with delivered := s.delivered ++ [(opcode, payload)], takes := takes.map (· - 1) }, true)

/-- What the loop does with a frame, and whether it goes on. -/
def onFrame (maxMessageSize : Option Nat) (s : Session) (frame : Frame) : Session × Bool :=
  match frame.opcode with
  | .ping => ({ s with queue := s.queue ++ [.pong frame.payload] }, true)
  | .pong => (s, true)
  | .close => ({ s with queue := s.queue ++ [.close] }, false)
  | .text | .binary =>
    if frame.fin then
      if exceeds maxMessageSize frame.payload.length then (s, false) else emit s frame.opcode frame.payload
    else ({ s with frag := some (frame.opcode, frame.payload) }, true)
  | .continuation =>
    match s.frag with
    | none => (s, true)
    | some (op, buf) =>
      let buf := buf ++ frame.payload
      if exceeds maxMessageSize buf.length then ({ s with frag := some (op, buf) }, false)
      else if frame.fin then emit { s with frag := none } op buf
      else ({ s with frag := some (op, buf) }, true)

/-- The loop over the frames: it ends on a close, a limit, a transport error or when the receiver is gone. -/
def readLoopFrom (maxMessageSize : Option Nat) : Nat → Reader → Session → Session
  | 0, _, s => s
  | fuel + 1, r, s =>
    match readFrame r with
    | (.error _, _) => s
    | (.ok frame, r) =>
      match onFrame maxMessageSize s frame with
      | (s, true) => readLoopFrom maxMessageSize fuel r s
      | (s, false) => s

/-- The bytes that are still to be read. -/
def Reader.unread (r : Reader) : Bytes := r.buf.drop r.pos ++ r.inner.input

/-- Read frames until the loop ends, or waits for ever, with a receiver that takes so many messages. A frame has at least two
bytes. -/
def readLoop (maxMessageSize : Option Nat) (r : Reader) (takes : Option Nat) : Session :=
  readLoopFrom maxMessageSize (r.unread.length + 1) r ⟨none, [], takes, []⟩

/-! ## Writing -/

/-- The frame a queued message is written as. -/
def Outgoing.frame : Outgoing → Frame
  | .msg (.text t) => ⟨true, .text, utf8 t⟩
  | .msg (.binary b) => ⟨true, .binary, b⟩
  | .pong p => ⟨true, .pong, p⟩
  | .close => ⟨true, .close, []⟩

/-- Write what is queued, up to a close, masked with the keys drawn if there are any. -/
def writeLoop (keys : Option (Nat → MaskKey)) : Nat → List Outgoing → Task Conn IoError Unit
  | _, [] => pure ()
  | i, o :: queue => do
    let r ← (Conn.writeAll (encode o.frame.fin o.frame.opcode o.frame.payload (keys.map (fun k => k i)))).attempt
    match o, r with
    | .close, _ => pure ()
    | _, .error _ => pure ()
    | _, .ok _ => writeLoop keys (i + 1) queue

end Ferroly.Ws
