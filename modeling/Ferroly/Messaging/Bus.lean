import Ferroly.Lib.Hash
import Ferroly.Lib.Text

/-!
# The local message bus

Destinations, the channels and consumers of their listeners, and the sends that are under way, as one state; an action is a step of a
caller, of a consumer or of a detached send. Of a message only the routing key and the delivery count are kept. What the handlers
return is chosen by the action. An observer is installed throughout; what it is told is recorded.

The channels are those of the runtime: first in, first out, and a send fails only when the channel is full or its receiver is gone.
-/

namespace Ferroly.Messaging

structure Message where
  routingKey : Option Str
  deliveryCount : UInt32
  deriving DecidableEq, Repr

/-- A message on its way, with the number of the send it began with and the key it was sent under. -/
structure Parcel where
  tag : Nat
  key : Option Str
  msg : Message
  deriving DecidableEq, Repr

/-- The message as it is sent again. -/
def Parcel.again (p : Parcel) : Parcel := { p with msg := { p.msg with deliveryCount := p.msg.deliveryCount + 1 } }

structure SendOptions where
  routingKey : Option Str
  blockOnFull : Bool
  deriving DecidableEq, Repr

structure ListenerOptions where
  bufferSize : Nat
  concurrency : Option Nat
  maxDeliveryAttempts : UInt32
  deadLetter : Option Str
  deriving DecidableEq, Repr

/-- The options a listener has if none are given. -/
def ListenerOptions.default : ListenerOptions := ⟨256, none, 3, none⟩

/-- The disposition a handler returns for a message. -/
inductive Ack where
  | ok
  | retry
  | reject
  deriving DecidableEq, Repr

inductive MessagingError where
  | noListeners (name : Str)
  | bufferFull (name : Str)
  | closed (name : Str)
  deriving DecidableEq, Repr

/-- What the observer is told. A nack records the disposition it comes from. -/
inductive Report where
  | send (addr : Str) (p : Parcel)
  | receive (listener : Nat) (addr : Str) (p : Parcel)
  | ack (addr : Str) (p : Parcel)
  | nack (disposition : Ack) (addr : Str) (p : Parcel) (requeue : Bool)
  | deadLetter (addr : Str) (p : Parcel) (toDlq : Bool)
  deriving DecidableEq, Repr

/-- The destination name from an address. -/
def destName (addr : Str) : Str :=
  match splitOnceStr "://".toList addr with
  | some (_, n) => n
  | none => addr

/-- The address of a destination. -/
def chanAddr (name : Str) : Str := "chan://".toList ++ name

/-- The most permits a semaphore of the runtime takes; with more it panics. -/
def maxPermits : Nat := (2 ^ 64 - 1) / 8

/-- The channel of a listener and its consumer. -/
structure Listener where
  id : Nat
  name : Str
  opts : ListenerOptions
  /-- What is in the channel. -/
  queue : List Parcel
  /-- A message that the consumer has received and not yet given to the handler: it waits for a permit. -/
  hand : Option Parcel
  /-- The messages whose handlers run. -/
  running : List Parcel
  /-- The consumer has made its first step. -/
  begun : Bool
  /-- The receiver is gone. -/
  closed : Bool

/-- The listeners of a destination. -/
structure DestState where
  listeners : List Nat
  roundRobin : Nat

/-- Why a message is sent: a caller sends it, or it is sent again after a handler asked for that. -/
inductive Origin where
  | caller
  | requeue
  | deadLetter
  deriving DecidableEq, Repr

/-- How far a send has come. -/
inductive SendPhase where
  | begun
  /-- It has the sender of a listener's channel. -/
  | picked (listener : Nat)
  /-- The message is in the channel, the observer is still to be told. -/
  | sent
  | done (r : Except MessagingError Unit)

structure Send where
  addr : Str
  parcel : Parcel
  opts : SendOptions
  origin : Origin
  phase : SendPhase

/-- The send has the sender of a channel. -/
def Send.hasPicked (s : Send) (l : Nat) : Bool :=
  match s.phase with
  | .picked k => k == l
  | _ => false

structure Bus where
  listeners : List Listener
  destinations : HashMap Str DestState
  sends : List Send
  reports : List Report

namespace Bus

def new : Bus := ⟨[], ∅, [], []⟩

variable (hash : Str → Nat)

/-- Whether the receiver of a channel is gone. -/
def isClosed (b : Bus) (l : Nat) : Bool := (b.listeners[l]?).any Listener.closed

/-- Pick a listener's sender for a name, honoring routing-key affinity. Dead consumers are dropped. -/
def pick (b : Bus) (name : Str) (key : Option Str) : Option Nat × Bus :=
  match b.destinations.lookup name with
  | none => (none, b)
  | some state =>
    let live := state.listeners.filter (fun l => !b.isClosed l)
    if live = [] then (none, { b with destinations := b.destinations.insert name ⟨live, state.roundRobin⟩ })
    else
      match key with
      | some k => (live[hash k % live.length]?, { b with destinations := b.destinations.insert name ⟨live, state.roundRobin⟩ })
      | none =>
        (live[state.roundRobin % live.length]?,
          { b with destinations := b.destinations.insert name ⟨live, (state.roundRobin + 1) % 2 ^ 64⟩ })

/-- A send ends with an error. That of a message sent again is reported as a drop. -/
def failSend (b : Bus) (i : Nat) (s : Send) (e : MessagingError) : Bus :=
  { b with
    sends := b.sends.set i { s with phase := .done (.error e) }
    reports := if s.origin = .caller then b.reports else b.reports ++ [.deadLetter s.addr s.parcel false] }

/-- A send is spawned whose options are the defaults but for waiting while the buffer is full. -/
def spawnGuaranteedSend (b : Bus) (addr : Str) (p : Parcel) (isDlq : Bool) : Bus :=
  { b with sends := b.sends ++ [⟨addr, p, ⟨none, true⟩, if isDlq then .deadLetter else .requeue, .begun⟩] }

/-- The observer is told something. -/
def tell (b : Bus) (r : Report) : Bus := { b with reports := b.reports ++ [r] }

/-- What a consumer does when the handler has returned. -/
def settle (b : Bus) (name : Str) (opts : ListenerOptions) (p : Parcel) : Ack → Bus
  | .ok => b.tell (.ack (chanAddr name) p)
  | .reject => b.tell (.nack .reject (chanAddr name) p false)
  | .retry =>
    let m := p.again
    let willRequeue := decide (m.msg.deliveryCount < opts.maxDeliveryAttempts)
    let b := b.tell (.nack .retry (chanAddr name) m willRequeue)
    if willRequeue then b.spawnGuaranteedSend (chanAddr name) m false
    else
      match opts.deadLetter with
      | some dlq => b.spawnGuaranteedSend dlq m true
      | none => b.tell (.deadLetter (chanAddr name) m false)

/-- A channel has a sender: in a destination, or in a send that has picked it. -/
def hasSender (b : Bus) (l : Nat) : Bool :=
  b.destinations.entries.any (fun e => l ∈ e.2.listeners) || b.sends.any (fun s => s.hasPicked l)

end Bus

/-- What can happen. -/
inductive Action where
  | send (addr : Str) (msg : Message) (opts : SendOptions)
  | addListener (addr : Str) (opts : ListenerOptions)
  | stop
  /-- A send picks its listener. -/
  | pick (i : Nat)
  /-- A send puts its message into the channel, or finds that it cannot. -/
  | push (i : Nat)
  /-- A send tells the observer that a message was dead-lettered. -/
  | report (i : Nat)
  /-- A consumer makes its first step. -/
  | begin (l : Nat)
  | receive (l : Nat)
  | handle (l : Nat)
  /-- One of the handlers that run returns. -/
  | finish (l k : Nat) (ack : Ack)
  /-- A consumer ends, because its channel is empty and has no sender. -/
  | exit (l : Nat)

/-- The consumer of a listener can receive: it waits for no permit, and without a concurrency limit for no handler. -/
def Listener.idle (c : Listener) : Bool := c.begun && !c.closed && c.hand.isNone && (c.opts.concurrency.isSome || c.running.isEmpty)

/-- There is a permit for another handler. -/
def Listener.permits (c : Listener) : Bool :=
  match c.opts.concurrency with
  | some n => c.running.length < max n 1
  | none => true

namespace Bus

/-! ## Steps of sends -/

/-- A send picks its listener. -/
def pickSend (hash : Str → Nat) (b : Bus) (i : Nat) (s : Send) : Bus :=
  match s.phase with
  | .begun =>
    match b.pick hash (destName s.addr) (s.opts.routingKey.or s.parcel.msg.routingKey) with
    | (none, b) => b.failSend i s (.noListeners (destName s.addr))
    | (some l, b) => { b with sends := b.sends.set i { s with phase := .picked l }, reports := b.reports ++ [.send s.addr s.parcel] }
  | _ => b

/-- A send puts its message into a channel, waits while it is full, or finds that it cannot. -/
def pushTo (b : Bus) (i : Nat) (s : Send) (l : Nat) (c : Listener) : Bus :=
  if c.closed then b.failSend i s (.closed (destName s.addr))
  else if c.queue.length < c.opts.bufferSize then
    { b with
      listeners := b.listeners.set l { c with queue := c.queue ++ [s.parcel] }
      sends := b.sends.set i { s with phase := if s.origin = .deadLetter then .sent else .done (.ok ()) } }
  else if s.opts.blockOnFull then b
  else b.failSend i s (.bufferFull (destName s.addr))

def pushSend (b : Bus) (i : Nat) (s : Send) : Bus :=
  match s.phase with
  | .picked l =>
    match b.listeners[l]? with
    | some c => b.pushTo i s l c
    | none => b
  | _ => b

/-- A send tells the observer that a message was dead-lettered. -/
def reportSend (b : Bus) (i : Nat) (s : Send) : Bus :=
  match s.phase, s.origin with
  | .sent, .deadLetter =>
    { b with
      sends := b.sends.set i { s with phase := .done (.ok ()) }
      reports := b.reports ++ [.deadLetter s.addr s.parcel true] }
  | _, _ => b

/-! ## Steps of consumers -/

/-- The first step of a consumer makes its semaphore. One that is too large panics: the consumer is gone, with what is in its channel. -/
def beginConsumer (b : Bus) (l : Nat) (c : Listener) : Bus :=
  if c.begun ∨ c.closed then b
  else if c.opts.concurrency.any (· > maxPermits) then
    { b with listeners := b.listeners.set l { c with queue := [], closed := true } }
  else { b with listeners := b.listeners.set l { c with begun := true } }

def receiveNext (b : Bus) (l : Nat) (c : Listener) : Bus :=
  match c.queue with
  | p :: rest => if c.idle then { b with listeners := b.listeners.set l { c with queue := rest, hand := some p } } else b
  | [] => b

/-- The message in hand is given to the handler. -/
def handleNext (b : Bus) (l : Nat) (c : Listener) : Bus :=
  match c.hand with
  | some p =>
    if c.permits then
      { b with
        listeners := b.listeners.set l { c with hand := none, running := c.running ++ [p] }
        reports := b.reports ++ [.receive c.id (chanAddr c.name) p] }
    else b
  | none => b

/-- A handler returns. -/
def finishJob (b : Bus) (l : Nat) (c : Listener) (k : Nat) (ack : Ack) : Bus :=
  match c.running[k]? with
  | some p => settle { b with listeners := b.listeners.set l { c with running := c.running.eraseIdx k } } c.name c.opts p ack
  | none => b

/-- A consumer ends when its channel is empty and has no sender. -/
def exitConsumer (b : Bus) (l : Nat) (c : Listener) : Bus :=
  if c.idle ∧ c.queue = [] ∧ !b.hasSender l then { b with listeners := b.listeners.set l { c with closed := true } } else b

/-- A step of one of the sends. -/
def withSend (b : Bus) (i : Nat) (f : Send → Bus) : Bus :=
  match b.sends[i]? with
  | some s => f s
  | none => b

/-- A step of one of the consumers. -/
def withListener (b : Bus) (l : Nat) (f : Listener → Bus) : Bus :=
  match b.listeners[l]? with
  | some c => f c
  | none => b

/-- One action. One that is not possible changes nothing. -/
def step (hash : Str → Nat) (b : Bus) : Action → Bus
  | .send addr msg opts =>
    { b with sends := b.sends ++ [⟨addr, ⟨b.sends.length, opts.routingKey.or msg.routingKey, msg⟩, opts, .caller, .begun⟩] }
  | .addListener addr opts =>
    -- A channel without room, or with more than a semaphore can count, is refused by a panic.
    if opts.bufferSize = 0 ∨ opts.bufferSize > maxPermits then b
    else
      { b with
        listeners := b.listeners ++ [⟨b.listeners.length, destName addr, opts, [], none, [], false, false⟩]
        destinations := b.destinations.entry (destName addr) ⟨[], 0⟩
          (fun d => { d with listeners := d.listeners ++ [b.listeners.length] }) }
  | .stop => { b with destinations := ∅ }
  | .pick i => b.withSend i (b.pickSend hash i)
  | .push i => b.withSend i (b.pushSend i)
  | .report i => b.withSend i (b.reportSend i)
  | .begin l => b.withListener l (b.beginConsumer l)
  | .receive l => b.withListener l (b.receiveNext l)
  | .handle l => b.withListener l (b.handleNext l)
  | .finish l k ack => b.withListener l (fun c => b.finishJob l c k ack)
  | .exit l => b.withListener l (b.exitConsumer l)

/-- Some actions, in order. -/
def run (hash : Str → Nat) (b : Bus) (as : List Action) : Bus := as.foldl (step hash) b

end Bus

/-! ## Where the messages are -/

/-- The places a message can be in. -/
inductive Place where
  /-- In a send, to an address, perhaps with the sender of a listener's channel. -/
  | send (origin : Origin) (addr : Str) (listener : Option Nat)
  /-- In the channel of a listener. -/
  | queue (listener : Nat) (name : Str)
  /-- With a consumer that waits for a permit. -/
  | hand (listener : Nat) (name : Str)
  /-- With a handler. -/
  | running (listener : Nat) (name : Str)
  deriving DecidableEq

def Listener.parcels (c : Listener) : List (Place × Parcel) :=
  c.queue.map (fun p => (.queue c.id c.name, p)) ++ c.hand.toList.map (fun p => (.hand c.id c.name, p)) ++
    c.running.map (fun p => (.running c.id c.name, p))

def Send.parcels (s : Send) : List (Place × Parcel) :=
  match s.phase with
  | .begun => [(.send s.origin s.addr none, s.parcel)]
  | .picked l => [(.send s.origin s.addr (some l), s.parcel)]
  | _ => []

/-- All messages and where they are. -/
def Bus.parcels (b : Bus) : List (Place × Parcel) := b.listeners.flatMap Listener.parcels ++ b.sends.flatMap Send.parcels

/-- The send of a caller that has returned without an error. -/
def Send.accepted (s : Send) : Option Nat :=
  match s.origin, s.phase with
  | .caller, .done (.ok ()) => some s.parcel.tag
  | _, _ => none

/-- The messages whose send has returned without an error. -/
def Bus.accepted (b : Bus) : List Nat := b.sends.filterMap Send.accepted

/-- A place on the bus: in the channel of a listener, with its consumer, with a handler, or in a send of a message that is sent
again. -/
def Place.onBus : Place → Bool
  | .send .caller _ _ => false
  | _ => true

/-- The last report on a message. -/
def Report.terminal (t : Nat) : Report → Bool
  | .ack _ p => p.tag == t
  | .nack .reject _ p _ => p.tag == t
  | .deadLetter _ p false => p.tag == t
  | _ => false

/-- How often a message is on the bus. -/
def Bus.copies (b : Bus) (t : Nat) : Nat := b.parcels.countP (fun x => x.1.onBus && x.2.tag == t)

/-- How often a message was reported for the last time. -/
def Bus.ends (b : Bus) (t : Nat) : Nat := b.reports.countP (Report.terminal t)

/-- A handler is given a message. -/
def Report.delivers (t : Nat) : Report → Bool
  | .receive _ _ p => p.tag == t
  | _ => false

/-- How often a handler was given a message. -/
def Bus.deliveries (b : Bus) (t : Nat) : Nat := b.reports.countP (Report.delivers t)

end Ferroly.Messaging
