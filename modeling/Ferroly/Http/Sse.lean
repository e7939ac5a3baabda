import Ferroly.Lib.Lines
import Ferroly.Lib.Digits

/-!
# Server-sent events

An event is written as a frame of fields, one a line, that a blank line ends (`Event.toFrame`); a server streams such frames, or plain
strings each as one `data` field (`eventStream`). The decoder takes bytes as they arrive and returns each event at its blank line.
-/

namespace Ferroly.Http

namespace Sse

/-- A server-sent event. -/
structure Event where
  data : Str
  event : Option Str
  id : Option Str
  retry : Option UInt64
  comment : Option Str
  deriving DecidableEq

namespace Event

/-- The event with no field set. -/
def empty : Event := ⟨[], none, none, none, none⟩

def new (data : Str) : Event := { empty with data := data }

def keepAlive (text : Str) : Event := { empty with comment := some text }

/-- A field on a line of its own. -/
def fieldLine (name value : Str) : Str := name ++ value ++ ['\n']

/-- The event's frame, with the blank line that dispatches it. An event that is only a comment or a name has no `data` line. -/
def toFrame (e : Event) : Str :=
  (e.comment.elim [] fun c => (split '\n' c).flatMap (fieldLine ": ".toList)) ++ (e.event.elim [] (fieldLine "event: ".toList)) ++
    (e.id.elim [] (fieldLine "id: ".toList)) ++
    (e.retry.elim [] fun r => fieldLine "retry: ".toList (Nat.toDigits 10 r.toNat)) ++
    (if e.data ≠ [] ∨ e.comment = none ∧ e.event = none then (split '\n' e.data).flatMap (fieldLine "data: ".toList) else []) ++
    ['\n']

end Event

/-! ## Streams -/

/-- The chunks of a response that streams events. -/
def sse (events : List Event) : List Bytes := events.map (fun e => utf8 e.toFrame)

/-- The frame of a plain string. -/
def dataFrame (event : Str) : Str := "data: ".toList ++ event ++ "\n\n".toList

/-- The chunks of a response that streams plain strings. -/
def eventStream (events : List Str) : List Bytes := events.map (fun s => utf8 (dataFrame s))

/-! ## Decoding -/

/-- What the decoder holds: the beginning of a line, the event so far, and whether it has seen a field of it. -/
structure SseDecoder where
  buf : Bytes
  cur : Event
  dirty : Bool
  deriving DecidableEq

namespace SseDecoder

def new : SseDecoder := ⟨[], .empty, false⟩

/-- A text without the space it may begin with. -/
def stripSpace (v : Str) : Str := (stripStart v " ".toList).getD v

/-- One line more of a comment. -/
def addComment (c : Option Str) (rest : Str) : Str :=
  let c := c.getD []
  (if c = [] then c else c ++ ['\n']) ++ stripSpace rest

/-- Set a field by its name; other names are ignored. -/
def setField (cur : Event) (name value : Str) : Event :=
  if name = "data".toList then { cur with data := cur.data ++ value ++ ['\n'] }
  else if name = "event".toList then { cur with event := some value }
  else if name = "id".toList then { cur with id := some value }
  else if name = "retry".toList then
    match parseUnsigned 64 10 value with
    | some ms => { cur with retry := some (UInt64.ofNat ms) }
    | none => cur
  else cur

/-- Take a line that is not blank. -/
def field (cur : Event) (line : Str) : Event :=
  match stripStart line ":".toList with
  | some rest => { cur with comment := some (addComment cur.comment rest) }
  | none =>
    match splitOnce ':' line with
    | some (name, value) => setField cur name (stripSpace value)
    | none => setField cur line []

/-- The event at its blank line: without the newline after the last `data` line. -/
def dispatch (cur : Event) : Event :=
  { cur with data := if cur.data.getLast? = some '\n' then cur.data.dropLast else cur.data }

/-- Take a line, with the event so far and whether there has been a field of it: a blank line completes the event. -/
def takeLine (s : Event × Bool) (line : Bytes) : (Event × Bool) × List Event :=
  let line := fromUtf8Lossy (if line.getLast? = some (byte '\r') then line.dropLast else line)
  if line = [] then if s.2 then ((.empty, false), [dispatch s.1]) else (s, []) else ((field s.1 line, true), [])

def takeLines (s : Event × Bool) : List Bytes → (Event × Bool) × List Event
  | [] => (s, [])
  | l :: ls => ((takeLines (takeLine s l).1 ls).1, (takeLine s l).2 ++ (takeLines (takeLine s l).1 ls).2)

/-- Feed more bytes: the events that they complete. -/
def push (dec : SseDecoder) (bytes : Bytes) : SseDecoder × List Event :=
  let cut := cutLines (byte '\n') (dec.buf ++ bytes)
  let out := takeLines (dec.cur, dec.dirty) cut.1
  (⟨cut.2, out.1.1, out.1.2⟩, out.2)

/-- Feed a body chunk by chunk. -/
def pushAll (dec : SseDecoder) : List Bytes → SseDecoder × List Event
  | [] => (dec, [])
  | c :: cs => (((dec.push c).1.pushAll cs).1, (dec.push c).2 ++ ((dec.push c).1.pushAll cs).2)

end SseDecoder

/-- The events of a body that arrives in some chunks. -/
def decode (chunks : List Bytes) : List Event := (SseDecoder.new.pushAll chunks).2

/-! ## Texts that a frame keeps -/

/-- Whether no line of a text ends in a carriage return. -/
def keepsLines (s : Str) : Bool := (split '\n' s).all (fun l => l.getLast? != some '\r')

/-- Whether a text is one line that does not end in a carriage return. -/
def isLine (s : Str) : Bool := !s.contains '\n' && s.getLast? != some '\r'

/-- Whether the fields of an event keep their values on the wire: those that are one line are, and the comment does not begin with a
line that is empty. -/
def Event.isKept (e : Event) : Bool :=
  keepsLines e.data && e.event.all isLine && e.id.all isLine && e.comment.all (fun c => keepsLines c && c.head? != some '\n')

end Sse

end Ferroly.Http
