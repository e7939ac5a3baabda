import Ferroly.Lib.Lines
import Ferroly.Lib.Text
import Ferroly.Lib.Utf8Cut

/-!
# Lines of provider streams

A provider's response arrives in chunks. A buffer decodes each chunk and yields the lines that are complete; what each line says is sent
to a receiver that may be dropped.
-/

namespace Ferroly.Genai

/-- How many bytes of a line without an end are kept. -/
def MAX_BUFFERED_BYTES : Nat := 2 ^ 20

/-- The text that has arrived and is not yet a complete line. -/
structure LineBuffer where
  buf : Str
  deriving DecidableEq

namespace LineBuffer

def new : LineBuffer := ⟨[]⟩

/-- Append a chunk; a line without an end that gets too long is dropped. -/
def push (lb : LineBuffer) (bytes : Bytes) : LineBuffer :=
  let buf := lb.buf ++ fromUtf8Lossy bytes
  if MAX_BUFFERED_BYTES < (utf8 buf).length ∧ '\n' ∉ buf then ⟨[]⟩ else ⟨buf⟩

/-- The complete lines, each without the whitespace at its end, and the buffer without them. -/
def drainLines (lb : LineBuffer) : List Str × LineBuffer :=
  ((cutLines '\n' lb.buf).1.map (fun l => trimEnd (l ++ ['\n'])), ⟨(cutLines '\n' lb.buf).2⟩)

/-- The line without an end, if there is one. -/
def takeRemainder (lb : LineBuffer) : Str := trimEnd lb.buf

/-- Push chunks and drain the lines after each. -/
def drainAll (lb : LineBuffer) : List Bytes → List Str × LineBuffer
  | [] => ([], lb)
  | c :: cs => ((lb.push c).drainLines.1 ++ ((lb.push c).drainLines.2.drainAll cs).1, ((lb.push c).drainLines.2.drainAll cs).2)

end LineBuffer

/-! ## Pumping a response -/

section

variable {β : Type}

/-- What has been sent, and how many more the receiver takes before it is dropped. -/
structure Sender (β : Type) where
  sent : List β
  takes : Option Nat

/-- Send one; `false` if the receiver is gone. -/
def Sender.send (tx : Sender β) (x : β) : Sender β × Bool :=
  match tx.takes with
  | some 0 => (tx, false)
  | takes => (⟨tx.sent ++ [x], takes.map (· - 1)⟩, true)

/-- Send what each line says, until the receiver is gone. -/
def forward (parse : Str → Option β) : List Str → Sender β → Sender β × Bool
  | [], tx => (tx, true)
  | line :: lines, tx =>
    match parse line with
    | none => forward parse lines tx
    | some x =>
      match tx.send x with
      | (tx, true) => forward parse lines tx
      | (tx, false) => (tx, false)

/-- Read a response of some chunks that ends, or fails with an error, and send what its lines say. -/
def pump (parse : Str → Option β) (transport : Str → β) (failure : Option Str) : List Bytes → LineBuffer → Sender β → Sender β
  | [], lb, tx =>
    match failure with
    | some e => (tx.send (transport e)).1
    | none =>
      if lb.takeRemainder = [] then tx
      else
        match parse lb.takeRemainder with
        | none => tx
        | some x => (tx.send x).1
  | c :: cs, lb, tx =>
    match forward parse (lb.push c).drainLines.1 tx with
    | (tx, true) => pump parse transport failure cs (lb.push c).drainLines.2 tx
    | (tx, false) => tx

end

/-! ## What the stream says -/

/-- The lines of a byte stream that is decoded as a whole. -/
def linesOf (stream : Bytes) : List Str := (cutLines '\n' (fromUtf8Lossy stream)).1.map trimEnd

/-- The text that arrives in some chunks. -/
def arrived (chunks : List Bytes) : Str := chunks.flatMap fromUtf8Lossy

/-- Whether every line of the text that arrives is within the limit. -/
def keepsLines (chunks : List Bytes) : Bool := (cutLines '\n' (arrived chunks)).1.all (fun l => decide ((utf8 l).length ≤ MAX_BUFFERED_BYTES))

/-- Whether no cut goes through a character or an ill-formed part. -/
def cutsBetween (chunks : List Bytes) : Bool := chunks.flatMap decodeUtf8 == decodeUtf8 chunks.flatten

/-- As much of a list as a receiver takes. -/
def firstOf {β : Type} (takes : Option Nat) (xs : List β) : List β := takes.elim xs (fun n => xs.take n)

end Ferroly.Genai
