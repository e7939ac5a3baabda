import Ferroly.Codec.Json

/-!
# Log records

The text of a record in either format, from the time, the level, the message and the fields: those of the context providers, those of
the logger and those of the call. Which levels are enabled and where the line goes are left out.
-/

namespace Ferroly.Log

inductive Level where
  | trace
  | debug
  | info
  | warn
  | error

/-- The lowercase name. -/
def Level.asStr : Level → Str
  | .trace => "trace".toList
  | .debug => "debug".toList
  | .info => "info".toList
  | .warn => "warn".toList
  | .error => "error".toList

/-- The output format. -/
inductive Format where
  | plain
  | json

/-- A structured logger. -/
structure Logger where
  format : Format
  fields : List (Str × Value)

/-! ## Time -/

/-- Days since 1970 as year, month and day. -/
def civilFromDays (z : Int) : Int × Nat × Nat :=
  let z := z + 719468
  let era := (if z ≥ 0 then z else z - 146096).tdiv 146097
  let doe := (z - era * 146097).toNat
  let yoe := (doe - doe / 1460 + doe / 36524 - doe / 146096) / 365
  let y : Int := yoe + era * 400
  let doy := doe - (365 * yoe + yoe / 4 - yoe / 100)
  let mp := (5 * doy + 2) / 153
  let day := doy - (153 * mp + 2) / 5 + 1
  let month := if mp < 10 then mp + 3 else mp - 9
  (if month ≤ 2 then y + 1 else y, month, day)

/-- A number with zeros up to a width. -/
def padded (width n : Nat) : Str := (Nat.toDigits 10 n).leftpad width '0'

/-- The time of some seconds and milliseconds since 1970, whose year is not negative. -/
def rfc3339 (secs millis : Nat) : Str :=
  let rem := secs % 86400
  let (year, month, day) := civilFromDays (secs / 86400 : Nat)
  padded 4 year.toNat ++ '-' :: padded 2 month ++ '-' :: padded 2 day ++ 'T' :: padded 2 (rem / 3600) ++
    ':' :: padded 2 (rem % 3600 / 60) ++ ':' :: padded 2 (rem % 60) ++ '.' :: padded 3 millis ++ ['Z']

/-! ## Records -/

/-- A character that ends a line. -/
def isBreak (c : Char) : Bool := c == '\n' || c == '\r'

def sanitize (msg : Str) : Str :=
  if msg.any isBreak then msg.map (fun c => if isBreak c then ' ' else c) else msg

variable (D : F64Display)

/-- A field's plain text: strings raw, everything else as JSON. -/
def valuePlain : Value → Str
  | .str s => s
  | v => Json.toString D v

/-- Append a field. -/
def pushField (s : Str) (e : Str × Value) : Str := s ++ ' ' :: e.1 ++ '=' :: valuePlain D e.2

namespace Logger

variable (l : Logger) (ts : Str) (level : Level) (msg : Str) (provided fields : Object)

def formatPlain : Str :=
  let s := ts ++ ' ' :: (level.asStr.map Char.toUpper).rightpad 5 ' ' ++ ' ' :: sanitize msg
  let s := (provided ++ l.fields).foldl (pushField D) s
  fields.foldl (pushField D) s

def formatJson : Str :=
  Json.toString D (.object ([("ts".toList, .str ts), ("level".toList, .str level.asStr), ("msg".toList, .str msg)] ++
    (provided ++ l.fields) ++ fields))

/-- The line that `log` writes. -/
def line (secs millis : Nat) : Str :=
  match l.format with
  | .plain => l.formatPlain D (rfc3339 secs millis) level msg provided fields
  | .json => l.formatJson D (rfc3339 secs millis) level msg provided fields

end Logger

end Ferroly.Log
