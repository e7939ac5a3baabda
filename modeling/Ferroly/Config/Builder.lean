import Ferroly.Lib.Assoc
import Ferroly.Codec.Derive
import Ferroly.Codec.Yaml
import Ferroly.Codec.Xml

/-!
# Layered configuration

`ConfigBuilder` merges layers onto a value: values, files of four formats, environment variables and command-line flags. `Config`
looks a dot path up in the result. A file is what reading it gave, the environment is the list of its variables.
-/

namespace Ferroly

/-- Errors raised while loading or extracting configuration. -/
inductive ConfigError where
  | unsupportedFormat (path : Str)
  | io (message : String)
  | missingKey (key : Str)
  | codec (e : CodecError)
  deriving DecidableEq, Repr

/-- A resolved configuration. -/
structure Config where
  value : Value

/-- A configuration to which layers are added. -/
structure ConfigBuilder where
  value : Value

namespace Config

/-! ## Merging -/

mutual

/-- Merge `over` onto `base`: objects are merged key by key, everything else is replaced. -/
def merge : Value → Value → Value
  | .object b, .object o => .object (mergeEntries b o)
  | _, overlay => overlay

/-- Merge the entries of an object onto others. An entry changes the first one of its key, or is added. -/
def mergeEntries : List (Str × Value) → List (Str × Value) → List (Str × Value)
  | b, [] => b
  | b, (k, ov) :: o => mergeEntries (upsert k (fun bv => merge bv ov) ov b) o

end

/-- The loop of `navigate` over the segments of a key; empty ones are skipped. -/
def navigateLoop (cur : Value) : List Str → Option Value
  | [] => some cur
  | seg :: segs => if seg = [] then navigateLoop cur segs else (cur.get seg).bind (navigateLoop · segs)

def navigate (value : Value) (key : Str) : Option Value := navigateLoop value (split '.' key)

/-- Set the value at a path of segments, of which there is at least one. What is no object on the way is replaced. -/
def insertNested (value : Value) : List Str → List (Str × Value) → List (Str × Value)
  | [], entries => entries
  | [head], entries => upsert head (fun _ => value) value entries
  | head :: seg :: segs, entries =>
    let child (v : Value) : Value := .object (insertNested value (seg :: segs) (v.asObject.getD []))
    upsert head child (child (.object [])) entries

/-! ## Files -/

inductive FileFormat where
  | json | yaml | xml | properties
  deriving DecidableEq, Repr

/-- The last component of a path that names something in its directory. -/
def fileName (path : Str) : Option Str :=
  ((split '/' path).filter (fun c => c != [] && c != ['.'])).getLast?.filter (fun c => c != ['.', '.'])

/-- The part of the file name after its last dot, unless the name only begins with it. -/
def extension (path : Str) : Option Str :=
  match (fileName path).bind (rsplitOnce '.') with
  | some (stem, ext) => if stem = [] then none else some ext
  | none => none

/-- The format of a file. -/
def fileFormat (path : Str) : Option FileFormat :=
  match (extension path).map toAsciiLowercase with
  | none => none
  | some ext =>
    if ext = "json".toList then some .json
    else if ext = "yaml".toList ∨ ext = "yml".toList then some .yaml
    else if ext = "xml".toList then some .xml
    else if ext = "properties".toList ∨ ext = "props".toList ∨ ext = "env".toList then some .properties
    else none

/-- One line of a properties file. -/
def propertyLine (entries : List (Str × Value)) (raw : Str) : List (Str × Value) :=
  let line := trim raw
  if line = [] ∨ line.head? = some '#' ∨ line.head? = some '!' then entries
  else
    match splitOnce '=' line with
    | none => entries
    | some (key, val) =>
      let segs := (split '.' (trim key)).map trim
      if segs.any List.isEmpty then entries else insertNested (.str (trim val)) segs entries

/-- Parse a properties file. -/
def parseProperties (input : Str) : Value := .object ((lines input).foldl propertyLine [])

/-- The result of a codec as one of the loader. -/
def codecResult {α : Type} : Except (Fault CodecError) α → Except (Fault ConfigError) α
  | .ok a => .ok a
  | .error (.error e) => .error (.error (.codec e))
  | .error .panic => .error .panic
  | .error .diverge => .error .diverge

/-- Parse the bytes of a file as text. -/
def parseText {α : Type} (bytes : Bytes) (parse : Str → Except (Fault ConfigError) α) : Except (Fault ConfigError) α :=
  match fromUtf8 bytes with
  | some text => parse text
  | none => .error (.error (.io (utf8Error bytes)))

/-- The value of a file of a format. -/
def parseFile (format : FileFormat) (bytes : Bytes) : Except (Fault ConfigError) Value :=
  match format with
  | .json => codecResult (Json.fromSlice bytes)
  | .yaml => parseText bytes (fun text => codecResult (Yaml.fromStr text))
  | .xml => parseText bytes (fun text => codecResult (Xml.fromStr text))
  | .properties => parseText bytes (fun text => .ok (parseProperties text))

/-- Load a file, `read` being what reading it gives. -/
def loadFile (path : Str) (read : Except String Bytes) : Except (Fault ConfigError) Value :=
  match fileFormat path with
  | none => .error (.error (.unsupportedFormat path))
  | some format =>
    match read with
    | .error message => .error (.error (.io message))
    | .ok bytes => parseFile format bytes

/-! ## Environment variables and flags -/

/-- The order of strings, which is that of their bytes. -/
def strLe (s t : Str) : Bool := !decide (t < s)

/-- The order of variables: by name, then by value. -/
def varLe (x y : Str × Str) : Bool := if x.1 = y.1 then strLe x.2 y.2 else strLe x.1 y.1

/-- One variable. -/
def envVar (C : CaseMap) (pre : Str) (entries : List (Str × Value)) (var : Str × Str) : List (Str × Value) :=
  match stripStart var.1 pre with
  | none => entries
  | some rest =>
    if rest = [] then entries
    else insertNested (.str var.2) ((splitStr "__".toList rest).map C.strToLowercase) entries

/-- The variables whose names begin with `pre`, in sorted order. -/
def envToValue (C : CaseMap) (pre : Str) (vars : List (Str × Str)) : Value :=
  .object ((vars.mergeSort varLe).foldl (envVar C pre) [])

/-- One flag with its value. -/
def setFlag (key val : Str) (entries : List (Str × Value)) : List (Str × Value) :=
  let segs := split '.' key
  if segs.any List.isEmpty then entries else insertNested (.str val) segs entries

/-- The loop of `merge_args`. A flag without `=` takes the next argument as its value, unless that is a flag. -/
def argEntries : List Str → List (Str × Value) → List (Str × Value)
  | [], entries => entries
  | arg :: it, entries =>
    match stripStart arg "--".toList with
    | none => argEntries it entries
    | some flag =>
      match splitOnce '=' flag with
      | some (k, v) => argEntries it (setFlag k v entries)
      | none =>
        match it with
        | [] => setFlag flag "true".toList entries
        | next :: it' =>
          if startsWith next "--".toList then argEntries (next :: it') (setFlag flag "true".toList entries)
          else argEntries it' (setFlag flag next entries)

/-! ## The API -/

def new : Config := ⟨.object []⟩

def builder : ConfigBuilder := ⟨.object []⟩

def fromEnv (C : CaseMap) (pre : Str) (vars : List (Str × Str)) : Config := ⟨envToValue C pre vars⟩

def fromFile (path : Str) (read : Except String Bytes) : Except (Fault ConfigError) Config := (loadFile path read).map Config.mk

/-- A key, decoded. -/
def get {α : Type} (decode : Value → Except CodecError α) (c : Config) (key : Str) : Except ConfigError α :=
  match navigate c.value key with
  | none => .error (.missingKey key)
  | some v => (decode v).mapError .codec

end Config

namespace ConfigBuilder

open Config

/-- The derived default, which is not an object. -/
def default : ConfigBuilder := ⟨.null⟩

def mergeValue (b : ConfigBuilder) (value : Value) : ConfigBuilder := ⟨merge b.value value⟩

def mergeFile (b : ConfigBuilder) (path : Str) (read : Except String Bytes) : Except (Fault ConfigError) ConfigBuilder :=
  (loadFile path read).map b.mergeValue

def mergeEnv (C : CaseMap) (b : ConfigBuilder) (pre : Str) (vars : List (Str × Str)) : ConfigBuilder :=
  b.mergeValue (envToValue C pre vars)

def mergeArgs (b : ConfigBuilder) (args : List Str) : ConfigBuilder := b.mergeValue (.object (argEntries args []))

def build (b : ConfigBuilder) : Config := ⟨b.value⟩

end ConfigBuilder

/-! ## Sequences of layers -/

/-- A call that adds a layer. -/
inductive Source where
  | value (v : Value)
  | file (path : Str) (read : Except String Bytes)
  | env (pre : Str) (vars : List (Str × Str))
  | args (flags : List Str)

/-- The layer it adds. -/
def Source.layer (C : CaseMap) : Source → Except (Fault ConfigError) Value
  | .value v => .ok v
  | .file path read => Config.loadFile path read
  | .env pre vars => .ok (Config.envToValue C pre vars)
  | .args flags => .ok (.object (Config.argEntries flags []))

namespace ConfigBuilder

/-- Make the call. -/
def add (C : CaseMap) (b : ConfigBuilder) : Source → Except (Fault ConfigError) ConfigBuilder
  | .value v => .ok (b.mergeValue v)
  | .file path read => b.mergeFile path read
  | .env pre vars => .ok (b.mergeEnv C pre vars)
  | .args flags => .ok (b.mergeArgs flags)

/-- Make the calls one after the other. -/
def addAll (C : CaseMap) (b : ConfigBuilder) : List Source → Except (Fault ConfigError) ConfigBuilder
  | [] => .ok b
  | s :: sources =>
    match b.add C s with
    | .ok b' => b'.addAll C sources
    | .error e => .error e

end ConfigBuilder

end Ferroly
