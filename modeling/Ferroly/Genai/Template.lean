import Ferroly.Codec.Json
import Ferroly.Genai.Router

/-!
# Prompt templates

`\x7b\x7b path \x7d\x7d` in a template is replaced by what the path leads to in the variables. A template is scanned once, from left to
right.
-/

namespace Ferroly.Genai

section Render

variable (D : F64Display)

/-- Follow a dotted path; empty segments are skipped. -/
def lookup (value : Value) (path : Str) : Option Value :=
  (split '.' path).foldlM (fun cur seg => if seg = [] then some cur else cur.get seg) value

def valueToString : Option Value → Str
  | none => []
  | some .null => []
  | some (.str s) => s
  | some (.bool b) => if b then "true".toList else "false".toList
  | some (.int i) => Fmt.writeI64 [] i
  | some (.uint u) => Fmt.writeU64 [] u
  | some (.float f) => D.toText f
  | some other => Json.toString D other

/-- The path in a placeholder: without white space around it, and without leading dots. -/
def exprPath (expr : Str) : Str := trim ((trim expr).dropWhile (· == '.'))

/-- The loop over the characters that are left of the template, with the text so far. It ends before its fuel, one step for each
character, is used up. -/
def renderLoop (vars : Value) : Nat → Str → Str → Except GenAiError Str
  | 0, _, out => .ok out
  | fuel + 1, s, out =>
    match s with
    | [] => .ok out
    | '\x7b' :: '\x7b' :: s =>
      match splitOnceStr "\x7d\x7d".toList s with
      | none => .error (.template "unclosed '\x7b\x7b' in template".toList)
      | some (expr, s) => renderLoop vars fuel s (out ++ valueToString D (lookup vars (exprPath expr)))
    | c :: s => renderLoop vars fuel s (out ++ [c])

/-- Render a template against a value. -/
def renderValue (template : Str) (vars : Value) : Except GenAiError Str := renderLoop D vars template.length template []

end Render

/-! ## What a template consists of -/

/-- A character that is kept, or a placeholder. -/
inductive Piece where
  | literal (c : Char)
  | hole (expr : Str)

/-- A text is another one with white space around it. -/
def Pads (s t : Str) : Prop :=
  ∃ w w', s = w ++ (t ++ w') ∧ (∀ c ∈ w ++ w', isWhitespace c = true) ∧ ∀ c, t.head? = some c ∨ t.getLast? = some c → isWhitespace c = false

/-- The keys that a placeholder names: between white space, after dots and more white space, there are parts with dots between them.
Those that are not empty are keys. -/
def Names (expr : Str) (keys : List Str) : Prop :=
  ∃ dots rest path parts, Pads expr (dots ++ rest) ∧ (∀ c ∈ dots, c = '.') ∧ rest.head? ≠ some '.' ∧ Pads rest path ∧
    path = ['.'].intercalate parts ∧ (∀ part ∈ parts, '.' ∉ part) ∧ keys = parts.filter (fun part => part ≠ [])

/-- The value that keys lead to, through objects. Of entries with the same key the last counts. -/
inductive Leads : Value → List Str → Value → Prop where
  | here (v : Value) : Leads v [] v
  | entry {before after : List (Str × Value)} {k : Str} {keys : List Str} {v w : Value} : (∀ e ∈ after, e.1 ≠ k) → Leads v keys w →
      Leads (.object (before ++ (k, v) :: after)) (k :: keys) w

/-- A scan from left to right: the pieces of a text up to where it has come. A placeholder ends at the first closing braces. -/
inductive Scan : Str → List Piece → Str → Prop where
  | stop (s : Str) : Scan s [] s
  | literal {c : Char} {s r : Str} {ps : List Piece} : ¬ "\x7b\x7b".toList <+: c :: s → Scan s ps r → Scan (c :: s) (.literal c :: ps) r
  | hole {expr s r : Str} {ps : List Piece} : ¬ "\x7d\x7d".toList <:+: expr ++ ['\x7d'] → Scan s ps r →
      Scan ("\x7b\x7b".toList ++ (expr ++ "\x7d\x7d".toList ++ s)) (.hole expr :: ps) r

/-- Every opening braces that a scan comes to have closing ones after them. -/
def Closed (template : Str) : Prop :=
  ∀ ps s, Scan template ps ("\x7b\x7b".toList ++ s) → "\x7d\x7d".toList <:+: s

end Ferroly.Genai
