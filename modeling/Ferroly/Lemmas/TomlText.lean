import Ferroly.Codec.TomlSpec

/-!
# The text of a TOML document

Every writer appends a text of its own, so a document is the concatenation of its statements: the lines of a table, and for each
subtable a header, its lines and its subtables.
-/

namespace Ferroly.Toml

open List Fmt

variable {D : F64Display}

/-- Induction over tables: a table from its subtables and from the elements of its arrays of tables. -/
@[elab_as_elim] theorem Table.ind {Q : Table → Prop}
    (step : ∀ o : Table, (∀ e ∈ o, ∀ t, e.2 = .object t → Q t) → (∀ e ∈ o, ∀ a, e.2 = .array a → ∀ t, .object t ∈ a → Q t) → Q o)
    (o : Table) : Q o := by
  have h : ∀ v : Value, (∀ t, v = .object t → Q t) ∧ (∀ a, v = .array a → ∀ t, .object t ∈ a → Q t) := by
    intro v
    induction v using Value.ind with
    | array a ih =>
      refine ⟨fun t h => (nomatch h), ?_⟩
      rintro b ⟨⟩ t ht
      exact (ih _ ht).1 t rfl
    | object o ih =>
      refine ⟨?_, fun a h => (nomatch h)⟩
      rintro t ⟨⟩
      exact step o (fun e he => (ih e he).1) (fun e he => (ih e he).2)
    | _ => exact ⟨fun t h => (nomatch h), fun a h => (nomatch h)⟩
  exact (h (.object o)).1 o rfl

/-! ## Strings and keys -/

/-- A character as it stands in a basic string. -/
def escapeChar (c : Char) : Str := (escapeOf c).getD [c]

/-- A basic string. -/
def quote (s : Str) : Str := '"' :: (s.flatMap escapeChar ++ ['"'])

theorem writeBasicStringLoop_eq (out run s : Str) : writeBasicStringLoop out run s = out ++ run ++ s.flatMap escapeChar := by
  induction s generalizing out run with
  | nil => simp [writeBasicStringLoop]
  | cons c s ih =>
    rw [writeBasicStringLoop]
    cases h : escapeOf c with
    | none | some esc => simp [ih, escapeChar, h]

theorem writeBasicString_eq (out s : Str) : writeBasicString out s = out ++ quote s := by
  simp [writeBasicString, writeBasicStringLoop_eq, quote]

/-- Whether a key is written bare. -/
def isBare (k : Str) : Bool := !k.isEmpty && k.all isBareChar

variable {k : Str}

theorem keyRepr_eq : keyRepr k = if isBare k then k else quote k := by
  rw [keyRepr, isBare, writeBasicString_eq, nil_append]

theorem keyRepr_ne_nil : keyRepr k ≠ [] := by
  rw [keyRepr_eq]
  split
  · next h =>
    rintro rfl
    cases h
  · simp [quote]

/-- A dotted path. -/
def pathText : List Str → Str
  | [] => []
  | [k] => keyRepr k
  | k :: path => keyRepr k ++ '.' :: pathText path

variable {path : List Str}

theorem pathText_cons_cons (k l : Str) : pathText (k :: l :: path) = keyRepr k ++ '.' :: pathText (l :: path) := rfl

theorem pathText_ne_nil (h : path ≠ []) : pathText path ≠ [] := by
  obtain ⟨k, path, rfl⟩ := exists_cons_of_ne_nil h
  cases path with
  | nil => exact keyRepr_ne_nil
  | cons l path => simp [pathText]

/-- A header extends the path by a key. -/
theorem headerJoin_pathText : headerJoin (pathText path) k = pathText (path ++ [k]) := by
  have happ : ∀ path : List Str, path ≠ [] → pathText path ++ ['.'] ++ keyRepr k = pathText (path ++ [k]) := by
    intro path hp
    induction path with
    | nil => exact absurd rfl hp
    | cons l path ih =>
      cases path with
      | nil => simp [pathText]
      | cons m path =>
        rw [cons_append, cons_append, pathText_cons_cons, pathText_cons_cons, ← cons_append, ← ih (cons_ne_nil _ _)]
        simp
  cases path with
  | nil => rfl
  | cons l path =>
    have hne := pathText_ne_nil (cons_ne_nil l path)
    rw [headerJoin, if_neg (by simpa using hne), happ _ (cons_ne_nil _ _)]

/-! ## Inline values -/

/-- Texts with commas between them, and one in front if more is before. -/
def joinSep (more : Bool) : List Str → Str
  | [] => []
  | t :: ts => (if more then ", ".toList else []) ++ t ++ joinSep true ts

/-- A value in inline form. -/
def inlineText (D : FloatDisplay binary64) (v : Value) : Str := writeInline D v []

/-- An entry of an inline table, or a line without its end. -/
def entryText (D : FloatDisplay binary64) (e : Str × Value) : Str := keyRepr e.1 ++ " = ".toList ++ inlineText D e.2

theorem writeBytesLoop_eq (out : Str) (i : Nat) (b : Bytes) : writeBytesLoop out i b = out ++ writeBytesLoop [] i b := by
  induction b generalizing out i with
  | nil => simp [writeBytesLoop]
  | cons c b ih =>
    rw [writeBytesLoop, writeBytesLoop, ih, ih (Fmt.writeU64 _ _), writeU64_eq, writeU64_eq]
    split <;> simp

variable {out : Str}

theorem writeFloat_eq (f : F64) : writeFloat D out f = out ++ writeFloat D [] f := by
  unfold writeFloat
  split
  · rfl
  · split
    · rfl
    · simp only
      split <;> simp

theorem writeInlineItems_eq {a : List Value} (ih : ∀ v ∈ a, ∀ out, writeInline D v out = out ++ inlineText D v) (out : Str)
    (i : Nat) : writeInlineItems D a out i = out ++ joinSep (decide (0 < i)) (a.map (inlineText D)) := by
  induction a generalizing out i with
  | nil => simp [writeInlineItems, joinSep]
  | cons v a iha =>
    rw [writeInlineItems, ih v mem_cons_self, iha (forall_mem_cons.mp ih).2, map_cons, joinSep]
    by_cases hi : 0 < i
    · simp [hi]
    · simp [hi]

/-- The texts of the entries of an inline table: null ones are left out. -/
def entryTexts (D : FloatDisplay binary64) (o : Table) : List Str := (o.filter (fun e => !e.2.isNull)).map (entryText D)

theorem writeInlineEntries_eq {o : Table} (ih : ∀ e ∈ o, ∀ out, writeInline D e.2 out = out ++ inlineText D e.2) (out : Str)
    (first : Bool) : writeInlineEntries D o out first = out ++ joinSep (!first) (entryTexts D o) := by
  induction o generalizing out first with
  | nil => simp [writeInlineEntries, joinSep, entryTexts]
  | cons e o iho =>
    obtain ⟨k, v⟩ := e
    have iho := iho (forall_mem_cons.mp ih).2
    rw [writeInlineEntries]
    cases hv : v.isNull with
    | true =>
      rw [iho]
      simp [entryTexts, hv]
    | false =>
      rw [if_neg (by simp), iho, ih (k, v) mem_cons_self, writeKey]
      cases first <;> simp [entryTexts, hv, joinSep, entryText]

theorem writeInline_eq (D : F64Display) (v : Value) (out : Str) : writeInline D v out = out ++ inlineText D v := by
  induction v using Value.ind generalizing out with
  | int i => rw [inlineText, writeInline, writeInline, writeI64_eq, writeI64_eq, nil_append]
  | uint u => rw [inlineText, writeInline, writeInline, writeU64_eq, writeU64_eq, nil_append]
  | float f => rw [inlineText, writeInline, writeInline, writeFloat_eq]
  | str s => rw [inlineText, writeInline, writeInline, writeBasicString_eq, writeBasicString_eq, nil_append]
  | bytes b => rw [inlineText, writeInline, writeInline, writeBytesLoop_eq, writeBytesLoop_eq ([] ++ _)]; simp
  | array a ih => rw [inlineText, writeInline, writeInline, writeInlineItems_eq ih, writeInlineItems_eq ih]; simp
  | object o ih =>
    rw [inlineText, writeInline, writeInline, writeInlineEntries_eq ih, writeInlineEntries_eq ih]
    split <;> simp
  | _ => rfl

theorem inlineText_array (D : F64Display) (a : List Value) :
    inlineText D (.array a) = '[' :: (joinSep false (a.map (inlineText D)) ++ [']']) := by
  rw [inlineText, writeInline, writeInlineItems_eq (fun v _ => writeInline_eq D v)]
  simp

theorem inlineText_object (D : F64Display) (o : Table) :
    inlineText D (.object o) = if o.all (fun e => e.2.isNull) then "\x7b\x7d".toList
      else "\x7b ".toList ++ (joinSep false (entryTexts D o) ++ " \x7d".toList) := by
  rw [inlineText, writeInline, writeInlineEntries_eq (fun e _ => writeInline_eq D e.2)]
  split <;> simp

/-! ## Tables -/

/-- Whether an entry stands on a line of its own. -/
def isLine (e : Str × Value) : Bool := !(e.2.isNull || isSection e.2)

/-- The lines of a table. -/
def linesText (D : FloatDisplay binary64) (o : Table) : Str := (o.filter isLine).flatMap (fun e => entryText D e ++ ['\n'])

theorem writeLines_eq (D : F64Display) (o : Table) (out : Str) : writeLines D o out = out ++ linesText D o := by
  induction o generalizing out with
  | nil => simp [writeLines, linesText]
  | cons e o ih =>
    obtain ⟨k, v⟩ := e
    rw [writeLines]
    cases hv : (v.isNull || isSection v) with
    | true =>
      rw [ih]
      simp [linesText, isLine, hv]
    | false =>
      rw [if_neg (by simp), ih, writeInline_eq, writeKey]
      simp [linesText, isLine, hv, entryText]

/-- The subtables of a table. -/
def sectionsText (D : FloatDisplay binary64) (o : Table) (header : Str) : Str := writeSections D o [] header

/-- A table, after its header. -/
def tableText (D : FloatDisplay binary64) (o : Table) (header : Str) : Str := linesText D o ++ sectionsText D o header

/-- An element of an array of tables. -/
def elementText (D : FloatDisplay binary64) (header : Str) : Value → Str
  | .object o => "\n[[".toList ++ header ++ "]]\n".toList ++ tableText D o header
  | _ => []

/-- A subtable or an array of tables, with its headers. -/
def sectionText (D : FloatDisplay binary64) (v : Value) (header : Str) : Str :=
  match v with
  | .object o => if o.isEmpty then [] else "\n[".toList ++ header ++ "]\n".toList ++ tableText D o header
  | .array a => if isArrayOfTables a then a.flatMap (elementText D header) else []
  | _ => []

theorem writeTables_eq {a : List Value} {header : Str}
    (ih : ∀ t, .object t ∈ a → ∀ out, writeSections D t out header = out ++ sectionsText D t header) (out : Str) :
    writeTables D a out header = out ++ a.flatMap (elementText D header) := by
  induction a generalizing out with
  | nil => simp [writeTables]
  | cons v a iha =>
    have iha := iha (fun t ht => ih t (mem_cons_of_mem _ ht))
    cases v with
    | object o =>
      rw [writeTables, iha, ih o mem_cons_self, writeLines_eq]
      simp [elementText, tableText]
    | _ =>
      rw [writeTables, iha]
      · simp [elementText]
      · exact fun o h => nomatch h

theorem writeSection_eq {v : Value} {header : Str}
    (ho : ∀ t, v = .object t → ∀ out, writeSections D t out header = out ++ sectionsText D t header)
    (ha : ∀ a, v = .array a → ∀ t, .object t ∈ a → ∀ out, writeSections D t out header = out ++ sectionsText D t header)
    : writeSection D v out header = out ++ sectionText D v header := by
  cases v with
  | object o =>
    rw [writeSection, sectionText, ho o rfl, writeLines_eq]
    split
    · rw [append_nil]
    · simp [tableText]
  | array a =>
    rw [writeSection, sectionText, writeTables_eq (ha a rfl)]
    split
    · rfl
    · rw [append_nil]
  | _ => simp [writeSection, sectionText]

variable {o : Table}

/-- The subtables are written one after the other. -/
theorem writeSections_eq (out header : Str) :
    writeSections D o out header = out ++ o.flatMap (fun e => sectionText D e.2 (headerJoin header e.1)) := by
  induction o using Table.ind generalizing out header with
  | step o ho ha =>
    have happ : ∀ t : Table, (∀ out header, writeSections D t out header =
        out ++ t.flatMap (fun e => sectionText D e.2 (headerJoin header e.1))) →
        ∀ header out, writeSections D t out header = out ++ sectionsText D t header := by
      intro t ht header out
      rw [sectionsText, ht, ht [] header, nil_append]
    induction o generalizing out with
    | nil => simp [writeSections]
    | cons e o ih =>
      obtain ⟨k, v⟩ := e
      rw [writeSections, ih (forall_mem_cons.mp ho).2 (forall_mem_cons.mp ha).2,
        writeSection_eq (fun t h => happ t (ho (k, v) mem_cons_self t h) _)
          (fun a h t ht => happ t (ha (k, v) mem_cons_self a h t ht) _)]
      simp

theorem sectionsText_eq (header : Str) :
    sectionsText D o header = o.flatMap (fun e => sectionText D e.2 (headerJoin header e.1)) := by
  rw [sectionsText, writeSections_eq, nil_append]

/-- A document is the text of its table. -/
theorem encode_object : encode D (.object o) = tableText D o [] := by
  rw [encode, writeTable, writeSections_eq, writeLines_eq, nil_append, tableText, sectionsText_eq]

end Ferroly.Toml
