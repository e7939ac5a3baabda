import Ferroly.Http.ClientSpec

/-!
# Reading heads

What the line reader and the header reader take from a connection.
-/

namespace Ferroly

open List Conn Ferroly.Task

namespace Conn

variable {c : Conn}

theorem readUntilNewline_cons {b : UInt8} {rest : Bytes} (hc : c.input = b :: rest) (hb : b ≠ byte '\n') {l : Bytes} {d : Conn} :
    readUntilNewline { c with input := rest } = (.ok l, d) ↔ readUntilNewline c = (.ok (b :: l), d) := by
  unfold readUntilNewline atEnd
  simp only [hc, splitLine, if_neg hb]
  rcases splitLine rest with ⟨line, after, _ | _⟩
  · rcases c.ending with _ | _ | _ <;> simp
  · simp

theorem readUntilNewline_newline {rest : Bytes} (hc : c.input = byte '\n' :: rest) :
    readUntilNewline c = (.ok [byte '\n'], { c with input := rest }) := by
  unfold readUntilNewline
  simp only [hc, splitLine, if_true]

theorem readUntilNewline_nil (hc : c.input = []) : readUntilNewline c = atEnd (.ok []) c := by
  unfold readUntilNewline atEnd
  rcases c with ⟨input, ending, paces, sawEof, output, room, reach⟩
  obtain rfl : input = [] := hc
  rfl

theorem readUntilNewline_line {line rest : Bytes} (hc : c.input = line ++ rest) (hl : IsLine line) :
    readUntilNewline c = (.ok line, { c with input := rest }) :=
  readUntilNewline_eq_ok.mpr (.inl ⟨hl, hc, rfl⟩)

end Conn

namespace Http

variable {buf line rest : Bytes} {c d : Conn} {h h' : HeaderMap} {n room total : Nat}

/-! ## Trimmed text -/

/-- Removing the line ends inside trimmed text leaves it trimmed. -/
theorem trim_stripCrlf_trim (s : Str) : trim (stripCrlf (trim s)) = stripCrlf (trim s) := by
  rw [stripCrlf_eq]
  refine trim_filter_trim (fun c hc => ?_)
  rw [Bool.not_eq_false', isCrlf, Bool.or_eq_true, beq_iff_eq, beq_iff_eq] at hc
  rcases hc with rfl | rfl <;> rfl

/-! ## Lines -/

theorem readLineLoop_nil (hc : c.input = []) : readLineLoop room buf c = match c.ending with
      | .eof => (.ok buf, { c with sawEof := true })
      | .failure => (.error (.error (.io .other)), c)
      | .stall => (.error .diverge, c) := by
  rw [readLineLoop, bind_apply]
  simp only [Task.attempt, readU8, hc, atEnd]
  rcases c.ending with _ | _ | _ <;> rfl

theorem readLineLoop_cons {b : UInt8} (hc : c.input = b :: rest) : readLineLoop room buf c = match room with
      | 0 => (.error (.error (.protocol "request or header line too long")), { c with input := rest })
      | room + 1 =>
        if b = byte '\n' then (.ok (buf ++ [b]), { c with input := rest })
        else readLineLoop room (buf ++ [b]) { c with input := rest } := by
  rw [readLineLoop, bind_apply]
  simp only [Task.attempt, readU8, hc]
  cases room with
  | zero => rfl
  | succ room => exact Task.ite_apply _ _ _ _

/-- The line reader takes a line as `readUntilNewline` does, if it fits. -/
theorem readLineLoop_eq_ok : readLineLoop room buf c = (.ok line, d) ↔
      ∃ l, line = buf ++ l ∧ l.length ≤ room ∧ readUntilNewline c = (.ok l, d) := by
  -- over the bytes that are there, one of the room for each up to the newline
  generalize hc : c.input = input
  induction input generalizing room buf c with
  | nil =>
    rw [readLineLoop_nil hc, readUntilNewline_nil hc, atEnd]
    rcases c.ending with _ | _ | _ <;> simp [eq_comm]
  | cons b rest ih =>
    have hcons : ∀ l, readUntilNewline c = (.ok l, d) → ∃ l', l = b :: l' := by
      intro l hread
      rcases readUntilNewline_eq_ok.mp hread with ⟨hline, hin, -⟩ | ⟨-, hin, -⟩
      · obtain ⟨a, l', rfl⟩ := exists_cons_of_ne_nil (ne_nil_of_isLine hline)
        rw [hc] at hin
        exact ⟨l', by rw [(cons.inj hin).1]⟩
      · exact ⟨rest, by rw [← hin, hc]⟩
    rw [readLineLoop_cons hc]
    rcases room with _ | room
    · refine iff_of_false (by simp) ?_
      rintro ⟨l, -, hl, hread⟩
      obtain ⟨l', rfl⟩ := hcons l hread
      cases hl
    by_cases hb : b = byte '\n'
    · subst hb
      rw [readUntilNewline_newline hc]
      simp only [if_true, Prod.mk.injEq, Except.ok.injEq]
      constructor
      · rintro ⟨rfl, rfl⟩
        exact ⟨_, rfl, Nat.le_add_left _ _, rfl, rfl⟩
      · rintro ⟨l, rfl, -, rfl, rfl⟩
        exact ⟨rfl, rfl⟩
    · simp only [if_neg hb, ih (c := { c with input := rest }) rfl]
      constructor
      · rintro ⟨l, rfl, hl, hread⟩
        exact ⟨b :: l, by simp, Nat.succ_le_succ hl, (readUntilNewline_cons hc hb).mp hread⟩
      · rintro ⟨l, rfl, hl, hread⟩
        obtain ⟨l', rfl⟩ := hcons l hread
        exact ⟨l', by simp, Nat.le_of_succ_le_succ hl, (readUntilNewline_cons hc hb).mpr hread⟩

theorem readLineCapped_eq_ok {cap : Nat} {s : Str} : readLineCapped cap c = (.ok (s, n), d) ↔
      ∃ l, s = fromUtf8Lossy l ∧ n = l.length ∧ l.length ≤ cap ∧ readUntilNewline c = (.ok l, d) := by
  unfold readLineCapped
  rw [bind_eq_ok]
  simp only [readLineLoop_eq_ok, pure_apply, Prod.mk.injEq, Except.ok.injEq]
  constructor
  · rintro ⟨l, c', ⟨_, rfl, hl, hread⟩, ⟨rfl, rfl⟩, rfl⟩
    exact ⟨l, rfl, rfl, hl, hread⟩
  · rintro ⟨l, rfl, rfl, hl, hread⟩
    exact ⟨l, d, ⟨l, rfl, hl, hread⟩, ⟨rfl, rfl⟩, rfl⟩

theorem keeps_readLineLoop (room : Nat) (buf : Bytes) : Task.Keeps outgoing (readLineLoop room buf) := by
  induction room generalizing buf <;> rw [readLineLoop] <;> refine .bind (.attempt keeps_readU8) (fun r => ?_) <;>
    rcases r with (_ | _ | _) | b
  case succ.ok ih => exact .ite (.pure _) (ih _)
  all_goals first | exact .pure _ | exact .fail _

theorem keeps_readLineCapped (cap : Nat) : Task.Keeps outgoing (readLineCapped cap) :=
  .bind (keeps_readLineLoop cap []) (fun _ => .pure _)

/-! ## Headers -/

/-- One turn of the header loop: it is done at the end of the stream or at a blank line, and goes on after another line, if that fits and
there is room for it. -/
theorem readHeadersLoop_eq_ok : readHeadersLoop room total h c = (.ok h', d) ↔
      ∃ l c1, readUntilNewline c = (.ok l, c1) ∧ l.length ≤ MAX_LINE_BYTES ∧ (l = [] ∧ h' = h ∧ d = c1 ∨
          l ≠ [] ∧ total + l.length ≤ MAX_HEADER_TOTAL_BYTES ∧ (trimEndCrlf (fromUtf8Lossy l) = [] ∧ h' = h ∧ d = c1 ∨
              trimEndCrlf (fromUtf8Lossy l) ≠ [] ∧ ∃ room', room = room' + 1 ∧
                readHeadersLoop room' (total + l.length) (addLine h (trimEndCrlf (fromUtf8Lossy l))) c1 = (.ok h', d))) := by
  rw [readHeadersLoop, bind_eq_ok]
  constructor
  · rintro ⟨⟨s, n⟩, c1, hline, hrest⟩
    obtain ⟨l, rfl, rfl, hcap, hread⟩ := readLineCapped_eq_ok.mp hline
    refine ⟨l, c1, hread, hcap, ?_⟩
    simp only [length_eq_zero_iff] at hrest
    split at hrest
    · next hnil =>
      cases hrest
      exact .inl ⟨hnil, rfl, rfl⟩
    next hne =>
    split at hrest
    · cases hrest
    next htotal =>
    refine .inr ⟨hne, Nat.le_of_not_lt htotal, ?_⟩
    split at hrest
    · next hblank =>
      cases hrest
      exact .inl ⟨hblank, rfl, rfl⟩
    next hblank =>
    rcases room with _ | room
    · cases hrest
    · refine .inr ⟨hblank, room, rfl, ?_⟩
      cases hs : splitOnce ':' (trimEndCrlf (fromUtf8Lossy l)) <;> simpa only [addLine, hs] using hrest
  · rintro ⟨l, c1, hread, hcap, hcase⟩
    refine ⟨(fromUtf8Lossy l, l.length), c1, readLineCapped_eq_ok.mpr ⟨l, rfl, rfl, hcap, hread⟩, ?_⟩
    simp only [length_eq_zero_iff]
    rcases hcase with ⟨hnil, rfl, rfl⟩ | ⟨hne, htotal, ⟨hblank, rfl, rfl⟩ | ⟨hblank, room, rfl, hrest⟩⟩
    · rw [if_pos hnil, pure_apply]
    · rw [if_neg hne, if_neg (Nat.not_lt.mpr htotal), if_pos hblank, pure_apply]
    · rw [if_neg hne, if_neg (Nat.not_lt.mpr htotal), if_neg hblank]
      cases hs : splitOnce ':' (trimEndCrlf (fromUtf8Lossy l)) <;> simpa only [addLine, hs] using hrest

/-- One turn of the header loop, at a line. -/
theorem readHeadersLoop_line (hc : c.input = line ++ rest) (hl : Conn.IsLine line) : readHeadersLoop room total h c = (.ok h', d) ↔
      line.length ≤ MAX_LINE_BYTES ∧ total + line.length ≤ MAX_HEADER_TOTAL_BYTES ∧
        ((trimEndCrlf (fromUtf8Lossy line) = [] ∧ h' = h ∧ d = { c with input := rest }) ∨
          (trimEndCrlf (fromUtf8Lossy line) ≠ [] ∧ ∃ room', room = room' + 1 ∧
            readHeadersLoop room' (total + line.length) (addLine h (trimEndCrlf (fromUtf8Lossy line)))
              { c with input := rest } = (.ok h', d))) := by
  rw [readHeadersLoop_eq_ok, readUntilNewline_line hc hl]
  constructor
  · rintro ⟨l, c1, ⟨⟩, hcap, ⟨hnil, -⟩ | ⟨-, hcase⟩⟩
    · exact absurd hnil (ne_nil_of_isLine hl)
    · exact ⟨hcap, hcase⟩
  · rintro ⟨hcap, hcase⟩
    exact ⟨line, _, rfl, hcap, .inr ⟨ne_nil_of_isLine hl, hcase⟩⟩

/-- The steps of reading the head of a response. -/
theorem readResponseHead_eq_ok {status : StatusCode} : readResponseHead c = (.ok (status, h), d) ↔
      ∃ l c1 code, readUntilNewline c = (.ok l, c1) ∧ l.length ≤ MAX_LINE_BYTES ∧ l ≠ [] ∧
        ((split ' ' (trimEnd (fromUtf8Lossy l)))[1]?).bind (parseUnsigned 16 10) = some code ∧ status = ⟨UInt16.ofNat code⟩ ∧
        readHeadersLoop MAX_HEADERS 0 HeaderMap.new c1 = (.ok h, d) := by
  rw [readResponseHead, bind_eq_ok]
  constructor
  · rintro ⟨⟨s, n⟩, c1, hline, hrest⟩
    obtain ⟨l, rfl, rfl, hcap, hl⟩ := readLineCapped_eq_ok.mp hline
    simp only [length_eq_zero_iff] at hrest
    split at hrest
    · cases hrest
    next hne =>
    rcases hcode : ((split ' ' (trimEnd (fromUtf8Lossy l)))[1]?).bind (parseUnsigned 16 10) with _ | code <;>
      simp only [hcode] at hrest
    · cases hrest
    obtain ⟨headers, c2, hheaders, hpure⟩ := bind_eq_ok.mp hrest
    cases hpure
    exact ⟨l, c1, code, hl, hcap, hne, hcode, rfl, hheaders⟩
  · rintro ⟨l, c1, code, hl, hcap, hne, hcode, rfl, hheaders⟩
    refine ⟨(fromUtf8Lossy l, l.length), c1, readLineCapped_eq_ok.mpr ⟨l, rfl, rfl, hcap, hl⟩, ?_⟩
    simp only [length_eq_zero_iff, if_neg hne, hcode]
    exact bind_eq_ok.mpr ⟨h, d, hheaders, rfl⟩

/-- The steps of reading the head of a request. -/
theorem readRequestHead_eq_ok {head : RequestHead} : readRequestHead c = (.ok head, d) ↔
      ∃ l c1 method target more, readUntilNewline c = (.ok l, c1) ∧ l.length ≤ MAX_LINE_BYTES ∧ l ≠ [] ∧
        split ' ' (trimEnd (fromUtf8Lossy l)) = method :: target :: more ∧ head = ⟨Method.parse method, target, head.headers⟩ ∧
        readHeadersLoop MAX_HEADERS 0 HeaderMap.new c1 = (.ok head.headers, d) := by
  rw [readRequestHead, bind_eq_ok]
  constructor
  · rintro ⟨⟨s, n⟩, c1, hline, hrest⟩
    obtain ⟨l, rfl, rfl, hcap, hl⟩ := readLineCapped_eq_ok.mp hline
    simp only [length_eq_zero_iff] at hrest
    split at hrest
    · cases hrest
    next hne =>
    rcases hwords : split ' ' (trimEnd (fromUtf8Lossy l)) with _ | ⟨method, _ | ⟨target, more⟩⟩ <;> simp only [hwords] at hrest
    · cases hrest
    · cases hrest
    obtain ⟨headers, c2, hheaders, hpure⟩ := bind_eq_ok.mp hrest
    cases hpure
    exact ⟨l, c1, method, target, more, hl, hcap, hne, hwords, rfl, hheaders⟩
  · rintro ⟨l, c1, method, target, more, hl, hcap, hne, hwords, hhead, hheaders⟩
    refine ⟨(fromUtf8Lossy l, l.length), c1, readLineCapped_eq_ok.mpr ⟨l, rfl, rfl, hcap, hl⟩, ?_⟩
    simp only [length_eq_zero_iff, if_neg hne, hwords]
    rw [hhead]
    exact bind_eq_ok.mpr ⟨_, d, hheaders, rfl⟩

/-- No value has white space around it. -/
def HeaderMap.Trimmed (h : HeaderMap) : Prop := ∀ e ∈ h.entries, trim e.2 = e.2

/-- A length without a sign, and without white space around it, is a plain number. -/
theorem isPlainNumber_of_parseLength {v : Str} (htrim : trim v = v) (hsign : v.head? ≠ some '+')
    (h : HeaderMap.parseLength v = some n) : isPlainNumber v = true ∧ Nat.ofDigitChars 10 v 0 = n := by
  rw [HeaderMap.parseLength, htrim, parseUnsigned_of_head hsign, Option.bind_eq_some_iff] at h
  obtain ⟨m, hdigits, hlt⟩ := h
  obtain ⟨-, ⟨⟩⟩ := Option.ite_none_right_eq_some.mp hlt
  obtain ⟨hne, hall⟩ := isDigit_of_parseDigits hdigits
  refine ⟨?_, Option.some.inj (by rw [← parseDigits_digits hne hall, hdigits])⟩
  rw [isPlainNumber, Bool.and_eq_true, Bool.not_eq_true', isEmpty_eq_false_iff, all_eq_true]
  exact ⟨hne, hall⟩

theorem HeaderMap.Trimmed.append (hh : h.Trimmed) (name value : Str) : (h.append name (trim value)).Trimmed := by
  intro e he
  rcases mem_append.mp he with he | he
  · exact hh e he
  · rw [mem_singleton.mp he]
    exact trim_stripCrlf_trim value

theorem HeaderMap.Trimmed.addLine (hh : h.Trimmed) (text : Str) : (addLine h text).Trimmed := by
  unfold Http.addLine
  split
  · exact hh.append _ _
  · exact hh

theorem readHeadersLoop_trimmed (hh : h.Trimmed) (hread : readHeadersLoop room total h c = (.ok h', d)) : h'.Trimmed := by
  induction room using Nat.strong_induction_on generalizing total h c with
  | _ room ih =>
    obtain ⟨l, c1, -, -, ⟨-, rfl, -⟩ | ⟨-, -, ⟨-, rfl, -⟩ | ⟨-, room', rfl, hloop⟩⟩⟩ := readHeadersLoop_eq_ok.mp hread
    · exact hh
    · exact hh
    · exact ih room' (Nat.lt_succ_self _) (hh.addLine _) hloop

theorem keeps_readHeadersLoop (room total : Nat) (h : HeaderMap) : Task.Keeps outgoing (readHeadersLoop room total h) := by
  induction room generalizing total h with
  | zero =>
    refine .bind (keeps_readLineCapped _) (fun ⟨line, n⟩ => ?_)
    exact .ite (.pure _) (.ite (.fail _) (.ite (.pure _) (.fail _)))
  | succ room ih =>
    refine .bind (keeps_readLineCapped _) (fun ⟨line, n⟩ => ?_)
    refine .ite (.pure _) (.ite (.fail _) (.ite (.pure _) ?_))
    simp only
    split
    · exact ih _ _
    · exact ih _ _

/-- Reading a head leaves the writing side alone. -/
theorem keeps_readResponseHead : Task.Keeps outgoing readResponseHead := by
  refine .bind (keeps_readLineCapped _) (fun ⟨line, n⟩ => ?_)
  refine .ite (.fail _) ?_
  split
  · exact .fail _
  · exact .bind (keeps_readHeadersLoop _ _ _) (fun _ => .pure _)

/-- A complete header block is what the header loop reads. -/
theorem readHeadersLoop_block {h1 : HeaderMap} {block : Bytes} (hblock : HeaderBlock h block h1) (hin : c.input = block ++ rest)
    (hread : readHeadersLoop room total h c = (.ok h', d)) : h' = h1 ∧ d = { c with input := rest } := by
  induction hblock generalizing room total c with
  | blank hl hblank =>
    obtain ⟨-, -, ⟨-, rfl, rfl⟩ | ⟨hne, -⟩⟩ := (readHeadersLoop_line hin hl).mp hread
    · exact ⟨rfl, rfl⟩
    · exact absurd hblank hne
  | @field h h1 line block hl hfield _ ih =>
    rw [append_assoc] at hin
    obtain ⟨-, -, ⟨hnil, -⟩ | ⟨-, room, rfl, hloop⟩⟩ := (readHeadersLoop_line hin hl).mp hread
    · exact absurd hnil hfield
    · exact ih (c := { c with input := block ++ rest }) rfl hloop

/-! ## Heads by their lines -/

theorem splitLines_flatten (b : Bytes) : (splitLines b).flatten = b := by
  induction b with
  | nil => rfl
  | cons a b ih =>
    rw [splitLines]
    split
    · rw [flatten_cons, ih, singleton_append]
    · rcases hb : splitLines b with _ | ⟨line, lines⟩ <;> rw [hb] at ih <;> simp_all

theorem splitLines_line (hl : IsLine line) (rest : Bytes) : splitLines (line ++ rest) = line :: splitLines rest := by
  induction line with
  | nil => cases hl
  | cons a line ih =>
    rw [cons_append, splitLines]
    rcases isLine_cons.mp hl with ⟨rfl, rfl⟩ | ⟨ha, hl⟩
    · rw [if_pos rfl, nil_append]
    · rw [if_neg ha, ih hl]

theorem splitLines_rest {b : Bytes} (h : splitLine b = (b, [], false)) (hne : b ≠ []) : splitLines b = [b] := by
  induction b with
  | nil => exact absurd rfl hne
  | cons a b ih =>
    rw [splitLine] at h
    split at h
    · cases h
    · next ha =>
      have hb : splitLine b = (b, [], false) := by
        rcases hs : splitLine b with ⟨l, r, e⟩
        simpa [hs] using h
      rw [splitLines, if_neg ha]
      rcases b with _ | ⟨a', b⟩
      · rfl
      · rw [ih hb (cons_ne_nil _ _)]

/-- The first line that is read is the first of the lines. -/
theorem splitLines_read (h : readUntilNewline c = (.ok line, d)) :
    (line = [] → c.input = [] ∧ d.input = []) ∧ (line ≠ [] → splitLines c.input = line :: splitLines d.input) := by
  rcases readUntilNewline_eq_ok.mp h with ⟨hl, hin, hd⟩ | ⟨hl, hin, -, hd⟩
  · refine ⟨fun hnil => absurd hnil (ne_nil_of_isLine hl), fun _ => ?_⟩
    rw [hin, splitLines_line hl]
  · rw [hd, hin]
    exact ⟨fun hnil => ⟨hnil, rfl⟩, fun hne => splitLines_rest hl hne⟩

/-- The header loop by the lines of its input: it takes those up to the first blank one. -/
theorem readHeadersLoop_splitLines (hread : readHeadersLoop room total h c = (.ok h', d)) :
    h' = addLines h ((splitLines c.input).takeWhile isField) ∧ d.input = ((splitLines c.input).dropWhile isField).tail.flatten := by
  induction room using Nat.strong_induction_on generalizing total h c with
  | _ room ih =>
    obtain ⟨l, c1, hline, -, ⟨hnil, rfl, rfl⟩ | ⟨hne, -, hcase⟩⟩ := readHeadersLoop_eq_ok.mp hread
    · obtain ⟨hin, hd⟩ := (splitLines_read hline).1 hnil
      rw [hin, hd]
      exact ⟨rfl, rfl⟩
    rw [(splitLines_read hline).2 hne]
    rcases hcase with ⟨hblank, rfl, rfl⟩ | ⟨hfield, room', rfl, hloop⟩
    · rw [takeWhile_cons_of_neg (by simp [isField, hblank]), dropWhile_cons_of_neg (by simp [isField, hblank]), tail_cons,
        splitLines_flatten]
      exact ⟨rfl, rfl⟩
    · rw [takeWhile_cons_of_pos (by simp [isField, hfield]), dropWhile_cons_of_pos (by simp [isField, hfield])]
      exact ih room' (Nat.lt_succ_self _) hloop

/-- An empty line is blank to the server. -/
theorem isInHead_of_isField (h : isField line = true) : isInHead line = true := by
  simp only [isField, isInHead, decide_eq_true_eq] at h ⊢
  refine mt (fun hempty => rdropWhile_eq_nil_iff.mpr (fun c hc => ?_)) h
  by_cases hn : c = '\n'
  · simp [hn]
  · have hmem : c ∈ (fromUtf8Lossy line).filter (fun c => c ≠ '\n') := mem_filter.mpr ⟨hc, by simpa using hn⟩
    rw [lineText, stripCr] at hempty
    split at hempty
    · next hlast =>
      rw [← dropLast_append_getLast? _ hlast, hempty, nil_append, mem_singleton] at hmem
      simp [hmem]
    · rw [hempty] at hmem
      cases hmem

/-- Where the server reads the lines of a head as they stand, it takes these lines for the head. -/
theorem takeWhile_isField {lines : List Bytes} (h : ∀ line ∈ lines.takeWhile isInHead, readsAlike line = true) :
    lines.takeWhile isField = lines.takeWhile isInHead ∧ lines.dropWhile isField = lines.dropWhile isInHead := by
  induction lines with
  | nil => exact ⟨rfl, rfl⟩
  | cons line lines ih =>
    rw [takeWhile_cons, takeWhile_cons, dropWhile_cons, dropWhile_cons]
    by_cases hin : isInHead line = true
    · rw [takeWhile_cons_of_pos hin, forall_mem_cons, readsAlike, Bool.and_eq_true, Bool.and_eq_true] at h
      simp only [hin, h.1.1.1, if_true]
      exact (ih h.2).imp_left (congrArg _)
    · simp only [hin, mt isInHead_of_isField hin, Bool.false_eq_true, if_false, and_self]

theorem addLine_new (h : HeaderMap) (text : Str) : (addLine h text).entries = h.entries ++ (addLine HeaderMap.new text).entries := by
  unfold addLine
  split
  · rfl
  · exact (append_nil _).symm

theorem addLines_framing {lines : List Bytes} (halike : ∀ line ∈ lines, readsAlike line = true) (h : HeaderMap) :
    (addLines h lines).framing = framingOf (h.entries ++ lines.flatMap lineFields) := by
  induction lines generalizing h with
  | nil => rw [flatMap_nil, append_nil]; rfl
  | cons line lines ih =>
    obtain ⟨hline, hlines⟩ := forall_mem_cons.mp halike
    simp only [readsAlike, Bool.and_eq_true, decide_eq_true_eq, addLines, foldl_cons, foldl_nil, HeaderMap.framing,
      framingOf, FramingFields.mk.injEq] at hline
    refine (ih hlines _).trans ?_
    simp only [framingOf, addLine_new h, valuesOf_append, flatMap_cons, hline.2, append_assoc]

end Http

end Ferroly
