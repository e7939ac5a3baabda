import Ferroly.Http.RequestSpec
import Ferroly.Lemmas.HttpResponse

/-!
# Requests read back

The head of a request as the reader takes it, line by line.
-/

namespace Ferroly.Http

open List

variable {e : Str × Str}

/-! ## Lines of a header block -/

/-- The field of a line, if it has one. -/
def lineField (l : Str) : Option (Str × Str) :=
  (splitOnce ':' (trimEndCrlf l)).map (fun p => (stripCrlf (trim p.1), stripCrlf (trim p.2)))

theorem addLine_entries (h : HeaderMap) (l : Str) : (addLine h (trimEndCrlf l)).entries = h.entries ++ (lineField l).toList := by
  unfold addLine lineField
  rcases splitOnce ':' (trimEndCrlf l) with _ | ⟨k, v⟩
  · simp
  · simp [HeaderMap.append]

/-- The headers that are read from some lines. -/
def linesHeaders (h : HeaderMap) (lines : List Str) : HeaderMap := lines.foldl (fun h l => addLine h (trimEndCrlf l)) h

theorem linesHeaders_entries (h : HeaderMap) (lines : List Str) :
    (linesHeaders h lines).entries = h.entries ++ lines.filterMap lineField := by
  induction lines generalizing h with
  | nil => simp [linesHeaders]
  | cons l lines ih =>
    rw [linesHeaders, foldl_cons, ← linesHeaders, ih, addLine_entries, filterMap_cons]
    cases lineField l <;> simp

variable {lines : List Str} {rest : Bytes}

/-- A header block is read to its end exactly if none of its lines is blank and all of them fit. -/
theorem readHeadersLoop_lines {room total : Nat} {h h' : HeaderMap} {c d : Conn} (hlines : ∀ l ∈ lines, '\n' ∉ l)
    (hin : c.input = utf8 (lines.flatMap (fun l => l ++ "\n".toList)) ++ (utf8 "\r\n".toList ++ rest)) :
    readHeadersLoop room total h c = (.ok h', d) ∧ d.input = rest ↔ ((∀ l ∈ lines, trimEndCrlf l ≠ []) ∧ lines.length ≤ room ∧
        (∀ l ∈ lines, (utf8 (l ++ "\n".toList)).length ≤ MAX_LINE_BYTES) ∧
        total + (utf8 (lines.flatMap (fun l => l ++ "\n".toList))).length + 2 ≤ MAX_HEADER_TOTAL_BYTES) ∧
      h' = linesHeaders h lines ∧ d = { c with input := rest } := by
  have hlen : (utf8 "\r\n".toList).length = 2 := by decide
  induction lines generalizing room total h c with
  | nil =>
    have hblank : Conn.IsLine (utf8 "\r\n".toList) := rfl
    rw [flatMap_nil, utf8_nil, nil_append] at hin
    rw [readHeadersLoop_line hin hblank, hlen]
    constructor
    · rintro ⟨⟨-, htotal, ⟨-, rfl, rfl⟩ | ⟨hne, -⟩⟩, -⟩
      · exact ⟨⟨fun _ hl => (by cases hl), Nat.zero_le _, fun _ hl => (by cases hl), by simpa using htotal⟩, rfl, rfl⟩
      · exact absurd rfl hne
    · rintro ⟨⟨-, -, -, htotal⟩, rfl, rfl⟩
      exact ⟨⟨by decide, by simpa using htotal, .inl ⟨rfl, rfl, rfl⟩⟩, rfl⟩
  | cons l lines ih =>
    have hl : Conn.IsLine (utf8 (l ++ "\n".toList)) := Conn.isLine_utf8 (hlines l mem_cons_self)
    have hrest := (forall_mem_cons.mp hlines).2
    have htrim : trimEndCrlf (fromUtf8Lossy (utf8 (l ++ "\n".toList))) = trimEndCrlf l := by
      rw [fromUtf8Lossy_utf8]
      exact trimEndCrlf_newline
    have hbytes : (utf8 ((l :: lines).flatMap (fun l => l ++ "\n".toList))).length =
        (utf8 (l ++ "\n".toList)).length + (utf8 (lines.flatMap (fun l => l ++ "\n".toList))).length := by
      rw [flatMap_cons, utf8_append, length_append]
    rw [flatMap_cons, utf8_append, append_assoc] at hin
    rw [readHeadersLoop_line hin hl, htrim, length_cons, forall_mem_cons, forall_mem_cons]
    constructor
    · rintro ⟨⟨hline, -, ⟨-, -, rfl⟩ | ⟨hne, room, rfl, hloop⟩⟩, hd⟩
      · -- a blank line leaves the rest of the head unread
        have hlong := congrArg length hd
        simp only [length_append] at hlong
        omega
      · obtain ⟨⟨hmore, hcount, hfit, htotal⟩, rfl, rfl⟩ := (ih hrest rfl).mp ⟨hloop, hd⟩
        exact ⟨⟨⟨hne, hmore⟩, Nat.succ_le_succ hcount, ⟨hline, hfit⟩, by omega⟩, rfl, rfl⟩
    · rintro ⟨⟨⟨hne, hmore⟩, hcount, ⟨hline, hfit⟩, htotal⟩, rfl, rfl⟩
      refine ⟨⟨hline, by omega, .inr ⟨hne, room - 1, by omega, ?_⟩⟩, rfl⟩
      have hnext := @ih (room - 1) (total + (utf8 (l ++ "\n".toList)).length) (addLine h (trimEndCrlf l))
        { c with input := utf8 (lines.flatMap (fun l => l ++ "\n".toList)) ++ (utf8 "\r\n".toList ++ rest) } hrest rfl
      exact (hnext.mpr ⟨⟨hmore, by omega, hfit, by omega⟩, rfl, rfl⟩).1

/-! ## The lines of the fields -/

/-- The text of some fields is the lines it is written as. -/
theorem flatMap_wireLines (fields : List (Str × Str)) :
    (wireLines fields).flatMap (fun l => l ++ "\n".toList) = fields.flatMap headerLine := by
  rw [wireLines, flatMap_assoc]
  congr 1
  funext e
  have hsplit := flatMap_split '\n' (e.1 ++ ": ".toList ++ e.2 ++ "\r".toList)
  rw [headerLine]
  exact hsplit.trans (by simp)

variable {fields : List (Str × Str)}

theorem not_mem_wireLines : ∀ l ∈ wireLines fields, '\n' ∉ l := by
  intro l hl
  obtain ⟨e, -, hl⟩ := mem_flatMap.mp hl
  exact not_mem_of_mem_split hl

/-- A field of one line is written as one line. -/
theorem wireLines_oneLine (h : OneLine e) :
    split '\n' (e.1 ++ ": ".toList ++ e.2 ++ "\r".toList) = [fieldText e ++ "\r".toList] := by
  refine split_eq_singleton (fun hmem => ?_)
  rcases mem_append.mp hmem with hc | hc
  · exact absurd (h _ hc) (by decide)
  · revert hc
    decide

theorem trimEndCrlf_fieldLine (h : OneLine e) : trimEndCrlf (fieldText e ++ "\r".toList) = fieldText e := by
  have hline : headerLine e = (fieldText e ++ "\r".toList) ++ ['\n'] := by
    rw [append_assoc]
    rfl
  rw [← trimEndCrlf_newline, ← hline]
  exact trimEndCrlf_headerLine h

/-- The field of a line that is one is the field it reads back as. -/
theorem lineField_oneLine (h : OneLine e) : lineField (fieldText e ++ "\r".toList) = some (wireField e) := by
  obtain ⟨k, v, hkv, hw⟩ := splitOnce_fieldText
  obtain ⟨hk, hv⟩ := stripCrlf_wireField h
  rw [hw] at hk hv ⊢
  rw [lineField, trimEndCrlf_fieldLine h, hkv, Option.map_some, hk, hv]

theorem filterMap_oneLine (h : ∀ e ∈ fields, OneLine e) :
    (wireLines fields).filterMap lineField = fields.map wireField ∧ ∀ l ∈ wireLines fields, trimEndCrlf l ≠ [] := by
  induction fields with
  | nil => exact ⟨rfl, fun _ hl => nomatch hl⟩
  | cons e fields ih =>
    have he := h e mem_cons_self
    obtain ⟨hmap, hblank⟩ := ih (forall_mem_cons.mp h).2
    have hcons : wireLines (e :: fields) = [fieldText e ++ "\r".toList] ++ wireLines fields := by
      rw [wireLines, flatMap_cons, wireLines_oneLine he, wireLines]
    rw [hcons, filterMap_append, hmap, filterMap_cons, lineField_oneLine he]
    refine ⟨rfl, fun l hl => ?_⟩
    rcases mem_append.mp hl with hl | hl
    · rw [mem_singleton.mp hl, trimEndCrlf_fieldLine he]
      simp [fieldText]
    · exact hblank l hl

/-- A field reads back under its own name exactly if that is one. -/
theorem wireField_eq_iff : wireField e = (e.1, trim e.2) ↔ isFieldName e.1 = true := by
  obtain ⟨name, value⟩ := e
  rw [isFieldName, Bool.and_eq_true, Bool.not_eq_true', contains_eq_mem, decide_eq_false_iff_not, beq_iff_eq]
  constructor
  · intro h
    by_cases hc : ':' ∈ name
    · -- the name that is read ends before the colon
      exfalso
      obtain ⟨a, b, rfl, ha⟩ := eq_append_cons_of_mem hc
      have hsplit : splitOnce ':' ((a ++ ':' :: b) ++ ": ".toList ++ value) = some (a, b ++ ": ".toList ++ value) := by
        rw [append_assoc, append_assoc, cons_append, splitOnce_append ha, append_assoc]
      rw [wireField, hsplit] at h
      have hname : trim a = a ++ ':' :: b := congrArg Prod.fst h
      have hle : (trim a).length ≤ a.length := (List.rdropWhile_prefix _ _).length_le.trans (length_dropWhile_le _ _)
      rw [hname, length_append, length_cons] at hle
      omega
    · rw [wireField_of_not_mem hc] at h
      exact ⟨hc, congrArg Prod.fst h⟩
  · rintro ⟨hc, htrim⟩
    rw [wireField_of_not_mem hc, htrim]

/-! ## The lines of the host -/

theorem lineField_eq_none {l : Str} : lineField l = none ↔ ':' ∉ l := by
  rw [lineField, Option.map_eq_none_iff, ← mem_trimEndCrlf (by decide) (by decide)]
  constructor
  · intro h hc
    obtain ⟨k, v, hkv⟩ := splitOnce_of_mem hc
    rw [hkv] at h
    cases h
  · exact splitOnce_eq_none

theorem filterMap_lineField_eq_nil : lines.filterMap lineField = [] ↔ ∀ l ∈ lines, ':' ∉ l := by
  rw [filterMap_eq_nil_iff]
  exact forall₂_congr (fun _ _ => lineField_eq_none)

variable {first : Str}

theorem trimEndCrlf_host : trimEndCrlf ("Host: ".toList ++ first) = "Host: ".toList ++ trimEndCrlf first := by
  have happ := rdropWhile_append (fun c => c == '\r' || c == '\n') "Host: ".toList first
  unfold trimEndCrlf
  rw [happ]
  split
  case isTrue h =>
    rw [h]
    decide
  case isFalse => rfl

/-- The first line of the host is its field, up to the line feed. -/
theorem lineField_host : lineField ("Host: ".toList ++ first) = some ("Host".toList, stripCrlf (trim first)) := by
  have hsplit : splitOnce ':' ("Host: ".toList ++ trimEndCrlf first) = some ("Host".toList, ' ' :: trimEndCrlf first) :=
    splitOnce_append (s := "Host".toList) (by decide)
  have hname : stripCrlf (trim "Host".toList) = "Host".toList := by decide
  rw [lineField, trimEndCrlf_host, hsplit, Option.map_some, hname, trim_cons_space, trim_trimEndCrlf]

/-- The host reads back exactly if its lines are one field, of this value, and none of them is blank. -/
theorem hostReadsBack_iff {authority : Str} : hostReadsBack authority = true ↔
      (wireLines [("Host".toList, authority)]).filterMap lineField = [("Host".toList, trim authority)] ∧
        ∀ l ∈ wireLines [("Host".toList, authority)], trimEndCrlf l ≠ [] := by
  obtain ⟨first, more, hfirst, hlines⟩ :=
    split_append_left (c := '\n') (p := "Host: ".toList) (by decide) (authority ++ "\r".toList)
  have hwire : wireLines [("Host".toList, authority)] = ("Host: ".toList ++ first) :: more := by
    rw [← hlines, wireLines, flatMap_singleton]
    rfl
  have hhost : trimEndCrlf ("Host: ".toList ++ first) ≠ [] := by
    rw [trimEndCrlf_host]
    exact append_ne_nil_of_left_ne_nil (by decide) _
  rw [hwire, filterMap_cons_some lineField_host, cons.injEq, Prod.mk.injEq, filterMap_lineField_eq_nil,
    forall_mem_cons, hostReadsBack, hfirst]
  simp only [Bool.and_eq_true, beq_iff_eq, all_eq_true, Bool.not_eq_true', contains_eq_mem, bne_iff_ne,
    decide_eq_false_iff_not, true_and, hhost, ne_eq, not_false_eq_true, forall_and, and_assoc]

/-! ## The request line -/

theorem asStr_parse (s : Str) : (Method.parse s).asStr = s := by
  unfold Method.parse
  split_ifs with h1 h2 h3 h4 h5 h6 h7 h8 h9
  all_goals first | exact Eq.symm ‹_› | rfl

theorem isWord_iff {s : Str} : isWord s = true ↔ ' ' ∉ s ∧ '\n' ∉ s := by
  simp [isWord]

variable {c d : Conn}

/-- A head is read from a request line of two words exactly if the line fits and its headers are read. -/
theorem readRequestHead_words {method target : Str} {head : RequestHead} (hm : isWord method = true) (ht : isWord target = true)
    (hc : c.input = utf8 (method ++ " ".toList ++ target ++ " HTTP/1.1\r\n".toList) ++ rest) :
    readRequestHead c = (.ok head, d) ↔ (utf8 (method ++ " ".toList ++ target ++ " HTTP/1.1\r\n".toList)).length ≤ MAX_LINE_BYTES ∧
        ∃ h, readHeaders { c with input := rest } = (.ok h, d) ∧ head = ⟨Method.parse method, target, h⟩ := by
  rw [isWord_iff] at hm ht
  have hl : Conn.IsLine (utf8 (method ++ " ".toList ++ target ++ " HTTP/1.1\r\n".toList)) := by
    have hline := @Conn.isLine_crlf (method ++ " ".toList ++ target ++ " HTTP/1.1".toList) (by simp [hm.2, ht.2])
    rwa [append_assoc _ " HTTP/1.1".toList] at hline
  have hsplit : split ' ' (trimEnd (method ++ " ".toList ++ target ++ " HTTP/1.1\r\n".toList)) =
      [method, target, "HTTP/1.1".toList] := by
    rw [trimEnd_append, append_assoc, append_assoc]
    show split ' ' (method ++ ' ' :: (target ++ ' ' :: "HTTP/1.1".toList)) = _
    rw [split_append hm.1, split_append ht.1]
    rfl
  rw [readRequestHead_eq_ok, Conn.readUntilNewline_line hc hl]
  constructor
  · rintro ⟨l, c1, _, _, _, ⟨⟩, hfit, -, hwords, hhead, hheaders⟩
    rw [fromUtf8Lossy_utf8, hsplit] at hwords
    cases hwords
    exact ⟨hfit, _, hheaders, hhead⟩
  · rintro ⟨hfit, headers, hh, rfl⟩
    exact ⟨_, _, _, _, _, rfl, hfit, Conn.ne_nil_of_isLine hl, by rw [fromUtf8Lossy_utf8, hsplit], rfl, hh⟩

/-- The method and the target of any head that is read are words. -/
theorem readRequestHead_isWord {s : Str} {head : RequestHead} (hs : '\n' ∈ s) (hc : c.input = utf8 s ++ rest)
    (h : readRequestHead c = (.ok head, d)) :
    isWord head.method.asStr = true ∧ isWord head.target = true := by
  obtain ⟨line, more, rfl, hline⟩ := eq_append_cons_of_mem hs
  have hin : c.input = utf8 (line ++ "\n".toList) ++ (utf8 more ++ rest) := by
    rw [hc, ← append_assoc, ← utf8_append, append_assoc]
    rfl
  obtain ⟨l, c1, method, target, words, hread, -, -, hw, hhead, -⟩ := readRequestHead_eq_ok.mp h
  rw [Conn.readUntilNewline_line hin (Conn.isLine_utf8 hline)] at hread
  cases hread
  rw [fromUtf8Lossy_utf8] at hw
  have hwords : ∀ w ∈ split ' ' (trimEnd (line ++ "\n".toList)), isWord w = true := by
    intro w hw
    refine isWord_iff.mpr ⟨not_mem_of_mem_split hw, fun hn => hline ?_⟩
    have hmem := mem_of_mem_split hw hn
    rw [trimEnd_append] at hmem
    exact (List.rdropWhile_prefix _ _).subset hmem
  rw [hw] at hwords
  rw [hhead, asStr_parse]
  exact ⟨hwords _ (by simp), hwords _ (by simp)⟩

/-! ## The whole head -/

variable (req : Request)

theorem requestHead_eq : requestHead req = requestLine req ++ ((requestFields req).flatMap headerLine ++ "\r\n".toList) := by
  unfold requestHead requestFields requestLine
  simp only [flatMap_append, apply_ite (flatMap headerLine), flatMap_nil, flatMap_singleton, append_assoc]

/-- All fields but the host are one line. -/
theorem oneLine_requestFields : ∃ fields, (∀ e ∈ fields, OneLine e) ∧ requestFields req =
        (if req.headers.contains "host".toList then [] else [("Host".toList, req.uri.authority)]) ++ fields ∧
      ((∀ e ∈ fields, isFieldName e.1 = true) ↔ ∀ e ∈ req.headers.entries, isFieldName e.1 = true) := by
  have hlength : isFieldName "Content-Length".toList = true := by decide
  refine ⟨_, fun e he => ?_, append_assoc _ _ _, ?_⟩
  · rcases mem_append.mp he with he | he
    · exact oneLine_of (req.headers.oneLine e he).1 (req.headers.oneLine e he).2
    · split at he
      · rw [mem_singleton.mp he]
        exact oneLine_contentLength _
      · cases he
  · rw [forall_mem_append, and_iff_left_iff_imp]
    intro _ e he
    split at he
    · rw [mem_singleton.mp he]
      exact hlength
    · cases he

theorem wireLines_append (fields fields' : List (Str × Str)) :
    wireLines (fields ++ fields') = wireLines fields ++ wireLines fields' := flatMap_append

/-- The lines of a request are its fields exactly if the host reads back and every name is one. -/
theorem requestLines_iff :
    ((wireLines (requestFields req)).filterMap lineField = (requestFields req).map (fun e => (e.1, trim e.2)) ∧
      ∀ l ∈ wireLines (requestFields req), trimEndCrlf l ≠ []) ↔
    (req.headers.contains "host".toList || hostReadsBack req.uri.authority) = true ∧
      ∀ e ∈ req.headers.entries, isFieldName e.1 = true := by
  obtain ⟨fields, hone, hfields, hnames⟩ := oneLine_requestFields req
  obtain ⟨hread, hblank⟩ := filterMap_oneLine hone
  have hmap : fields.map wireField = fields.map (fun e => (e.1, trim e.2)) ↔ ∀ e ∈ fields, isFieldName e.1 = true := by
    rw [map_inj_left]
    exact forall₂_congr (fun _ _ => wireField_eq_iff)
  rw [hfields, wireLines_append, filterMap_append, map_append, hread, ← hnames, ← hmap, forall_mem_append, and_iff_left hblank]
  by_cases hhost : req.headers.contains "host".toList = true
  · rw [hhost, Bool.true_or, and_iff_right rfl]
    exact and_iff_left (fun _ hl => nomatch hl)
  · rw [if_neg hhost, Bool.eq_false_iff.mpr hhost, Bool.false_or, hostReadsBack_iff]
    constructor
    · rintro ⟨h, hne⟩
      obtain ⟨h1, h2⟩ := append_inj' h (by rw [length_map, length_map])
      exact ⟨⟨h1, hne⟩, h2⟩
    · rintro ⟨⟨h1, hne⟩, h2⟩
      exact ⟨by rw [h1, h2]; rfl, hne⟩

theorem linesFit_iff : linesFit lines = true ↔ lines.length ≤ MAX_HEADERS ∧
      (∀ l ∈ lines, (utf8 (l ++ "\n".toList)).length ≤ MAX_LINE_BYTES) ∧
      0 + (utf8 (lines.flatMap (fun l => l ++ "\n".toList))).length + 2 ≤ MAX_HEADER_TOTAL_BYTES := by
  simp only [linesFit, Bool.and_eq_true, decide_eq_true_eq, all_eq_true, and_assoc, Nat.zero_add]

/-- The headers of a request are read from its lines exactly if no line is blank and all of them fit. -/
theorem readHeaders_request {req : Request} {h : HeaderMap} {R : Bytes}
    (hc : c.input = utf8 ((requestFields req).flatMap headerLine ++ "\r\n".toList) ++ R) :
    readHeaders c = (.ok h, d) ∧ d.input = R ↔
      ((∀ l ∈ wireLines (requestFields req), trimEndCrlf l ≠ []) ∧ linesFit (wireLines (requestFields req)) = true) ∧
        h = linesHeaders HeaderMap.new (wireLines (requestFields req)) ∧ d = { c with input := R } := by
  rw [linesFit_iff]
  refine readHeadersLoop_lines not_mem_wireLines ?_
  rw [hc, flatMap_wireLines, utf8_append, append_assoc]

/-- A request reads back exactly if its method and target are words, its host is one line, its names are names, and everything is
within the limits of the reader. -/
theorem readsBack_iff : req.ReadsBack ↔ req.isReadBack = true := by
  have hwhole : ∀ {c : Conn} {R : Bytes}, c.input = utf8 (requestHead req) ++ R →
      c.input = utf8 (requestLine req) ++ (utf8 ((requestFields req).flatMap headerLine ++ "\r\n".toList) ++ R) := by
    intro c R hc
    rw [hc, requestHead_eq, utf8_append, append_assoc]
  have hentries := linesHeaders_entries HeaderMap.new (wireLines (requestFields req))
  have hlines := requestLines_iff req
  simp only [Request.isReadBack, Bool.and_eq_true, beq_iff_eq, decide_eq_true_eq, all_eq_true]
  constructor
  · intro h
    have hc : (utf8 (requestHead req)) = utf8 (requestHead req) ++ [] := (append_nil _).symm
    obtain ⟨head, d, hread, hd, hmethod, htarget, hheaders⟩ := h ⟨_, .eof, [], false, [], none, none⟩ [] hc
    have hnewline : '\n' ∈ requestHead req := by
      rw [requestHead_eq]
      simp
    obtain ⟨hm, ht⟩ := readRequestHead_isWord hnewline hc hread
    rw [hmethod] at hm
    rw [htarget] at ht
    obtain ⟨hfit, headers, hh, rfl⟩ := (readRequestHead_words hm ht (hwhole hc)).mp hread
    obtain ⟨⟨hblank, hlimits⟩, rfl, -⟩ := (readHeaders_request rfl).mp ⟨hh, hd⟩
    rw [hentries] at hheaders
    obtain ⟨hhost, hnames⟩ := hlines.mp ⟨hheaders, hblank⟩
    exact ⟨⟨⟨⟨⟨⟨hm, hmethod⟩, ht⟩, hfit⟩, hhost⟩, hnames⟩, hlimits⟩
  · rintro ⟨⟨⟨⟨⟨⟨hm, hparse⟩, ht⟩, hfit⟩, hhost⟩, hnames⟩, hlimits⟩ conn R hc
    obtain ⟨hfields, hblank⟩ := hlines.mpr ⟨hhost, hnames⟩
    obtain ⟨hh, hd⟩ := (readHeaders_request (c := { conn with input := _ }) rfl).mpr ⟨⟨hblank, hlimits⟩, rfl, rfl⟩
    refine ⟨_, _, (readRequestHead_words hm ht (hwhole hc)).mpr ⟨hfit, _, hh, rfl⟩, hd, hparse, rfl, ?_⟩
    rw [hentries, hfields]
    rfl

end Ferroly.Http
