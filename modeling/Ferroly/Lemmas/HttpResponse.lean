import Ferroly.Lemmas.HttpBody

/-!
# Responses read back

The head that the server writes as the client reads it, and the bodies it writes in chunked coding.
-/

namespace Ferroly.Http

open List Conn

variable {resp : HttpResponse} {fields : List (Str × Str)} {e : Str × Str}

/-! ## Fields -/

theorem isOneLine_iff {s : Str} : isOneLine s = true ↔ ∀ c ∈ s, isCrlf c = false := by
  rw [isOneLine, Bool.not_eq_true', any_eq_false]
  exact forall₂_congr (fun c _ => iff_of_eq (Bool.not_eq_true _))

theorem stripCrlf_of_oneLine {s : Str} (h : ∀ c ∈ s, isCrlf c = false) : stripCrlf s = s := by
  rw [stripCrlf_eq, filter_eq_self]
  exact fun c hc => by rw [h c hc]; rfl

/-- The text of a field: its line without the end. -/
def fieldText (e : Str × Str) : Str := e.1 ++ ": ".toList ++ e.2

/-- A field that is one line. -/
def OneLine (e : Str × Str) : Prop := ∀ c ∈ fieldText e, isCrlf c = false

theorem oneLine_of (h1 : isOneLine e.1 = true) (h2 : isOneLine e.2 = true) : OneLine e := by
  intro c hc
  rcases mem_append.mp hc with hc | hc
  · rcases mem_append.mp hc with hc | hc
    · exact isOneLine_iff.mp h1 c hc
    · have hsep : ∀ c ∈ ": ".toList, isCrlf c = false := forall_iff_forall_mem.mp (by decide)
      exact hsep c hc
  · exact isOneLine_iff.mp h2 c hc

theorem isLine_headerLine (h : OneLine e) : Conn.IsLine (utf8 (headerLine e)) := by
  exact isLine_crlf (fun hmem => absurd (h _ hmem) (by decide))

theorem trimEndCrlf_headerLine (h : OneLine e) : trimEndCrlf (headerLine e) = fieldText e := by
  exact trimEndCrlf_append h

theorem splitOnce_fieldText : ∃ k v, splitOnce ':' (fieldText e) = some (k, v) ∧ wireField e = (trim k, trim v) := by
  have hmem : ':' ∈ fieldText e := mem_append_left _ (mem_append_right _ (by decide))
  obtain ⟨k, v, hkv⟩ := splitOnce_of_mem hmem
  refine ⟨k, v, hkv, ?_⟩
  rw [wireField]
  simp only [fieldText] at hkv
  rw [hkv]

theorem stripCrlf_wireField (h : OneLine e) :
    stripCrlf (wireField e).1 = (wireField e).1 ∧ stripCrlf (wireField e).2 = (wireField e).2 := by
  obtain ⟨k, v, hkv, hw⟩ := splitOnce_fieldText
  have htext := splitOnce_eq_some hkv
  rw [hw]
  constructor <;> refine stripCrlf_of_oneLine (fun c hc => h c ?_) <;> rw [htext]
  · exact mem_append_left _ (mem_of_mem_trim hc)
  · exact mem_append_right _ (mem_cons_of_mem _ (mem_of_mem_trim hc))

theorem readBack_entries (hfields : ∀ e ∈ fields, OneLine e) (h : HeaderMap) :
    (readBack h fields).entries = h.entries ++ fields.map wireField := by
  induction fields generalizing h with
  | nil => simp [readBack]
  | cons e fields ih =>
    have happend : (h.append (wireField e).1 (wireField e).2).entries = h.entries ++ [wireField e] := by
      obtain ⟨hk, hv⟩ := stripCrlf_wireField (hfields e mem_cons_self)
      simp only [HeaderMap.append, hk, hv]
    rw [readBack, foldl_cons, ← readBack, ih (forall_mem_cons.mp hfields).2, happend, append_assoc, map_cons, singleton_append]

/-- The header block of some fields is read back if it fits. -/
theorem readHeadersLoop_fields {room total : Nat} {h h' : HeaderMap} {c d : Conn} {rest : Bytes}
    (hfields : ∀ e ∈ fields, OneLine e) (hin : c.input = utf8 (fields.flatMap headerLine) ++ (utf8 "\r\n".toList ++ rest)) :
    readHeadersLoop room total h c = (.ok h', d) ↔
      (fields.length ≤ room ∧ (∀ e ∈ fields, (utf8 (headerLine e)).length ≤ MAX_LINE_BYTES) ∧
        total + (utf8 (fields.flatMap headerLine)).length + 2 ≤ MAX_HEADER_TOTAL_BYTES) ∧
      h' = readBack h fields ∧ d = { c with input := rest } := by
  induction fields generalizing room total h c with
  | nil =>
    have hblank : Conn.IsLine (utf8 "\r\n".toList) := rfl
    rw [flatMap_nil, utf8_nil, nil_append] at hin
    rw [readHeadersLoop_line hin hblank]
    have htrim : trimEndCrlf (fromUtf8Lossy (utf8 "\r\n".toList)) = [] := by decide
    have hlen : (utf8 "\r\n".toList).length = 2 := by decide
    simp only [htrim, hlen, readBack, MAX_LINE_BYTES]
    simp
  | cons e fields ih =>
    have he := hfields e mem_cons_self
    rw [flatMap_cons, utf8_append, append_assoc] at hin
    rw [readHeadersLoop_line hin (isLine_headerLine he), fromUtf8Lossy_utf8, trimEndCrlf_headerLine he]
    have hne : fieldText e ≠ [] := by simp [fieldText]
    have hadd : addLine h (fieldText e) = h.append (wireField e).1 (wireField e).2 := by
      obtain ⟨k, v, hkv, hw⟩ := splitOnce_fieldText
      rw [addLine, hkv, hw]
    have hrest := (forall_mem_cons.mp hfields).2
    rw [length_cons, flatMap_cons, utf8_append, length_append, forall_mem_cons, hadd]
    constructor
    · rintro ⟨hline, -, ⟨hnil, -⟩ | ⟨-, room, rfl, hloop⟩⟩
      · exact absurd hnil hne
      · obtain ⟨⟨hcount, hlines, htotal⟩, rfl, rfl⟩ := (ih hrest rfl).mp hloop
        exact ⟨⟨Nat.succ_le_succ hcount, ⟨hline, hlines⟩, by omega⟩, rfl, rfl⟩
    · rintro ⟨⟨hcount, ⟨hline, hlines⟩, htotal⟩, rfl, rfl⟩
      refine ⟨hline, by omega, .inr ⟨hne, room - 1, by omega, ?_⟩⟩
      exact (ih hrest rfl).mpr ⟨⟨by omega, hlines, by omega⟩, rfl, rfl⟩

/-! ## The head of a response -/

/-- The status line. -/
def statusLine (status : StatusCode) : Str :=
  "HTTP/1.1 ".toList ++ Nat.toDigits 10 status.code.toNat ++ " ".toList ++ status.reason ++ "\r\n".toList

variable {keep : Bool} {method : Method}

theorem responseHead_eq : responseHead resp method keep =
      statusLine resp.status ++ ((responseFields resp method keep).flatMap headerLine ++ "\r\n".toList) := by
  unfold responseHead responseFields statusLine
  simp only [flatMap_append, apply_ite (List.flatMap headerLine), flatMap_nil, flatMap_singleton, append_assoc]

theorem reason_spec (status : StatusCode) : (∀ c ∈ status.reason, isCrlf c = false) ∧ (utf8 status.reason).length ≤ 21 := by
  unfold StatusCode.reason
  rw [← forall_iff_forall_mem]
  split <;> decide

theorem isLine_statusLine (status : StatusCode) : Conn.IsLine (utf8 (statusLine status)) := by
  refine isLine_crlf (fun hmem => ?_)
  simp only [mem_append, or_assoc] at hmem
  rcases hmem with h | h | h | h
  · revert h
    decide
  · exact absurd (isDigit_toDigits _ _ h) (by decide)
  · revert h
    decide
  · exact absurd ((reason_spec status).1 _ h) (by decide)

theorem length_statusLine (status : StatusCode) : (utf8 (statusLine status)).length ≤ MAX_LINE_BYTES := by
  have hdigits : (utf8 (Nat.toDigits 10 status.code.toNat)).length ≤ 5 := by
    rw [utf8_ascii (fun c hc => by have := isDigit_toNat (isDigit_toDigits _ c hc); omega), length_map,
      Nat.length_toDigits_le_iff (by decide) (by decide)]
    exact Nat.lt_trans status.code.toNat_lt (by decide)
  have hreason := (reason_spec status).2
  have h1 : (utf8 "HTTP/1.1 ".toList).length = 9 := by decide
  have h2 : (utf8 " ".toList).length = 1 := by decide
  have h3 : (utf8 "\r\n".toList).length = 2 := by decide
  unfold statusLine MAX_LINE_BYTES
  simp only [utf8_append, length_append]
  omega

/-- The code is the second word of the status line. -/
theorem statusLine_code (status : StatusCode) :
    ((split ' ' (trimEnd (statusLine status)))[1]?).bind (parseUnsigned 16 10) = some status.code.toNat := by
  have hparse : parseUnsigned 16 10 (Nat.toDigits 10 status.code.toNat) = some status.code.toNat := by
    rw [parseUnsigned_toDigits, if_pos status.code.toNat_lt]
  have hspace : ' ' ∉ Nat.toDigits 10 status.code.toNat := fun h => absurd (isDigit_toDigits _ _ h) (by decide)
  have hversion : ' ' ∉ "HTTP/1.1".toList := by decide
  have hsplit : statusLine status = ("HTTP/1.1".toList ++ ' ' :: Nat.toDigits 10 status.code.toNat) ++
      (' ' :: (status.reason ++ "\r\n".toList)) := by
    unfold statusLine
    simp
  have hwords : ∃ ws, split ' ' (trimEnd (statusLine status)) = "HTTP/1.1".toList :: Nat.toDigits 10 status.code.toNat :: ws := by
    rw [hsplit, trimEnd_append]
    split
    · -- no reason phrase
      refine ⟨[], ?_⟩
      have hend : trimEnd ("HTTP/1.1".toList ++ ' ' :: Nat.toDigits 10 status.code.toNat) =
          "HTTP/1.1".toList ++ ' ' :: Nat.toDigits 10 status.code.toNat := by
        obtain ⟨ds, d, hds⟩ := eq_nil_or_concat' (Nat.toDigits 10 status.code.toNat) |>.resolve_left Nat.toDigits_ne_nil
        have hd := isDigit_toNat (isDigit_toDigits status.code.toNat d (by rw [hds]; simp))
        rw [hds, ← cons_append, ← append_assoc]
        exact trimEnd_append_of_not (isWhitespace_of_range (.inl hd))
      rw [hend, split_append hversion, split_eq_singleton hspace]
    · next hne =>
      obtain ⟨t, ht⟩ : ∃ t, trimEnd (' ' :: (status.reason ++ "\r\n".toList)) = ' ' :: t := by
        have hpre : trimEnd (' ' :: (status.reason ++ "\r\n".toList)) <+: ' ' :: (status.reason ++ "\r\n".toList) :=
          List.rdropWhile_prefix _ _
        rcases hb : trimEnd (' ' :: (status.reason ++ "\r\n".toList)) with _ | ⟨a, t⟩
        · exact absurd hb hne
        · rw [hb, cons_prefix_cons] at hpre
          exact ⟨t, by rw [hpre.1]⟩
      rw [ht, append_assoc, cons_append, split_append hversion, split_append hspace]
      exact ⟨_, rfl⟩
  obtain ⟨ws, hws⟩ := hwords
  rw [hws]
  exact hparse

/-- The head of a response is read back if its fields fit. -/
theorem readResponseHead_fields {status status' : StatusCode} {h : HeaderMap} {c d : Conn} {rest : Bytes}
    (hfields : ∀ e ∈ fields, OneLine e)
    (hin : c.input = utf8 (statusLine status ++ (fields.flatMap headerLine ++ "\r\n".toList)) ++ rest) :
    readResponseHead c = (.ok (status', h), d) ↔
      fieldsFit fields = true ∧ status' = status ∧ h = readBack HeaderMap.new fields ∧ d = { c with input := rest } := by
  rw [utf8_append, utf8_append, append_assoc, append_assoc] at hin
  have hfit : fieldsFit fields = true ↔ fields.length ≤ MAX_HEADERS ∧ (∀ e ∈ fields, (utf8 (headerLine e)).length ≤ MAX_LINE_BYTES) ∧
      0 + (utf8 (fields.flatMap headerLine)).length + 2 ≤ MAX_HEADER_TOTAL_BYTES := by
    simp only [fieldsFit, Bool.and_eq_true, decide_eq_true_eq, all_eq_true, Nat.zero_add, and_assoc]
  have hcode : UInt16.ofNat status.code.toNat = status.code := UInt16.ofNat_toNat
  rw [hfit, readResponseHead_eq_ok, readUntilNewline_line hin (isLine_statusLine status)]
  constructor
  · rintro ⟨l, c1, code, ⟨⟩, -, -, hstatus, rfl, hheaders⟩
    rw [fromUtf8Lossy_utf8, statusLine_code] at hstatus
    obtain rfl := Option.some.inj hstatus
    obtain ⟨hfits, rfl, rfl⟩ := (readHeadersLoop_fields hfields rfl).mp hheaders
    exact ⟨hfits, by rw [hcode], rfl, rfl⟩
  · rintro ⟨hfits, rfl, rfl, rfl⟩
    exact ⟨_, _, _, rfl, length_statusLine status', ne_nil_of_isLine (isLine_statusLine status'),
      by rw [fromUtf8Lossy_utf8, statusLine_code], by rw [hcode], (readHeadersLoop_fields hfields rfl).mpr ⟨hfits, rfl, rfl⟩⟩

/-! ## Chunked coding -/

/-- The size line of a chunk names its size. -/
theorem namesSize_toUpper {n : Nat} (hn : n < 2 ^ 64) : NamesSize ((Nat.toDigits 16 n).map Char.toUpper ++ "\r\n".toList) n := by
  refine ⟨[], _, "\r\n".toList, [], (append_nil _).symm, nofun, all_eq_true.mp rfl, .inl rfl, ?_⟩
  rw [parseUnsigned_of_parseDigits 64 (parseDigits_toUpper n), if_pos hn]

/-- A stream in chunked coding is cut into its chunks, whatever comes after it. -/
theorem cuts_chunkBytes {chunks : List Bytes} {most : Nat} (hmost : most < 2 ^ 64) (hmax : ∀ chunk ∈ chunks, chunk.length ≤ most)
    (ending : Ending) (R : Bytes) : ∃ cut, cut.data = chunks.flatten ∧
      CutsChunks ending most cut (chunks.flatMap chunkBytes ++ (utf8 "0\r\n\r\n".toList ++ R)) R := by
  induction chunks with
  | nil =>
    have htrailers : CutsTrailers ending [] _ (utf8 ("\r".toList ++ "\n".toList) ++ R) R :=
      .blank (.inl (isLine_utf8 (by decide))) fromUtf8_utf8 (by decide)
    have hlast : CutsChunks ending most _ (utf8 ("0\r".toList ++ "\n".toList) ++ (utf8 ("\r".toList ++ "\n".toList) ++ R)) R :=
      .last (.inl (isLine_utf8 (by decide))) fromUtf8_utf8 (chunkSize_iff.mp (by decide)) htrailers
    exact ⟨_, rfl, hlast⟩
  | cons chunk chunks ih =>
    obtain ⟨cut, hdata, hcuts⟩ := ih (forall_mem_cons.mp hmax).2
    rw [flatMap_cons]
    rcases Decidable.em (chunk = []) with rfl | hne
    · exact ⟨cut, hdata, hcuts⟩
    have hle := hmax chunk mem_cons_self
    have hl := isLine_crlf (not_mem_of_parseDigits (parseDigits_toUpper chunk.length) rfl)
    rw [chunkBytes, if_neg (by simpa using hne)]
    simp only [append_assoc]
    refine ⟨_, ?_, .chunk (.inl hl) fromUtf8_utf8 (namesSize_toUpper (by omega)) hne hle rfl hcuts⟩
    rw [ChunkCut.data_chunk, flatten_cons, hdata]

/-! ## The fields a response is framed by -/

theorem trim_cons_space (v : Str) : trim (' ' :: v) = trim v := by
  rw [trim, trim, trimStart, trimStart, dropWhile_cons_of_pos rfl]

theorem wireField_of_not_mem {k v : Str} (hk : ':' ∉ k) : wireField (k, v) = (trim k, trim v) := by
  have htext : k ++ ": ".toList ++ v = k ++ ':' :: (' ' :: v) := by simp
  rw [wireField]
  simp only [htext, splitOnce_append hk, trim_cons_space]

/-- The field that frames a response, which the server adds. -/
def framingFields (resp : HttpResponse) (method : Method) : List (Str × Str) :=
  if resp.stream.isSome && !bodyless method resp.status then [("Transfer-Encoding".toList, "chunked".toList)]
  else if noContent resp.status then []
  else [("Content-Length".toList, Nat.toDigits 10 resp.body.length)]

theorem responseFields_eq (h : resp.Unframed) :
    responseFields resp method keep = resp.headers.entries ++ framingFields resp method ++
      [("Connection".toList, if keep then "keep-alive".toList else "close".toList)] := by
  have h1 : resp.headers.contains "content-length".toList = false :=
    any_eq_false.mpr (fun e he => (Bool.not_eq_true _).mpr (h e he).1)
  have h2 : resp.headers.contains "transfer-encoding".toList = false :=
    any_eq_false.mpr (fun e he => (Bool.not_eq_true _).mpr (h e he).2.1)
  have h3 : resp.headers.contains "connection".toList = false :=
    any_eq_false.mpr (fun e he => (Bool.not_eq_true _).mpr (h e he).2.2)
  unfold responseFields framingFields
  rw [h1, h2, h3]
  rcases noContent resp.status <;> rfl

theorem oneLine_contentLength (n : Nat) : OneLine ("Content-Length".toList, Nat.toDigits 10 n) := by
  have hname : isOneLine "Content-Length".toList = true := by decide
  refine oneLine_of hname (isOneLine_iff.mpr (fun c hc => ?_))
  have hd := isDigit_toNat (isDigit_toDigits _ c hc)
  rw [isCrlf, Bool.or_eq_false_iff, beq_eq_false_iff_ne, beq_eq_false_iff_ne]
  exact ⟨fun h => absurd hd (by rw [h]; decide), fun h => absurd hd (by rw [h]; decide)⟩

theorem oneLine_responseFields (resp : HttpResponse) (method : Method) (keep : Bool) :
    ∀ e ∈ responseFields resp method keep, OneLine e := by
  intro e he
  rcases mem_append.mp he with he | he
  · rcases mem_append.mp he with he | he
    · exact oneLine_of (resp.headers.oneLine e he).1 (resp.headers.oneLine e he).2
    · split at he
      · split at he
        · cases he
        · rw [mem_singleton.mp he]
          exact oneLine_of (by decide) (by decide)
      · split at he
        · rw [mem_singleton.mp he]
          exact oneLine_contentLength _
        · cases he
  · split at he
    · cases he
    · rw [mem_singleton.mp he]
      rcases keep <;> exact oneLine_of (by decide) (by decide)

/-- The values read back for a name, other than `Connection`: those of the handler's headers, then the server's. -/
theorem readBack_values (h : resp.Unframed) {name : Str} (hname : eqIgnoreAsciiCase "Connection".toList name = false) :
    (readBack HeaderMap.new (responseFields resp method keep)).values name =
      valuesOf name (resp.headers.entries.map wireField) ++ valuesOf name ((framingFields resp method).map wireField) := by
  have hconn : ∀ v, valuesOf name [wireField ("Connection".toList, v)] = [] := by
    intro v
    rw [wireField_of_not_mem (by decide), valuesOf_cons, if_neg]
    · rfl
    · have htrim : trim "Connection".toList = "Connection".toList := by decide
      rw [htrim, hname]
      exact Bool.false_ne_true
  rw [HeaderMap.values, readBack_entries (oneLine_responseFields resp method keep), responseFields_eq h]
  simp only [HeaderMap.new, nil_append, map_append, valuesOf_append, map_cons, map_nil, hconn, append_nil]

/-! ## The framing read back -/

/-- A response with a head, `written` after the head and anything after that, hands over `entity` and leaves what comes after. -/
def HandsOver (status : StatusCode) (h : HeaderMap) (written entity : Bytes) : Prop :=
  ∀ key conn R, conn.input = written ++ R →
    ∃ conn', (openResponse key status h conn).finish = (.ok entity, some conn') ∧ conn'.input = R

section Framings

variable {status : StatusCode} {h : HeaderMap} {written entity : Bytes}

theorem handsOver_done (hf : responseFraming status h = .done) : HandsOver status h [] [] := by
  intro key conn R hin
  refine ⟨conn, ?_, hin⟩
  simp only [openResponse, hf]
  exact Prod.ext rfl (reclaimConn_conn rfl)

theorem handsOver_length {n : Nat} (hf : responseFraming status h = .length n) :
    HandsOver status h written entity ↔ n = written.length ∧ entity = written := by
  constructor
  · intro hover
    obtain ⟨conn', hbytes, hR⟩ := hover ([], 0, false) ⟨written, .eof, [], false, [], none, none⟩ [] (append_nil _).symm
    let b := (openResponse ([], 0, false) status h ⟨written, .eof, [], false, [], none, none⟩).body
    by_cases hlt : written.length < n
    · have hlost := (finish_short (b := b) rfl hf hlt (Nat.lt_succ_self _) []).2 rfl
      cases (congrArg Prod.snd hbytes).symm.trans hlost
    · have hlen : (written.take n).length = n := length_take_of_le (Nat.le_of_not_lt hlt)
      obtain ⟨c', hc', hrest⟩ := bytes_length (b := b) rfl hf (take_append_drop n written).symm hlen
        (Nat.lt_succ_of_le (Nat.le_of_not_lt hlt)) []
      obtain ⟨hent, hconn⟩ := Prod.mk.inj (hbytes.symm.trans hc')
      cases hconn
      have hle := drop_eq_nil_iff.mp (hrest.symm.trans hR)
      rw [nil_append, take_of_length_le hle] at hent
      exact ⟨by omega, Except.ok.inj hent⟩
  · rintro ⟨rfl, rfl⟩ key conn R hin
    exact bytes_length rfl hf hin rfl (by
      simp only [openResponse, Body.fuel, Option.map_some, Option.getD_some, hin, length_append]
      omega) []

theorem handsOver_chunked {chunks : List Bytes} (hf : responseFraming status h = .chunked)
    (hmax : ∀ chunk ∈ chunks, chunk.length ≤ MAX_CHUNK_SIZE) :
    HandsOver status h (chunks.flatMap chunkBytes ++ utf8 "0\r\n\r\n".toList) chunks.flatten := by
  intro key conn R hin
  rw [append_assoc] at hin
  obtain ⟨cut, hdata, hcuts⟩ := cuts_chunkBytes (by decide) hmax conn.ending R
  rw [← hdata]
  exact finish_of_cuts hcuts rfl hf hin rfl (Nat.lt_succ_of_le (by rw [← hin]; exact Nat.le_refl _)) []

/-- Read as chunked, what is written is more than what is handed over. -/
theorem not_handsOver_chunked (hf : responseFraming status h = .chunked) (hlen : written.length ≤ entity.length) :
    ¬HandsOver status h written entity := by
  intro hover
  obtain ⟨conn', hbytes, hR⟩ := hover ([], 0, false) ⟨written, .eof, [], false, [], none, none⟩ [] (append_nil _).symm
  obtain ⟨cut, d, hent, hd, hcuts⟩ := finish_cuts rfl hf hbytes
  obtain ⟨used, hused, hlt, -⟩ := hcuts.coding
  rw [← Option.some.inj hd, hR, append_nil] at hused
  obtain rfl : written = used := hused
  rw [hent, nil_append] at hlen
  omega

theorem not_handsOver_eof (hf : responseFraming status h = .eof) : ¬HandsOver status h written entity := by
  intro hover
  obtain ⟨conn', hbytes, -⟩ := hover ([], 0, false) ⟨written, .eof, [], false, [], none, none⟩ [] (append_nil _).symm
  exact bytes_eof rfl hf hbytes

end Framings

/-- A response is read back if its fields fit and what is read of them hands its body over. -/
theorem receive_handsOver (entity : Bytes) : (∀ key conn R, conn.input = responseBytes resp method keep ++ R →
      ∃ r conn0 conn', receive key conn = (.ok r, conn0) ∧ r.finish = (.ok entity, some conn') ∧ conn'.input = R) ↔
    fieldsFit (responseFields resp method keep) = true ∧
      HandsOver resp.status (readBack HeaderMap.new (responseFields resp method keep)) (responseBody resp method) entity := by
  have hhead : ∀ (conn : Conn) (R : Bytes), conn.input = responseBytes resp method keep ++ R →
      ∀ st hs d, readResponseHead conn = (.ok (st, hs), d) ↔ fieldsFit (responseFields resp method keep) = true ∧
        st = resp.status ∧ hs = readBack HeaderMap.new (responseFields resp method keep) ∧
        d = { conn with input := responseBody resp method ++ R } := by
    intro conn R hin st hs d
    rw [responseBytes, responseHead_eq, append_assoc] at hin
    exact readResponseHead_fields (oneLine_responseFields resp method keep) hin
  constructor
  · intro hread
    refine ⟨?_, fun key conn R hin => ?_⟩
    · obtain ⟨r, d, -, hreceive, -⟩ := hread ([], 0, false)
        ⟨responseBytes resp method keep, .eof, [], false, [], none, none⟩ [] (append_nil _).symm
      obtain ⟨st, hs, hok, -⟩ := receive_eq_ok.mp hreceive
      exact ((hhead _ [] (append_nil _).symm st hs d).mp hok).1
    · obtain ⟨r, d, conn', hreceive, hbytes, hR⟩ := hread key { conn with input := responseBytes resp method keep ++ R } R rfl
      obtain ⟨st, hs, hok, rfl⟩ := receive_eq_ok.mp hreceive
      obtain ⟨-, rfl, rfl, rfl⟩ := (hhead _ R rfl st hs d).mp hok
      refine ⟨conn', ?_, hR⟩
      rw [← hin] at hbytes
      exact hbytes
  · rintro ⟨hfits, hover⟩ key conn R hin
    have hok := (hhead conn R hin _ _ _).mpr ⟨hfits, rfl, rfl, rfl⟩
    obtain ⟨conn', hbytes, hR⟩ := hover key { conn with input := responseBody resp method ++ R } R rfl
    exact ⟨_, _, conn', receive_eq_ok.mpr ⟨_, _, hok, rfl⟩, hbytes, hR⟩

end Ferroly.Http
