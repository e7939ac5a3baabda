import Ferroly.Lemmas.HttpRead

/-!
# Reading response bodies

What each framing takes from the connection, in whatever portions the bytes arrive.
-/

namespace Ferroly

open List Ferroly.Task Conn Ferroly.Task

variable {s : Str}

namespace Conn

variable {c : Conn}

/-- A read returns some of the bytes there are. -/
theorem read_of_ne_nil {m : Nat} (hm : 0 < m) (hne : c.input ≠ []) : ∃ k, 0 < k ∧ k ≤ m ∧ k ≤ c.input.length ∧
      read m c = (.ok (c.input.take k), { c with input := c.input.drop k, paces := c.paces.tail }) := by
  rcases c with ⟨_ | ⟨a, rest⟩, ending, paces, sawEof, output, room, reach⟩
  · exact absurd rfl hne
  · refine ⟨max 1 (min (paces.headD m) (min m (rest.length + 1))), by omega, by omega, ?_, rfl⟩
    simp only [length_cons]
    omega

theorem read_nil {m : Nat} (hnil : c.input = []) : read m c = atEnd (.ok []) c := by
  unfold read
  rw [hnil]

theorem isLine_append {b : Bytes} (h : byte '\n' ∉ b) : IsLine (b ++ [byte '\n']) := by
  induction b with
  | nil => rfl
  | cons a b ih =>
    rw [mem_cons, not_or] at h
    have := ih h.2
    unfold IsLine at this ⊢
    simp only [cons_append, splitLine, if_neg (Ne.symm h.1), this]

/-- A text of one line, as bytes. -/
theorem isLine_utf8 (h : '\n' ∉ s) : IsLine (utf8 (s ++ "\n".toList)) := by
  rw [utf8_append]
  refine isLine_append (fun hmem => ?_)
  obtain ⟨c, hc, hb⟩ := mem_flatMap.mp hmem
  exact ne_byte_of_mem (q := '\n') hb (by decide) (fun he => h (he ▸ hc)) rfl

theorem isLine_crlf (h : '\n' ∉ s) : IsLine (utf8 (s ++ "\r\n".toList)) := by
  have hline := isLine_utf8 (s := s ++ "\r".toList) (by simpa using h)
  rwa [append_assoc] at hline

/-- What is taken for a line is read. -/
theorem readLine_takes {line rest : Bytes} (hin : c.input = line ++ rest) (hl : Http.TakesLine c.ending line rest)
    (hs : fromUtf8 line = some s) : ∃ d, readLine c = (.ok (s, line.length), d) ∧ d.input = rest ∧ d.ending = c.ending := by
  rcases hl with hl | ⟨hend, hl, rfl⟩
  · exact ⟨_, readLine_eq_ok.mpr ⟨line, readUntilNewline_line hin hl, hs, rfl⟩, rfl, rfl⟩
  · rw [append_nil] at hin
    exact ⟨_, readLine_eq_ok.mpr ⟨line, readUntilNewline_eq_ok.mpr (.inr ⟨hl, hin, hend, rfl⟩), hs, rfl⟩, rfl, rfl⟩

theorem takes_of_readLine {d : Conn} {n : Nat} (h : readLine c = (.ok (s, n), d)) :
    ∃ line, c.input = line ++ d.input ∧ Http.TakesLine c.ending line d.input ∧ fromUtf8 line = some s ∧ n = line.length ∧
      d.ending = c.ending := by
  obtain ⟨line, hline, hs, rfl⟩ := readLine_eq_ok.mp h
  rcases readUntilNewline_eq_ok.mp hline with ⟨hl, hin, hd⟩ | ⟨hl, hin, hend, rfl⟩
  · exact ⟨line, hin, .inl hl, hs, rfl, by rw [hd]⟩
  · exact ⟨line, by rw [append_nil, hin], .inr ⟨hend, hl, rfl⟩, hs, rfl, rfl⟩

theorem readExact_append {b rest : Bytes} (hc : c.input = b ++ rest) : readExact b.length c = (.ok b, { c with input := rest }) :=
  readExact_eq_ok.mpr ⟨rfl, hc, rfl⟩

end Conn

namespace Http

variable {b : Body} {data input o out rest : Bytes} {c d : Conn} {ending : Ending} {cut : ChunkCut} {fuel most m n : Nat}
  {status : StatusCode}

theorem Body.finish_succ (fuel : Nat) (b : Body) (out : Bytes) : b.finish (fuel + 1) out = match b.nextChunk with
      | (.error e, b', put) => (.error e, b'.unread put)
      | (.ok (some chunk), b', _) => b'.finish fuel (out ++ chunk)
      | (.ok none, b', put) => (.ok out, b'.unread put) := by
  rw [Body.finish, Body.bytes]
  rcases b.nextChunk with ⟨e | _ | chunk, b', put⟩ <;> rfl

/-! ## Framings -/

theorem receive_eq_ok {key : PoolKey} {conn : Conn} {r : Response} :
    receive key conn = (.ok r, d) ↔ ∃ st hs, readResponseHead conn = (.ok (st, hs), d) ∧ r = openResponse key st hs d := by
  unfold receive
  rcases readResponseHead conn with ⟨e | ⟨st, hs⟩, c⟩
  · simp
  · simp only [Prod.mk.injEq, Except.ok.injEq]
    constructor
    · rintro ⟨rfl, rfl⟩
      exact ⟨st, hs, ⟨⟨rfl, rfl⟩, rfl⟩, rfl⟩
    · rintro ⟨_, _, ⟨⟨rfl, rfl⟩, rfl⟩, rfl⟩
      exact ⟨rfl, rfl⟩

theorem StatusCode.isFinal.not_isInterim (h : status.isFinal) : ¬status.isInterim := by
  unfold StatusCode.isFinal at h
  unfold StatusCode.isInterim
  omega

theorem responseFraming_of_noContent (h : HeaderMap) (hno : noContent status = true) : responseFraming status h = .done := by
  rw [noContent, Bool.or_eq_true, beq_iff_eq, beq_iff_eq] at hno
  exact if_pos (hno.imp_right .inl)

theorem responseFraming_of_content (h : HeaderMap) (hinterim : ¬status.isInterim) (hno : noContent status = false) :
    responseFraming status h = if h.isChunked then .chunked
      else match h.contentLength with
        | some n => .length n
        | none => .eof := by
  rw [noContent, Bool.or_eq_false_iff, beq_eq_false_iff_ne, beq_eq_false_iff_ne] at hno
  refine if_neg ?_
  rintro (h204 | h304 | h1xx)
  · exact hno.1 h204
  · exact hno.2 h304
  · exact hinterim h1xx

/-- The connection of a finished body, wherever it went. -/
theorem reclaimConn_conn (h : b.reader = some c) : b.reclaimConn.1.unread b.reclaimConn.2 = some c := by
  unfold Body.reclaimConn Body.unread
  rw [h]
  rcases b.reclaim with _ | key <;> rfl

/-! ## Bodies of a given length -/

/-- The next part of a body of a given length, if there is input. -/
theorem nextChunk_length (hr : b.reader = some c) (hf : b.framing = .length (n + 1)) (hne : c.input ≠ []) :
    ∃ k, 0 < k ∧ k ≤ n + 1 ∧ k ≤ c.input.length ∧ b.nextChunk = (.ok (some (c.input.take k)),
        { b with reader := some { c with input := c.input.drop k, paces := c.paces.tail }, framing := .length (n + 1 - k) },
        none) := by
  obtain ⟨k, hk0, hkm, hkl, hread⟩ := read_of_ne_nil (m := min (n + 1) READ_SIZE) (by unfold READ_SIZE; omega) hne
  refine ⟨k, hk0, by omega, hkl, ?_⟩
  have hlen : (c.input.take k).length = k := length_take_of_le hkl
  obtain ⟨a, t, hat⟩ : ∃ a t, c.input.take k = a :: t := exists_cons_of_length_pos (by omega)
  have hread' := mapErr_eq_ok (f := HttpError.io).mpr hread
  rw [hat] at hread' hlen ⊢
  rw [Body.nextChunk, hr]
  simp only [hf, hread', hlen]

/-- Without input, a body of a given length is cut short, or its read fails. -/
theorem nextChunk_length_nil (hr : b.reader = some c) (hf : b.framing = .length (n + 1)) (hnil : c.input = []) :
    b.nextChunk = (.ok none, { b with reader := none, framing := .done }, none) ∨
      ∃ e, b.nextChunk = (.error e, { b with reader := some c }, none) := by
  have hread := read_nil (m := min (n + 1) READ_SIZE) hnil
  rw [Body.nextChunk, hr]
  simp only [hf, mapErr, hread, atEnd]
  rcases c.ending with _ | _ | _
  · exact .inl rfl
  · exact .inr ⟨_, rfl⟩
  · exact .inr ⟨_, rfl⟩

theorem bytes_length {R : Bytes} (hr : b.reader = some c) (hf : b.framing = .length n) (hin : c.input = data ++ R)
    (hn : data.length = n) (hfuel : n < fuel) (out : Bytes) :
    ∃ c', b.finish fuel out = (.ok (out ++ data), some c') ∧ c'.input = R := by
  induction fuel generalizing n b c data out with
  | zero => omega
  | succ fuel ih =>
    rcases n with _ | n
    · obtain rfl := length_eq_zero_iff.mp hn
      refine ⟨c, ?_, hin⟩
      rw [Body.finish_succ, Body.nextChunk, hr, append_nil]
      simp only [hf]
      exact Prod.ext rfl (reclaimConn_conn (b := ⟨some c, .done, b.reclaim⟩) rfl)
    · have hne : c.input ≠ [] := by
        rw [hin]
        intro hnil
        rw [(append_eq_nil_iff.mp hnil).1] at hn
        cases hn
      obtain ⟨k, hk0, hkm, -, hnext⟩ := nextChunk_length hr hf hne
      have hkd : k ≤ data.length := by omega
      have htake : c.input.take k = data.take k := by rw [hin, take_append_of_le_length hkd]
      have hdrop : c.input.drop k = data.drop k ++ R := by rw [hin, drop_append_of_le_length hkd]
      rw [Body.finish_succ, hnext]
      simp only
      obtain ⟨c', hc', hR⟩ := ih (n := n + 1 - k)
        (b := ⟨some { c with input := c.input.drop k, paces := c.paces.tail }, .length (n + 1 - k), b.reclaim⟩)
        rfl rfl hdrop (by rw [length_drop]; omega) (by omega) (out ++ c.input.take k)
      refine ⟨c', ?_, hR⟩
      rw [hc', append_assoc, htake, take_append_drop]

/-- A body of a given length of which only a part arrives. -/
theorem finish_short (hr : b.reader = some c) (hf : b.framing = .length n) (hlt : c.input.length < n) (hfuel : c.input.length < fuel)
    (out : Bytes) : (b.finish fuel out).1 = (match c.ending with
      | .eof => .ok (out ++ c.input)
      | .failure => .error (.error (.io .other))
      | .stall => .error .diverge) ∧ (c.ending = .eof → (b.finish fuel out).2 = none) := by
  induction fuel generalizing n b c out with
  | zero => omega
  | succ fuel ih =>
    rcases n with _ | n
    · omega
    by_cases hnil : c.input = []
    · have hread := read_nil (m := min (n + 1) READ_SIZE) hnil
      rw [Body.finish_succ, Body.nextChunk, hr]
      simp only [hf, mapErr, hread, atEnd, hnil, append_nil]
      rcases c.ending with _ | _ | _
      · exact ⟨rfl, fun _ => rfl⟩
      · exact ⟨rfl, nofun⟩
      · exact ⟨rfl, nofun⟩
    · obtain ⟨k, hk, -, hkl, hnext⟩ := nextChunk_length hr hf hnil
      rw [Body.finish_succ, hnext]
      have hdrop : (c.input.drop k).length = c.input.length - k := length_drop
      have hrest := ih (b := ⟨some { c with input := c.input.drop k, paces := c.paces.tail }, .length (n + 1 - k), b.reclaim⟩) rfl rfl
        (by simp only [hdrop]; omega) (by simp only [hdrop]; omega) (out ++ c.input.take k)
      rwa [append_assoc, take_append_drop] at hrest

/-! ## Bodies that end with the stream -/

/-- A body that ends with the stream leaves no connection. -/
theorem bytes_eof {c' : Conn} (hr : b.reader = some c) (hf : b.framing = .eof) : b.finish fuel out ≠ (.ok o, some c') := by
  induction fuel generalizing b c out with
  | zero => exact nofun
  | succ fuel ih =>
    intro h
    rw [Body.finish_succ, Body.nextChunk, hr] at h
    simp only [hf] at h
    rcases hread : ((read READ_SIZE).mapErr HttpError.io) c with ⟨e | _ | ⟨a, t⟩, c1⟩
    · rw [hread] at h
      cases h
    · rw [hread] at h
      cases h
    · rw [hread] at h
      exact ih (b := ⟨some c1, .eof, b.reclaim⟩) rfl rfl h

/-! ## Chunked bodies -/

/-- A character of a number. -/
theorem plain_of_digitVal {c : Char} (h : c = '+' ∨ ∃ e, digitVal 16 c = some e) : isWhitespace c = false ∧ c ≠ ';' := by
  rcases h with rfl | ⟨e, he⟩
  · decide
  · refine ⟨isWhitespace_of_range (digitVal_range he), ?_⟩
    rintro rfl
    cases he

/-- The number of a size line: the text before a `;`, without the white space around it. -/
theorem trim_size (before num after ext : Str) (hbefore : ∀ c ∈ before, isWhitespace c = true)
    (hafter : ∀ c ∈ after, isWhitespace c = true) (hext : ext = [] ∨ ext.head? = some ';')
    (hnum : ∀ c ∈ num, c = '+' ∨ ∃ e, digitVal 16 c = some e) :
    trim ((split ';' (trim (before ++ num ++ after ++ ext))).headD []) = num := by
  have hsemi : ';' ∉ before ++ num ++ after := by
    simp only [mem_append, not_or]
    exact ⟨⟨fun h => absurd (hbefore _ h) (by decide), fun h => (plain_of_digitVal (hnum _ h)).2 rfl⟩,
      fun h => absurd (hafter _ h) (by decide)⟩
  have hfirst : (split ';' (before ++ num ++ after ++ ext)).headD [] = before ++ num ++ after := by
    rcases hext with rfl | hext
    · rw [append_nil, split_eq_singleton hsemi, headD_cons]
    · obtain ⟨e, rfl⟩ := head?_eq_some_iff.mp hext
      rw [split_append hsemi, headD_cons]
  rw [trim_head_split rfl, hfirst, trim_between hbefore hafter]
  exact trim_of_forall_not (fun c hc => (plain_of_digitVal (hnum c hc)).1)

theorem chunkSize_eq_ok : chunkSize s = .ok n ↔ parseUnsigned 64 16 (trim ((split ';' (trim s)).headD [])) = some n := by
  unfold chunkSize
  simp only
  split <;> next h => rw [h]; simp

/-- The size that the decoders read is the one that the line names. -/
theorem chunkSize_iff : chunkSize s = .ok n ↔ NamesSize s n := by
  rw [chunkSize_eq_ok]
  constructor
  · intro h
    rw [trim_head_split rfl] at h
    obtain ⟨before, after, hfirst, hbefore, hafter⟩ := trim_spec ((split ';' s).headD [])
    by_cases hmem : ';' ∈ s
    · obtain ⟨a, b, rfl, ha⟩ := eq_append_cons_of_mem hmem
      rw [split_append ha, headD_cons] at hfirst h
      exact ⟨before, _, after, ';' :: b, by rw [← hfirst], hbefore, hafter, .inr rfl, h⟩
    · rw [split_eq_singleton hmem, headD_cons] at hfirst h
      exact ⟨before, _, after, [], by rw [append_nil, ← hfirst], hbefore, hafter, .inl rfl, h⟩
  · rintro ⟨before, num, after, ext, rfl, hbefore, hafter, hext, hnum⟩
    rw [trim_size before num after ext hbefore hafter hext (fun c => mem_of_parseUnsigned hnum)]
    exact hnum

theorem NamesSize.unique (hn : NamesSize s n) (hm : NamesSize s m) : n = m :=
  Except.ok.inj ((chunkSize_iff.mpr hn).symm.trans (chunkSize_iff.mpr hm))

/-- What follows the digits of a size line: white space, and what a `;` begins. -/
theorem extension_split {ext : Str} (h : ext = [] ∨ (ext.dropWhile isOws).head? = some ';') :
    ∃ after rest, ext ++ "\r\n".toList = after ++ rest ∧ (∀ c ∈ after, isWhitespace c = true) ∧ (rest = [] ∨ rest.head? = some ';') := by
  rcases h with rfl | hsemi
  · exact ⟨_, [], (append_nil _).symm, all_eq_true.mp rfl, .inl rfl⟩
  · refine ⟨ext.takeWhile isOws, ext.dropWhile isOws ++ "\r\n".toList, ?_, fun c hc => ?_, .inr ?_⟩
    · rw [← append_assoc, takeWhile_append_dropWhile]
    · have hows := mem_takeWhile_imp hc
      rw [isOws, Bool.or_eq_true, beq_iff_eq, beq_iff_eq] at hows
      rcases hows with rfl | rfl <;> rfl
    · rw [head?_append, hsemi, Option.some_or]

theorem extension_of_isChunkExtension {ext : Str} (h : isChunkExtension ext = true) :
    (ext = [] ∨ (ext.dropWhile isOws).head? = some ';') ∧ '\n' ∉ ext := by
  rw [isChunkExtension, Bool.and_eq_true, Bool.or_eq_true, List.isEmpty_iff, beq_iff_eq, Bool.not_eq_true', any_eq_false] at h
  exact h.imp_right (fun hno hmem => hno _ hmem rfl)

/-- A size line of the standard names its size. -/
theorem BareSize.names {line : Bytes} (h : BareSize line n) : ∃ s, fromUtf8 line = some s ∧ NamesSize s n := by
  obtain ⟨hn, digits, ext, rfl, hd, hext⟩ := h
  obtain ⟨after, rest, hrest, hafter, hsemi⟩ := extension_split (extension_of_isChunkExtension hext).1
  refine ⟨_, fromUtf8_utf8, [], digits, after, rest, ?_, nofun, hafter, hsemi, ?_⟩
  · rw [nil_append, append_assoc, append_assoc, hrest]
  · rw [parseUnsigned_of_parseDigits 64 hd, if_pos hn]

theorem NamesSize.le (h : NamesSize s n) : n ≤ 2 ^ 64 := by
  obtain ⟨before, num, after, ext, -, -, -, -, hnum⟩ := h
  obtain ⟨k, -, hk⟩ := Option.bind_eq_some_iff.mp hnum
  split at hk
  · next hlt => exact Option.some.inj hk ▸ Nat.le_of_lt hlt
  · cases hk

theorem length_of_fromUtf8 {line : Bytes} (hs : fromUtf8 line = some s) (hne : s ≠ []) : line.length ≠ 0 := by
  intro h0
  obtain rfl := length_eq_zero_iff.mp h0
  exact hne (Option.some.inj hs).symm

/-- A line with a size is not empty. -/
theorem length_of_namesSize {line : Bytes} (hs : fromUtf8 line = some s) (h : NamesSize s n) : line.length ≠ 0 :=
  length_of_fromUtf8 hs (by rintro rfl; cases chunkSize_iff.mpr h)

theorem Trailers.ne_nil {t : Bytes} (h : Trailers t) : t ≠ [] := by
  cases h with
  | blank hl => exact ne_nil_of_isLine hl
  | more hl => exact fun hnil => ne_nil_of_isLine hl (append_eq_nil_iff.mp hnil).1

theorem not_isLine_of_splitLine {line : Bytes} (h : splitLine line = (line, [], false)) : ¬IsLine line := by
  intro hl
  cases h.symm.trans hl

/-- Lines cut as trailers are trailers if the last one has an end; without it, nothing is left of a stream that ends. -/
theorem CutsTrailers.trailers {lines : List Bytes} {final : Bytes} (h : CutsTrailers ending lines final input rest) :
    ∃ t, input = t ++ rest ∧ (IsLine final ∧ Trailers t ∨ ¬IsLine final ∧ ending = .eof ∧ rest = []) := by
  induction h with
  | @blank line rest s hl hs hb =>
    refine ⟨line, rfl, hl.imp (fun hl => ⟨hl, .blank hl hs hb⟩) (fun hcut => ⟨not_isLine_of_splitLine hcut.2.1, hcut.1, hcut.2.2⟩)⟩
  | @more lines line final input rest s hl hs hb _ ih =>
    obtain ⟨t, rfl, ht⟩ := ih
    refine ⟨line ++ t, (append_assoc ..).symm, ?_⟩
    rcases hl with hl | ⟨hend, -, hnil⟩
    · exact ht.imp_left (And.imp_right (.more hl hs hb))
    · obtain ⟨rfl, rfl⟩ := append_eq_nil_iff.mp hnil
      exact ht.imp_left (fun ht => absurd rfl ht.2.ne_nil)

theorem skipTrailers_cuts (h : skipTrailers fuel c = (.ok (), d)) : ∃ lines final, CutsTrailers c.ending lines final c.input d.input := by
  induction fuel generalizing c with
  | zero => cases h
  | succ fuel ih =>
    rw [skipTrailers, bind_eq_ok] at h
    obtain ⟨⟨s, n⟩, c1, hline, hrest⟩ := h
    obtain ⟨line, hin, hl, hs, rfl, hend⟩ := takes_of_readLine (mapErr_eq_ok.mp hline)
    simp only [Task.ite_apply] at hrest
    rw [hin]
    by_cases hb : trim s = []
    · rw [if_pos (.inr hb)] at hrest
      obtain rfl : c1 = d := (Prod.mk.inj hrest).2
      exact ⟨_, _, .blank hl hs hb⟩
    · rw [if_neg (not_or.mpr ⟨length_of_fromUtf8 hs (by rintro rfl; exact hb rfl), hb⟩)] at hrest
      obtain ⟨lines, final, htrailers⟩ := ih hrest
      exact ⟨_, _, .more hl hs hb (hend ▸ htrailers)⟩

theorem skipTrailers_of_cuts {lines : List Bytes} {final : Bytes} (h : CutsTrailers ending lines final input rest)
    (hin : c.input = input) (hend : c.ending = ending) (hfuel : input.length < fuel) :
    ∃ d, skipTrailers fuel c = (.ok (), d) ∧ d.input = rest := by
  rcases fuel with _ | fuel
  · omega
  induction h generalizing c fuel with
  | @blank line rest s hl hs hb =>
    obtain ⟨d, hline, hd, -⟩ := readLine_takes hin (hend ▸ hl) hs
    refine ⟨d, ?_, hd⟩
    rw [skipTrailers, bind_of_ok (mapErr_eq_ok.mpr hline)]
    simp only [if_pos (.inr hb : line.length = 0 ∨ trim s = [])]
    rfl
  | @more lines line final input rest s hl hs hb _ ih =>
    obtain ⟨d, hline, hd, hend'⟩ := readLine_takes hin (hend ▸ hl) hs
    have hne := length_of_fromUtf8 hs (by rintro rfl; exact hb rfl)
    rw [length_append] at hfuel
    rcases fuel with _ | fuel
    · omega
    rw [skipTrailers, bind_of_ok (mapErr_eq_ok.mpr hline)]
    simp only [if_neg (not_or.mpr ⟨hne, hb⟩)]
    exact ih hd (hend'.trans hend) fuel (by omega)

/-- The steps of reading a chunk: its size line, then the trailers after the last one and otherwise its data and two bytes more. -/
theorem readChunk_steps {o : Option Bytes} (h : readChunk c = (.ok o, d)) :
    ∃ line s c1 size, readUntilNewline c = (.ok line, c1) ∧ fromUtf8 line = some s ∧ chunkSize s = .ok size ∧ size ≤ MAX_CHUNK_SIZE ∧
      (size = 0 ∧ o = none ∧ skipTrailers (c1.input.length + 1) c1 = (.ok (), d) ∨
        size ≠ 0 ∧ ∃ data crlf c2, o = some data ∧ readExact size c1 = (.ok data, c2) ∧ readExact 2 c2 = (.ok crlf, d)) := by
  rw [readChunk, bind_eq_ok] at h
  obtain ⟨⟨s, n⟩, c1, hline, hrest⟩ := h
  rw [mapErr_eq_ok, readLine_eq_ok] at hline
  obtain ⟨line, hline, hs, rfl⟩ := hline
  rcases hsize : chunkSize s with e | size
  · simp only [hsize] at hrest
    cases hrest
  simp only [hsize] at hrest
  split at hrest
  · cases hrest
  next hmax =>
  refine ⟨line, s, c1, size, hline, hs, hsize, Nat.not_lt.mp hmax, ?_⟩
  split at hrest
  · next hzero =>
    rw [bind_of_ok (get_apply c1), bind_eq_ok] at hrest
    obtain ⟨_, c2, htrailers, hpure⟩ := hrest
    cases hpure
    exact .inl ⟨hzero, rfl, htrailers⟩
  · next hzero =>
    rw [bind_eq_ok] at hrest
    obtain ⟨data, c2, hdata, hrest⟩ := hrest
    rw [bind_eq_ok] at hrest
    obtain ⟨crlf, c3, hcrlf, hpure⟩ := hrest
    cases hpure
    exact .inr ⟨hzero, data, crlf, c2, rfl, mapErr_eq_ok.mp hdata, mapErr_eq_ok.mp hcrlf⟩

/-- A chunk that has been read. -/
theorem readChunk_some {buf : Bytes} (h : readChunk c = (.ok (some buf), d)) :
    ∃ line s crlf, c.input = line ++ (buf ++ (crlf ++ d.input)) ∧ Conn.IsLine line ∧ fromUtf8 line = some s ∧
      chunkSize s = .ok buf.length ∧ buf.length ≠ 0 ∧ buf.length ≤ MAX_CHUNK_SIZE ∧ crlf.length = 2 ∧
      d = { c with input := d.input } := by
  obtain ⟨line, s, c1, size, hline, hs, hsize, hmax, ⟨-, ⟨⟩, -⟩ | ⟨hzero, data, crlf, c2, ⟨⟩, hdata, hcrlf⟩⟩ := readChunk_steps h
  rw [readExact_eq_ok] at hdata hcrlf
  obtain ⟨rfl, hdata, hc2⟩ := hdata
  rcases readUntilNewline_eq_ok.mp hline with ⟨hl, hc, hc1⟩ | ⟨-, -, -, hc1⟩
  · refine ⟨line, s, crlf, by rw [hc, hdata, hcrlf.2.1], hl, hs, hsize, hzero, hmax, hcrlf.1, ?_⟩
    rw [hcrlf.2.2, hc2, hc1]
  · have hnil : c1.input = [] := by rw [hc1]
    rw [hnil] at hdata
    exact absurd (by rw [(append_eq_nil_iff.mp hdata.symm).1]; rfl) hzero

/-- What is cut into chunks and trailers is in chunked coding if its last line has an end; without it, nothing is left of a stream that
ends. It is more than its data. -/
theorem CutsChunks.coding (h : CutsChunks ending most cut input rest) : ∃ t, input = t ++ rest ∧ cut.data.length < t.length ∧
      (IsLine cut.final ∧ ChunkedCoding t ∨ ¬IsLine cut.final ∧ ending = .eof ∧ rest = []) := by
  induction h with
  | @last lines line final input rest s hl hs hsize hcuts =>
    obtain ⟨t, rfl, ht⟩ := hcuts.trailers
    refine ⟨line ++ t, (append_assoc ..).symm, ?_, ?_⟩
    · rw [length_append]
      exact Nat.add_pos_left (Nat.pos_of_ne_zero (length_of_namesSize hs hsize)) _
    · rcases hl with hl | ⟨hend, -, hnil⟩
      · exact ht.imp_left (And.imp_right (.last hl hs hsize))
      · obtain ⟨rfl, rfl⟩ := append_eq_nil_iff.mp hnil
        exact ht.imp_left (fun ht => absurd rfl ht.2.ne_nil)
  | @chunk cut line data gap input rest s hl hs hsize hne _ hgap _ ih =>
    obtain ⟨t, rfl, hlt, ht⟩ := ih
    refine ⟨line ++ (data ++ (gap ++ t)), by simp only [append_assoc], ?_, ?_⟩
    · simp only [ChunkCut.data_chunk, length_append]
      omega
    · rcases hl with hl | ⟨-, -, hnil⟩
      · exact ht.imp_left (And.imp_right (.chunk hl hs hsize (fun h0 => hne (length_eq_zero_iff.mp h0)) rfl hgap))
      · exact absurd (append_eq_nil_iff.mp hnil).1 hne

/-- A body in chunked coding that is read to its end. -/
theorem finish_cuts {left : Option Conn} (hr : b.reader = some c) (hf : b.framing = .chunked)
    (h : b.finish fuel out = (.ok o, left)) :
    ∃ cut d, o = out ++ cut.data ∧ left = some d ∧ CutsChunks c.ending MAX_CHUNK_SIZE cut c.input d.input := by
  induction fuel generalizing b c out with
  | zero => cases h
  | succ fuel ih =>
    rw [Body.finish_succ, Body.nextChunk, hr] at h
    simp only [hf] at h
    rcases hread : readChunk c with ⟨e | _ | buf, c1⟩
    · rw [hread] at h
      cases h
    · simp only [hread] at h
      obtain ⟨ho, hc⟩ := Prod.mk.inj h
      rw [reclaimConn_conn (b := ⟨some c1, .done, b.reclaim⟩) rfl] at hc
      obtain ⟨line, s, c2, _, hline, hs, hsize, -, ⟨rfl, -, hskip⟩ | ⟨-, _, _, _, ⟨⟩, -⟩⟩ := readChunk_steps hread
      obtain ⟨line', hin, hl, hs', -, hend⟩ := takes_of_readLine (readLine_eq_ok.mpr ⟨line, hline, hs, rfl⟩)
      obtain ⟨lines, final, htrailers⟩ := skipTrailers_cuts hskip
      refine ⟨⟨[], line', lines, final⟩, c1, by rw [ChunkCut.data, flatMap_nil, append_nil, Except.ok.inj ho], hc.symm, ?_⟩
      rw [hin]
      exact .last hl hs' (chunkSize_iff.mp hsize) (hend ▸ htrailers)
    · simp only [hread] at h
      obtain ⟨line, s, crlf, hin, hl, hs, hsize, hzero, hmax, hcrlf, hc1⟩ := readChunk_some hread
      obtain ⟨cut, d, rfl, hd, ht⟩ := ih (b := ⟨some c1, .chunked, b.reclaim⟩) rfl rfl h
      refine ⟨{ cut with chunks := ⟨line, buf, crlf⟩ :: cut.chunks }, d, append_assoc .., hd, ?_⟩
      have hend : c1.ending = c.ending := by rw [hc1]
      rw [hin]
      exact .chunk (.inl hl) hs (chunkSize_iff.mp hsize) (fun h0 => hzero (by rw [h0]; rfl)) hmax hcrlf (hend ▸ ht)

theorem finish_of_cuts (h : CutsChunks ending MAX_CHUNK_SIZE cut input rest) (hr : b.reader = some c)
    (hf : b.framing = .chunked) (hin : c.input = input) (hend : c.ending = ending) (hfuel : input.length < fuel) (out : Bytes) :
    ∃ d, b.finish fuel out = (.ok (out ++ cut.data), some d) ∧ d.input = rest := by
  rcases fuel with _ | fuel
  · omega
  rw [Body.finish_succ, Body.nextChunk, hr]
  simp only [hf]
  induction h generalizing b c fuel out with
  | @last lines line final input rest s hl hs hsize ht =>
    have hsize := chunkSize_iff.mpr hsize
    obtain ⟨c1, hline, hc1, hend1⟩ := readLine_takes hin (hend ▸ hl) hs
    obtain ⟨d, hskip, hd⟩ := skipTrailers_of_cuts ht hc1 (hend1.trans hend) (Nat.lt_succ_self _)
    have hread : readChunk c = (.ok none, d) := by
      rw [readChunk, bind_of_ok (mapErr_eq_ok.mpr hline)]
      simp only [hsize, if_neg (Nat.not_lt_zero _), if_true]
      rw [bind_of_ok (get_apply c1), bind_of_ok (by rw [hc1]; exact hskip)]
      rfl
    refine ⟨d, ?_, hd⟩
    rw [hread, ChunkCut.data, flatMap_nil, append_nil]
    exact Prod.ext rfl (reclaimConn_conn (b := ⟨some d, .done, b.reclaim⟩) rfl)
  | @chunk cut line data gap input rest s hl hs hsize hne hmax hgap _ ih =>
    have hsize := chunkSize_iff.mpr hsize
    obtain ⟨c1, hline, hc1, hend1⟩ := readLine_takes hin (hend ▸ hl) hs
    have hread : readChunk c = (.ok (some data), { c1 with input := input }) := by
      rw [readChunk, bind_of_ok (mapErr_eq_ok.mpr hline)]
      simp only [hsize, Task.ite_apply, if_neg (Nat.not_lt.mpr hmax), if_neg (mt length_eq_zero_iff.mp hne)]
      rw [bind_of_ok (mapErr_eq_ok.mpr (readExact_append hc1)), ← hgap, bind_of_ok (mapErr_eq_ok.mpr (readExact_append rfl))]
      rfl
    simp only [length_append] at hfuel
    rcases fuel with _ | fuel
    · omega
    rw [hread, ChunkCut.data_chunk, ← append_assoc]
    simp only
    rw [Body.finish_succ, Body.nextChunk]
    exact ih (b := ⟨some { c1 with input := input }, .chunked, b.reclaim⟩) rfl rfl rfl (hend1.trans hend) (out ++ data) fuel
      (by omega)

end Http

end Ferroly
