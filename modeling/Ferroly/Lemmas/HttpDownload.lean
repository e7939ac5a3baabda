import Ferroly.Http.DownloadSpec
import Ferroly.Lemmas.ClientRun
import Ferroly.Lemmas.HttpResponse

/-!
# What a download leaves

The bytes a response still owes, kept through its chunks; from that, what one call and what a sequence of calls makes of the file.
-/

namespace Ferroly.Http

open List Conn

variable {b : Body} {e res rest : Bytes} {c : Conn} {h : HeaderMap} {n : Nat} {file : Option Bytes} {req : Request}
  {resp : Response} {status : StatusCode} {digits ext url : Str}

/-! ## Heads -/

/-- A byte string begins with at most one header block. -/
theorem headerBlock_unique {h1 h2 : HeaderMap} {block block' rest' : Bytes} (hb : HeaderBlock h block h1)
    (hb' : HeaderBlock h block' h2) (he : block ++ rest = block' ++ rest') : block = block' ∧ h1 = h2 := by
  induction hb generalizing block' with
  | blank hl hblank =>
    cases hb' with
    | blank hl' _ => exact ⟨(isLine_unique hl hl' he).1, rfl⟩
    | field hl' hfield' _ =>
      rw [append_assoc] at he
      obtain ⟨rfl, -⟩ := isLine_unique hl hl' he
      exact absurd hblank hfield'
  | field hl hfield _ ih =>
    rw [append_assoc] at he
    cases hb' with
    | blank hl' hblank' =>
      obtain ⟨rfl, -⟩ := isLine_unique hl hl' he
      exact absurd hblank' hfield
    | field hl' _ hrest' =>
      rw [append_assoc] at he
      obtain ⟨rfl, hmore⟩ := isLine_unique hl hl' he
      obtain ⟨rfl, rfl⟩ := ih hrest' hmore
      exact ⟨rfl, rfl⟩

/-- A byte string begins with at most one head of a response. -/
theorem responseHead_unique {head head' rest' : Bytes} {status' : StatusCode} {h' : HeaderMap} (hh : ResponseHead head status h)
    (hh' : ResponseHead head' status' h') (he : head ++ rest = head' ++ rest') : head = head' ∧ status = status' ∧ h = h' := by
  obtain ⟨hl, hcode, hblock⟩ := hh
  obtain ⟨hl', hcode', hblock'⟩ := hh'
  rw [append_assoc, append_assoc] at he
  obtain ⟨rfl, hmore⟩ := isLine_unique hl hl' he
  obtain ⟨rfl, rfl⟩ := headerBlock_unique hblock hblock' hmore
  rw [hcode] at hcode'
  cases hcode'
  exact ⟨rfl, rfl, rfl⟩

/-! ## Framings -/

/-- A clear length that fits is the length the client takes. -/
theorem contentLength_of_clear (hclear : h.ClearLength n) (hn : n < 2 ^ 64) : h.contentLength = some n := by
  obtain ⟨hne, hall⟩ := hclear
  obtain ⟨v, vs, hv : h.values "content-length".toList = v :: vs⟩ := exists_cons_of_ne_nil hne
  rw [HeaderMap.contentLength, HeaderMap.get_eq_head, hv]
  replace hall : ∀ v ∈ h.values "content-length".toList, _ := hall
  rw [hv] at hall
  obtain ⟨hplain, rfl⟩ := hall v mem_cons_self
  rw [isPlainNumber, Bool.and_eq_true, Bool.not_eq_true', isEmpty_eq_false_iff, all_eq_true] at hplain
  have hdigits := parseDigits_digits hplain.1 hplain.2
  show HeaderMap.parseLength v = _
  rw [HeaderMap.parseLength, trim_of_parseDigits hdigits, parseUnsigned_of_parseDigits 64 hdigits, if_pos hn]

theorem mentionsChunked_of_eq {v : Str} (h : eqIgnoreAsciiCase v "chunked".toList = true) : mentionsChunked v = true := by
  rw [eqIgnoreAsciiCase, beq_iff_eq] at h
  rw [mentionsChunked, h]
  decide

/-- The framing that the client takes from the head of an honest answer with an entity. -/
theorem responseFraming_of_coding {entity coded : Bytes} {marked : Bool} (hstatus : status = .OK ∨ status = .PARTIAL_CONTENT)
    (hcoding : Coding h entity marked coded) :
    (coded = entity ∧ marked = false ∧ responseFraming status h = .length entity.length) ∨
      (ChunkedData marked entity coded ∧ responseFraming status h = .chunked) ∨
      (coded = entity ∧ marked = false ∧ h.closeDelimited ∧ responseFraming status h = .eof) := by
  have hcode : ¬(status.code.toNat = 204 ∨ status.code.toNat = 304 ∨ 100 ≤ status.code.toNat ∧ status.code.toNat < 200) := by
    rcases hstatus with rfl | rfl <;> decide
  unfold responseFraming
  rw [if_neg hcode, HeaderMap.isChunked_eq]
  cases hcoding with
  | length hte hclear hlt =>
    rw [hte, contentLength_of_clear hclear hlt]
    exact .inl ⟨rfl, rfl, rfl⟩
  | chunked hte hv hdata =>
    rw [hte]
    exact .inr (.inl ⟨hdata, if_pos (mentionsChunked_of_eq hv)⟩)
  | close hclose =>
    rw [hclose.1, HeaderMap.contentLength, HeaderMap.get_eq_head]
    have hcl : h.values "content-length".toList = [] := hclose.2
    rw [hcl]
    exact .inr (.inr ⟨rfl, rfl, hclose, rfl⟩)

/-! ## Size lines -/

/-- The size of a line that begins with digits is the number they are. -/
theorem NamesSize.eq_digits {m : Nat} (hm : NamesSize (digits ++ ext ++ "\r\n".toList) m) (hd : parseDigits 16 digits = some n)
    (hext : ext = [] ∨ (ext.dropWhile isOws).head? = some ';') : m = n := by
  obtain ⟨after, rest, hrest, hafter, hsemi⟩ := extension_split hext
  have hdigits := trim_size [] digits after rest nofun hafter hsemi (fun c hc => .inr ((digitVal_of_parseDigits hd).2 c hc))
  rw [nil_append, append_assoc, ← hrest, ← append_assoc] at hdigits
  rw [← chunkSize_iff, chunkSize_eq_ok, hdigits, parseUnsigned_of_parseDigits 64 hd] at hm
  split at hm
  · exact (Option.some.inj hm).symm
  · cases hm

theorem extension_of_isExtension (h : isExtension ext = true) : (ext = [] ∨ (ext.dropWhile isOws).head? = some ';') ∧ '\n' ∉ ext := by
  rw [isExtension, Bool.and_eq_true, Bool.or_eq_true, List.isEmpty_iff, beq_iff_eq, Bool.not_eq_true', contains_eq_mem,
    decide_eq_false_iff_not] at h
  refine h.imp_left (Or.imp_right (fun hsemi => ?_))
  obtain ⟨t, rfl⟩ := head?_eq_some_iff.mp hsemi
  rfl

theorem isLine_sizeLine (hd : parseDigits 16 digits = some n) (hext : isExtension ext = true) :
    Conn.IsLine (utf8 (sizeLine digits ext)) := by
  refine isLine_crlf ?_
  rw [mem_append, not_or]
  exact ⟨not_mem_of_parseDigits hd rfl, (extension_of_isExtension hext).2⟩

/-- Text that begins with a digit other than zero does not name the size zero. -/
theorem not_namesSize_zero {c : Char} {e : Nat} (hc : digitVal 16 c = some e) (he : e ≠ 0) (s : Str) : ¬NamesSize (c :: s) 0 := by
  rintro ⟨before, num, after, ext, htext, hbefore, -, -, hnum⟩
  rcases before with _ | ⟨b, before⟩
  · rcases num with _ | ⟨d, num⟩
    · cases hnum
    obtain ⟨rfl, -⟩ := cons.inj htext
    have hplus : (c :: num).head? ≠ some '+' := by
      rintro hp
      cases Option.some.inj hp
      cases hc
    rw [parseUnsigned_of_head hplus, Option.bind_eq_some_iff] at hnum
    obtain ⟨m, hm, hlt⟩ := hnum
    have hfrom : parseDigitsFrom 16 0 (c :: num) = some m := hm
    rw [parseDigitsFrom, hc] at hfrom
    have hle := le_of_parseDigitsFrom (by decide) hfrom
    split at hlt
    · cases hlt
      omega
    · cases hlt
  · obtain ⟨rfl, -⟩ := cons.inj htext
    cases (isWhitespace_of_range (digitVal_range hc)).symm.trans (hbefore c mem_cons_self)

/-! ## What a body still owes -/

section

variable (sure : Prop)

/-- The entity `e` is what a body still has to hand over: all of it is there, or a part of it, and if drops are sure to show, then a
failure after the part or a part whose end is marked. -/
inductive Remains (e : Bytes) (b : Body) : Prop where
  | length {c : Conn} : b.reader = some c → b.framing = .length e.length →
      e <+: c.input ∨ c.input <+: e ∧ (sure → c.ending ≠ .eof) → Remains e b
  | chunked {c : Conn} {plain : Bool} {coded : Bytes} : b.reader = some c → b.framing = .chunked → ChunkedData plain e coded →
      coded <+: c.input ∨ c.input <+: coded ∧ (sure → c.ending = .eof → plain = true) → Remains e b
  | close {c : Conn} : b.reader = some c → b.framing = .eof → c.input = e ∨ c.input <+: e ∧ (sure → c.ending ≠ .eof) → Remains e b
  | spent {c : Conn} : ¬sure → b.reader = some c → c.input = [] → Remains e b

/-- A chunk is the next part of what is owed, and at the end nothing is owed, if drops are sure to show. -/
def Owed (e : Bytes) (out : Except (Fault HttpError) (Option Bytes) × Body × Option Put) : Prop :=
  match out with
  | (.ok (some chunk), b', _) => ∃ e', e = chunk ++ e' ∧ Remains sure e' b'
  | (.ok none, _, _) => sure → e = []
  | (.error _, _, _) => True

end

variable {sure : Prop}

section Parts

variable {input : Bytes} {k : Nat}

/-- The first bytes are those of the entity, whichever of the two is longer. -/
theorem take_comparable (h : e <+: input ∨ input <+: e) (he : k ≤ e.length) (hi : k ≤ input.length) : input.take k = e.take k := by
  rcases h with ⟨r, rfl⟩ | ⟨r, rfl⟩
  · exact take_append_of_le_length he
  · exact (take_append_of_le_length hi).symm

end Parts

theorem owed_length (hr : b.reader = some c) (hf : b.framing = .length e.length)
    (hin : e <+: c.input ∨ c.input <+: e ∧ (sure → c.ending ≠ .eof)) : Owed sure e b.nextChunk := by
  rcases e with _ | ⟨a, e⟩
  · rw [Body.nextChunk, hr]
    simp only [hf]
    exact fun _ => rfl
  by_cases hnil : c.input = []
  · -- the connection has failed
    have hend : sure → c.ending ≠ .eof := by
      rcases hin with hin | hin
      · rw [hnil] at hin
        exact absurd (prefix_nil.mp hin) (cons_ne_nil _ _)
      · exact hin.2
    rw [Body.nextChunk, hr]
    simp only [hf, Task.mapErr, read_nil hnil, atEnd]
    rcases hc : c.ending with _ | _ | _
    · exact fun hsure => absurd hc (hend hsure)
    · exact trivial
    · exact trivial
  · obtain ⟨k, -, hke, hki, hnext⟩ := nextChunk_length hr hf hnil
    rw [hnext]
    have htake := take_comparable (hin.imp_right And.left) hke hki
    refine ⟨(a :: e).drop k, by rw [htake, take_append_drop], ?_⟩
    refine .length rfl ?_ (hin.imp (fun h => List.IsPrefix.drop h k) (And.imp_left (fun h => List.IsPrefix.drop h k)))
    rw [length_drop, length_cons]

theorem owed_close (hr : b.reader = some c) (hf : b.framing = .eof) (hin : c.input = e ∨ c.input <+: e ∧ (sure → c.ending ≠ .eof)) :
    Owed sure e b.nextChunk := by
  rw [Body.nextChunk, hr]
  simp only [hf, Task.mapErr]
  by_cases hnil : c.input = []
  · rw [read_nil hnil, atEnd]
    rcases hc : c.ending with _ | _ | _
    · rcases hin with hin | hin
      · exact fun _ => hin.symm.trans hnil
      · exact fun hsure => absurd hc (hin.2 hsure)
    · exact trivial
    · exact trivial
  · obtain ⟨k, hk, -, hki, hread⟩ := read_of_ne_nil (m := READ_SIZE) (by decide) hnil
    have hpre : c.input <+: e := hin.elim (fun h => h ▸ prefix_refl _) And.left
    have htake := take_comparable (.inr hpre) (hki.trans hpre.length_le) hki
    obtain ⟨a, t, hat⟩ : ∃ a t, c.input.take k = a :: t :=
      exists_cons_of_length_pos (by rw [length_take_of_le hki]; exact hk)
    rw [hat] at hread
    rw [hread]
    refine ⟨e.drop k, by rw [← hat, htake, take_append_drop], .close rfl rfl ?_⟩
    exact hin.imp (fun h => by rw [h]) (And.imp_left (fun h => List.IsPrefix.drop h k))

/-- The size line that is read is the one that was sent. -/
theorem sizeLine_read {s : Str} {line tail input : Bytes} {m : Nat} {Q : Prop} (hd : parseDigits 16 digits = some n)
    (hext : isExtension ext = true) (hl : Conn.IsLine line) (hs : fromUtf8 line = some s) (hm : chunkSize s = .ok m)
    (hin : input = line ++ rest)
    (hcut : utf8 (sizeLine digits ext) ++ tail <+: input ∨ input <+: utf8 (sizeLine digits ext) ++ tail ∧ Q) :
    m = n ∧ (tail <+: rest ∨ rest <+: tail ∧ Q) := by
  have hsame : ∀ {x y : Bytes}, utf8 (sizeLine digits ext) ++ (tail ++ x) = line ++ (rest ++ y) → m = n ∧ tail ++ x = rest ++ y := by
    intro x y he
    obtain ⟨rfl, hmore⟩ := isLine_unique (isLine_sizeLine hd hext) hl he
    rw [fromUtf8_utf8] at hs
    cases hs
    exact ⟨(chunkSize_iff.mp hm).eq_digits hd (extension_of_isExtension hext).1, hmore⟩
  subst hin
  rcases hcut with ⟨x, hx⟩ | ⟨⟨y, hy⟩, hq⟩
  · obtain ⟨hmn, htail⟩ := hsame (x := x) (y := []) (by rw [append_nil, ← hx, append_assoc])
    exact ⟨hmn, .inl ⟨x, by rw [htail, append_nil]⟩⟩
  · obtain ⟨hmn, htail⟩ := hsame (x := []) (y := y) (by rw [append_nil, ← hy, append_assoc])
    exact ⟨hmn, .inr ⟨⟨y, by rw [← htail, append_nil]⟩, hq⟩⟩

/-- A chunk is followed by two bytes and the rest of the coding. -/
theorem chunk_read {data buf crlf next : Bytes} {Q : Prop} (hlen : buf.length = data.length) (hcrlf : crlf.length = 2)
    (hcut : data ++ (utf8 "\r\n".toList ++ rest) <+: buf ++ (crlf ++ next) ∨
      buf ++ (crlf ++ next) <+: data ++ (utf8 "\r\n".toList ++ rest) ∧ Q) : buf = data ∧ (rest <+: next ∨ next <+: rest ∧ Q) := by
  have htwo : (utf8 "\r\n".toList).length = crlf.length := hcrlf.symm
  rcases hcut with ⟨x, hx⟩ | ⟨⟨y, hy⟩, hq⟩
  · simp only [append_assoc] at hx
    obtain ⟨hdata, hx⟩ := append_inj hx hlen.symm
    obtain ⟨-, hx⟩ := append_inj hx htwo
    exact ⟨hdata.symm, .inl ⟨x, hx⟩⟩
  · simp only [append_assoc] at hy
    obtain ⟨hdata, hy⟩ := append_inj hy hlen
    obtain ⟨-, hy⟩ := append_inj hy htwo.symm
    exact ⟨hdata, .inr ⟨⟨y, hy⟩, hq⟩⟩

/-- A part of a plain size line is not read as the last chunk. -/
theorem chunkSize_part {s : Str} {line tail : Bytes} (hd : parseDigits 16 digits = some n) (hplain : digits.head? ≠ some '0')
    (hs : fromUtf8 line = some s) (hcut : line <+: utf8 (sizeLine digits ext) ++ tail) : chunkSize s ≠ .ok 0 := by
  obtain ⟨hne, hall⟩ := digitVal_of_parseDigits hd
  obtain ⟨d, ds, rfl⟩ := exists_cons_of_ne_nil hne
  obtain ⟨e, he⟩ := hall d mem_cons_self
  have hascii := toNat_of_digitVal he
  rcases line with _ | ⟨a, line⟩
  · cases hs
    decide
  · have hline : utf8 (sizeLine (d :: ds) ext) = byte d :: utf8 (ds ++ ext ++ "\r\n".toList) := utf8_cons_ascii hascii _
    rw [hline, cons_append, cons_prefix_cons] at hcut
    rw [hcut.1, fromUtf8_cons_ascii hascii, Option.map_eq_some_iff] at hs
    obtain ⟨t, -, rfl⟩ := hs
    refine mt chunkSize_iff.mp (not_namesSize_zero he (fun hzero => hplain ?_) t)
    rw [hzero] at he
    rw [eq_zero_of_digitVal he]
    rfl

theorem owed_chunked {coded : Bytes} {plain : Bool} (hr : b.reader = some c) (hf : b.framing = .chunked)
    (hdata : ChunkedData plain e coded) (hin : coded <+: c.input ∨ c.input <+: coded ∧ (sure → c.ending = .eof → plain = true)) :
    Owed sure e b.nextChunk := by
  rw [Body.nextChunk, hr]
  simp only [hf]
  rcases hread : readChunk c with ⟨err | _ | buf, d⟩
  · exact trivial
  · intro hsure
    cases hdata with
    | last => rfl
    | @chunk digits ext data more rest hd hne hext hplain _ =>
      exfalso
      obtain ⟨line, s, c1, _, hline, hs, hsize, -, ⟨rfl, -⟩ | ⟨-, _, _, _, ⟨⟩, -⟩⟩ := readChunk_steps hread
      rcases readUntilNewline_eq_ok.mp hline with ⟨hl, hc, -⟩ | ⟨hnone, rfl, hend, -⟩
      · have hzero := (sizeLine_read hd hext hl hs hsize hc hin).1
        exact hne (length_eq_zero_iff.mp hzero.symm)
      · rcases hin with hin | ⟨hin, hp⟩
        · -- the whole size line is there, and it has an end
          obtain ⟨x, hx⟩ := hin
          rw [← hx, append_assoc, splitLine_append (isLine_sizeLine hd hext)] at hnone
          cases congrArg (fun p => p.2.2) hnone
        · exact chunkSize_part hd (hplain (hp hsure hend)) hs hin hsize
  · obtain ⟨line, s, crlf, hc, hl, hs, hsize, hbuf, -, hcrlf, hd'⟩ := readChunk_some hread
    cases hdata with
    | last hd hext _ => exact absurd (sizeLine_read hd hext hl hs hsize hc hin).1 hbuf
    | @chunk digits ext data more rest hd hne hext hplain hmore =>
      obtain ⟨hlen, htail⟩ := sizeLine_read hd hext hl hs hsize hc hin
      obtain ⟨rfl, hrest⟩ := chunk_read hlen hcrlf htail
      refine ⟨more, rfl, .chunked rfl rfl hmore ?_⟩
      rw [hd']
      exact hrest

/-- A body without bytes hands nothing over. -/
theorem owed_spent (hsure : ¬sure) (hr : b.reader = some c) (hnil : c.input = []) : Owed sure e b.nextChunk := by
  rcases hnext : b.nextChunk with ⟨err | _ | chunk, b', put⟩
  · exact trivial
  · exact fun h => absurd h hsure
  exfalso
  rw [Body.nextChunk, hr] at hnext
  rcases hf : b.framing with n | _ | _ | _
  · rcases n with _ | n
    · simp [hf] at hnext
    · rcases hc : c.ending with _ | _ | _ <;> simp [hf, Task.mapErr, read_nil hnil, atEnd, hc] at hnext
  · rcases hread : readChunk c with ⟨err | _ | buf, d⟩
    · simp [hf, hread] at hnext
    · simp [hf, hread] at hnext
    · obtain ⟨line, s, crlf, hc, hl, -⟩ := readChunk_some hread
      rw [hnil] at hc
      exact ne_nil_of_isLine hl (append_eq_nil_iff.mp hc.symm).1
  · rcases hc : c.ending with _ | _ | _ <;> simp [hf, Task.mapErr, read_nil hnil, atEnd, hc] at hnext
  · simp [hf] at hnext

/-- One chunk. -/
theorem Remains.owed (h : Remains sure e b) : Owed sure e b.nextChunk := by
  cases h with
  | length hr hf hin => exact owed_length hr hf hin
  | chunked hr hf hdata hin => exact owed_chunked hr hf hdata hin
  | close hr hf hin => exact owed_close hr hf hin
  | spent hsure hr hnil => exact owed_spent hsure hr hnil

/-! ## The file -/

/-- A write adds a part of the chunk, and all of it if it succeeds. -/
theorem write_cases (disk : Disk) (file chunk : Bytes) : (∃ disk', disk.write file chunk = (.ok disk', file ++ chunk)) ∨
      ∃ e part, disk.write file chunk = (.error e, file ++ part) ∧ part <+: chunk := by
  unfold Disk.write
  rcases disk.room with _ | n
  · exact .inl ⟨disk, rfl⟩
  · simp only
    split
    · exact .inl ⟨_, rfl⟩
    · exact .inr ⟨_, _, rfl, take_prefix _ _⟩

/-- What is saved of a body is a part of what it owes, and all of it if the loop ends well. -/
theorem saveLoop_saves (fuel : Nat) (disk : Disk) (file : Bytes) (total : Nat) (h : Remains sure e b) :
    ∃ part, part <+: e ∧ (saveLoop fuel b disk file total).2.1 = file ++ part ∧
      (sure → ∀ n, (saveLoop fuel b disk file total).1 = .ok n → part = e ∧ n = total + e.length) := by
  induction fuel generalizing e b disk file total with
  | zero => exact ⟨[], nil_prefix, (append_nil _).symm, fun _ n hn => by cases hn⟩
  | succ fuel ih =>
    have howed := h.owed
    rw [saveLoop]
    rcases hnext : b.nextChunk with ⟨err | _ | chunk, b', put⟩
    · exact ⟨[], nil_prefix, (append_nil _).symm, fun _ n hn => by cases hn⟩
    · rw [hnext] at howed
      refine ⟨[], nil_prefix, (append_nil _).symm, fun hsure n hn => ?_⟩
      obtain rfl : e = [] := howed hsure
      simp only at hn
      split at hn
      · exact ⟨rfl, (Except.ok.inj hn).symm⟩
      · cases hn
    · rw [hnext] at howed
      obtain ⟨e', rfl, hrem⟩ := howed
      simp only
      rcases write_cases disk file chunk with ⟨disk', hw⟩ | ⟨err, part, hw, hpart⟩
      · rw [hw]
        obtain ⟨part, hpart, hfile, hok⟩ := ih disk' (file ++ chunk) (total + chunk.length) hrem
        refine ⟨chunk ++ part, (prefix_append_right_inj chunk).mpr hpart, by rw [hfile, append_assoc], fun hsure n hn => ?_⟩
        obtain ⟨rfl, hn⟩ := hok hsure n hn
        exact ⟨rfl, by rw [hn, length_append, Nat.add_assoc]⟩
      · rw [hw]
        exact ⟨part, hpart.trans (prefix_append _ _), rfl, fun _ n hn => by cases hn⟩

/-! ## One call -/

/-- An honest response that is received has its whole head, and its body owes the entity; or it is all head and its body is empty. -/
theorem received_remains {key : PoolKey} {conn after : Conn} (t : Transfer res req conn) (hdet : sure → t.Detected)
    (h : exchange req key conn = (.ok resp, after)) :
    (¬sure ∧ ∃ c, resp.body.reader = some c ∧ c.input = []) ∨
      resp.status = t.status ∧ (t.status = .OK ∨ t.status = .PARTIAL_CONTENT → Remains sure t.entity resp.body) := by
  have hkeeps := keeps_writeRequest req conn
  unfold exchange at h
  rcases hwrite : writeRequest req conn with ⟨e | u, w⟩
  · rw [hwrite] at h
    cases h
  rw [hwrite] at h hkeeps
  simp only [incoming, Prod.mk.injEq] at hkeeps
  obtain ⟨hin, hend, -, -⟩ := hkeeps
  obtain ⟨status, headers, hread, rfl⟩ := receive_eq_ok.mp h
  by_cases hcut : ¬sure ∧ after.input = []
  · exact .inl ⟨hcut.1, after, rfl, hcut.2⟩
  refine .inr ?_
  have hwhole : sure → w.ending = .eof → t.head <+: w.input := by
    intro hsure heof
    rw [hin]
    rw [hend] at heof
    exact (hdet hsure heof).elim (prefix_append t.head t.coded).trans And.left
  obtain ⟨head, hhead, hresp⟩ : ∃ head, w.input = head ++ after.input ∧ ResponseHead head status headers := by
    rcases readResponseHead_cases hread with ⟨heof, hnil⟩ | hhead
    · obtain ⟨rest, hrest⟩ := hwhole (not_not.mp (fun hsure => hcut ⟨hsure, hnil⟩)) heof
      obtain ⟨rfl, rfl, rfl⟩ := readResponseHead_head t.isHead hrest.symm hread
      exact ⟨t.head, hrest.symm, t.isHead⟩
    · exact hhead
  have hafter := (readResponseHead_head hresp hhead hread).2.2
  have harr := t.arrives
  rw [← hin, hhead] at harr
  have hbody : status = t.status ∧ headers = t.headers ∧ head = t.head ∧
      (after.input <+: t.coded ∨ t.coded <+: after.input ∧ ¬t.headers.closeDelimited) := by
    rcases harr with ⟨y, hy⟩ | ⟨⟨x, hx⟩, hclose⟩
    · rw [append_assoc] at hy
      obtain ⟨rfl, hst, hhs⟩ := responseHead_unique hresp t.isHead hy
      exact ⟨hst, hhs, rfl, .inl ⟨y, append_cancel_left hy⟩⟩
    · rw [append_assoc] at hx
      obtain ⟨rfl, hst, hhs⟩ := responseHead_unique hresp t.isHead hx.symm
      exact ⟨hst, hhs, rfl, .inr ⟨⟨x, append_cancel_left hx⟩, hclose⟩⟩
  obtain ⟨rfl, rfl, rfl, hbody⟩ := hbody
  refine ⟨rfl, fun hstatus => ?_⟩
  have hend' : after.ending = conn.ending := by rw [hafter, hend]
  have hdet' : sure → after.ending = .eof → t.coded <+: after.input ∨ t.marked = true := by
    intro hsure heof
    rw [hend'] at heof
    refine (hdet hsure heof).imp (fun hfull => ?_) And.right
    rw [← hin, hhead] at hfull
    exact (prefix_append_right_inj _).mp hfull
  rcases responseFraming_of_coding hstatus t.coding with ⟨he, hmark, hf⟩ | ⟨hdata, hf⟩ | ⟨he, hmark, hclose, hf⟩
  · rw [he, hmark] at hdet'
    rw [he] at hbody
    refine .length rfl hf ?_
    by_cases hfull : t.entity <+: after.input
    · exact .inl hfull
    · refine .inr ⟨hbody.resolve_right (fun h => hfull h.1), fun hsure heof => ?_⟩
      exact (hdet' hsure heof).elim hfull Bool.false_ne_true
  · refine .chunked rfl hf hdata ?_
    by_cases hfull : t.coded <+: after.input
    · exact .inl hfull
    · exact .inr ⟨hbody.resolve_right (fun h => hfull h.1), fun hsure heof => (hdet' hsure heof).resolve_left hfull⟩
  · rw [he, hmark] at hdet'
    rw [he] at hbody
    have hpart := hbody.resolve_right (fun h => h.2 hclose)
    refine .close rfl hf ?_
    by_cases hfull : t.entity <+: after.input
    · exact .inl (hpart.eq_of_length_le hfull.length_le)
    · exact .inr ⟨hpart, fun hsure heof => (hdet' hsure heof).elim hfull Bool.false_ne_true⟩

theorem rangeValue_inj {k k' : Nat} (h : rangeValue k = rangeValue k') : k = k' := by
  have hdigits : Nat.toDigits 10 k = Nat.toDigits 10 k' := append_cancel_left (append_cancel_right h)
  have hk := parseDigits_toDigits (b := 10) (by decide) (by decide) k
  rw [hdigits, parseDigits_toDigits (by decide) (by decide)] at hk
  exact (Option.some.inj hk).symm

/-- The request asks for what follows the bytes there are. -/
theorem downloadRequest_range {existing : Nat} (h : downloadRequest url existing = .ok req) :
    req.headers.get "range".toList = if existing = 0 then none else some (rangeValue existing) := by
  unfold downloadRequest at h
  rcases hu : Uri.parse url with e | uri
  · rw [hu] at h
    cases h
  · rw [hu] at h
    cases h
    rcases existing with _ | k
    · rfl
    · have hline : stripCrlf (rangeValue (k + 1)) = rangeValue (k + 1) := by
        refine stripCrlf_of_oneLine (fun c hc => ?_)
        rcases mem_append.mp hc with hc | hc
        · rcases mem_append.mp hc with hc | hc
          · have hall : ∀ c ∈ "bytes=".toList, isCrlf c = false := forall_iff_forall_mem.mp (by decide)
            exact hall c hc
          · have hd := isDigit_toDigits _ c hc
            rw [isCrlf, Bool.or_eq_false_iff, beq_eq_false_iff_ne, beq_eq_false_iff_ne]
            exact ⟨ne_of_isDigit hd rfl, ne_of_isDigit hd rfl⟩
        · rw [mem_singleton.mp hc]
          rfl
      show some (stripCrlf (rangeValue (k + 1))) = some (rangeValue (k + 1))
      rw [hline]

/-- A file that holds the beginning of a resource, or none. -/
def Begins (res : Bytes) (file : Option Bytes) : Prop := file.getD [] <+: res

/-- A file that keeps to the resource and, if drops are sure to show, has all of it if the call ends well. -/
def Right (sure : Prop) (res : Bytes) (result : Except (Fault HttpError) Nat) (file : Option Bytes) : Prop :=
  Begins res file ∧ (sure → ∀ n, result = .ok n → file = some res ∧ n = res.length)

theorem right_of_error (hfile : Begins res file) (e : Fault HttpError) :
    Right sure res (.error e) file := ⟨hfile, fun _ n hn => by cases hn⟩

variable {disk : Disk}

/-- What a saved body makes of a file, if the entity continues it. -/
theorem saveBody_saves {total : Nat} (content : Bytes) (hres : res = content ++ e) (htotal : sure → total = content.length)
    (h : Remains sure e b) :
    Right sure res (saveBody disk b content total).1 (saveBody disk b content total).2.1 := by
  obtain ⟨part, hpart, hfile, hok⟩ := saveLoop_saves b.fuel disk content total h
  have hsaved : (saveBody disk b content total).2.1 = some (content ++ part) := congrArg some hfile
  rw [hsaved, hres]
  refine ⟨(prefix_append_right_inj content).mpr hpart, fun hsure n hn => ?_⟩
  obtain ⟨rfl, hn⟩ := hok hsure n hn
  exact ⟨rfl, by rw [hn, htotal hsure, length_append]⟩

/-- An empty body adds nothing, whatever the status. -/
theorem saveResponse_spent (existing : Nat) (hfile : Begins res file) (hsure : ¬sure) (hr : resp.body.reader = some c) (hnil : c.input = [])
    :
    Right sure res (saveResponse disk url file existing resp).1 (saveResponse disk url file existing resp).2.1 := by
  have hbody : ∀ e, Remains sure e resp.body := fun e => .spent hsure hr hnil
  unfold saveResponse
  simp only
  split
  · rcases file with _ | content
    · exact right_of_error hfile _
    · obtain ⟨e, he⟩ := hfile
      simp only
      split
      · exact saveBody_saves content he.symm (fun h => absurd h hsure) (hbody e)
      · exact right_of_error ⟨e, he⟩ _
  split
  · exact ⟨hfile, fun h => absurd h hsure⟩
  split
  · split
    · exact saveBody_saves [] rfl (fun h => absurd h hsure) (hbody res)
    · exact right_of_error hfile _
  · exact right_of_error hfile _

/-- What becomes of the file by an honest answer. -/
theorem saveResponse_saves {existing : Nat} {entity : Bytes} (hfile : Begins res file)
    (hrange : req.headers.get "range".toList = if existing = 0 then none else some (rangeValue existing))
    (hexisting : existing ≠ 0 → ∃ content, file = some content ∧ content.length = existing)
    (hanswer : Answer res req status entity) (hstatus : resp.status = status)
    (hremains : status = .OK ∨ status = .PARTIAL_CONTENT → Remains sure entity resp.body) :
    Right sure res (saveResponse disk url file existing resp).1 (saveResponse disk url file existing resp).2.1 := by
  -- a range is asked for exactly if there are bytes already
  have hasked : ∀ {k}, req.headers.get "range".toList = some (rangeValue k) →
      ∃ content, file = some content ∧ content.length = existing ∧ k = existing ∧ content <+: res := by
    intro k hk
    rw [hrange] at hk
    split at hk
    · cases hk
    · next hne =>
      obtain ⟨content, rfl, hlen⟩ := hexisting hne
      exact ⟨content, rfl, hlen, (rangeValue_inj (Option.some.inj hk)).symm, hfile⟩
  unfold saveResponse
  rw [hstatus]
  cases hanswer with
  | full =>
    rw [if_neg (by decide), if_neg (by decide), if_pos (by decide)]
    split
    · exact saveBody_saves [] rfl (fun _ => rfl) (hremains (.inl rfl))
    · exact right_of_error hfile _
  | ranged hk hlt =>
    obtain ⟨content, rfl, rfl, rfl, hpre⟩ := hasked hk
    rw [if_pos (by decide)]
    simp only
    split
    · exact saveBody_saves content (prefix_append_drop hpre) (fun _ => rfl) (hremains (.inr rfl))
    · exact right_of_error hfile _
  | unsatisfiable hk hle =>
    obtain ⟨content, rfl, rfl, rfl, hpre⟩ := hasked hk
    obtain rfl := hpre.eq_of_length_le hle
    exact ⟨hfile, fun _ n hn => ⟨rfl, (Except.ok.inj hn).symm⟩⟩
  | other hno hrns =>
    have h206 : ¬status.code.toNat = 206 := by omega
    have h416 : ¬status.code.toNat = 416 := by
      intro h
      refine hrns ?_
      rcases status with ⟨code⟩
      exact congrArg StatusCode.mk (UInt16.toNat_inj.mp h)
    rw [if_neg h206, if_neg h416, if_neg hno]
    exact right_of_error hfile _

/-- Every connection a call has used is of a server of the resource, and if drops are sure to show, none passes for an end. -/
def Downloaded.Honest (sure : Prop) (res : Bytes) (d : Downloaded) : Prop :=
  ∀ req, d.request = some req → ∀ a ∈ d.attempts, ∃ t : Transfer res req a.before, sure → t.Detected

/-- A call keeps the file to the resource, and ends well only with all of it. -/
theorem downloadToFile_right {timeout : Bool} {connect : Except (Fault HttpError) Conn} {pool : Pool}
    (hfile : Begins res file) (hserved : (downloadToFile timeout url connect disk file pool).Honest sure res) :
    Right sure res (downloadToFile timeout url connect disk file pool).result (downloadToFile timeout url connect disk file pool).file := by
  unfold downloadToFile at hserved ⊢
  simp only at hserved ⊢
  generalize hex : (if disk.stat then (file.map length).getD 0 else 0) = existing at hserved ⊢
  have hexisting : existing ≠ 0 → ∃ content, file = some content ∧ content.length = existing := by
    intro hne
    rcases file with _ | content
    · refine absurd ?_ hne
      rw [← hex]
      split <;> rfl
    · refine ⟨content, rfl, ?_⟩
      rw [← hex]
      split
      · rfl
      · next hstat =>
        rw [if_neg hstat] at hex
        exact absurd hex.symm hne
  rcases hreq : downloadRequest url existing with e | req
  · exact right_of_error hfile _
  rw [hreq] at hserved
  simp only at hserved ⊢
  rcases hsend : send timeout pool req connect with ⟨e | resp, pool', attempts⟩
  · exact right_of_error hfile _
  rw [hsend] at hserved
  obtain ⟨conn, after, hconn, -, hexchange⟩ := send_ok hsend
  obtain ⟨a, ha, rfl⟩ : ∃ a ∈ attempts, a.before = conn := by
    obtain ⟨a, ha, hbefore⟩ := Option.map_eq_some_iff.mp hconn
    exact ⟨a, mem_of_getLast? ha, hbefore⟩
  obtain ⟨t, hdet⟩ := hserved req rfl a ha
  rcases received_remains t hdet hexchange with ⟨hsure, c, hr, hnil⟩ | ⟨hstatus, hremains⟩
  · exact saveResponse_spent existing hfile hsure hr hnil
  · exact saveResponse_saves hfile (downloadRequest_range hreq) hexisting t.answer hstatus hremains

/-- In a sequence of calls, each keeps the file to the resource and ends well only with all of it. -/
theorem downloads_right {calls : List DownloadCall} {pool : Pool} (hfile : Begins res file)
    (hserved : ∀ d ∈ downloads calls file pool, d.Honest sure res) :
    ∀ d ∈ downloads calls file pool, Right sure res d.result d.file := by
  induction calls generalizing file pool with
  | nil => exact nofun
  | cons c calls ih =>
    rw [downloads, forall_mem_cons] at hserved ⊢
    have hright := downloadToFile_right hfile hserved.1
    exact ⟨hright, ih hright.1 hserved.2⟩

end Ferroly.Http
