import Ferroly.Lemmas.HttpBody

/-!
# Chunked streams

A stream is cut into chunks in one way only. So a body in chunked coding ends where the cut does, and a body of the standard is one
whose pieces are as the standard has them.
-/

namespace Ferroly.Http

open List Conn

variable {data input rest : Bytes} {ending : Ending} {cut : ChunkCut} {most n : Nat} {s : Str}

/-! ## Where chunked bodies end -/

variable {lines lines' : List Bytes} {line line' final final' input' more rest' t used : Bytes} {cut' : ChunkCut} {most' : Nat} {s' : Str}

/-- A line that has an end is what is taken for one, and it has one text. -/
theorem TakesLine.unique (h : TakesLine ending line rest) (hs : fromUtf8 line = some s) (h' : TakesLine .stall line' rest')
    (hs' : fromUtf8 line' = some s') (he : line ++ rest = line' ++ rest') : line = line' ∧ s = s' ∧ rest = rest' := by
  have hline' : IsLine line' := h'.resolve_right (fun hcut => nomatch hcut.1)
  obtain ⟨rfl, hrest⟩ : line = line' ∧ rest = rest' := by
    rcases h with h | ⟨-, h, rfl⟩
    · exact isLine_unique h hline' he
    · rw [append_nil] at he
      have hended := congrArg (fun p => p.2.2) h
      rw [he, splitLine_append hline'] at hended
      cases hended
  exact ⟨rfl, Option.some.inj (hs.symm.trans hs'), hrest⟩

/-- Lines that all have an end are cut in one way only. -/
theorem CutsTrailers.unique (h : CutsTrailers ending lines final input rest) (h' : CutsTrailers .stall lines' final' input' rest')
    (he : input = input') : lines = lines' ∧ final = final' ∧ rest = rest' := by
  induction h generalizing lines' input' with
  | blank hl hs hb =>
    cases h' with
    | blank hl' hs' =>
      obtain ⟨rfl, -, rfl⟩ := hl.unique hs hl' hs' he
      exact ⟨rfl, rfl, rfl⟩
    | more hl' hs' hb' =>
      obtain ⟨rfl, rfl, -⟩ := hl.unique hs hl' hs' he
      exact absurd hb hb'
  | more hl hs hb _ ih =>
    cases h' with
    | blank hl' hs' hb' =>
      obtain ⟨rfl, rfl, -⟩ := hl.unique hs hl' hs' he
      exact absurd hb' hb
    | more hl' hs' _ h' =>
      obtain ⟨rfl, -, hmore⟩ := hl.unique hs hl' hs' he
      obtain ⟨rfl, hends⟩ := ih h' hmore
      exact ⟨rfl, hends⟩

/-- A stream whose lines all have an end is cut into chunks in one way only. -/
theorem CutsChunks.unique (h : CutsChunks ending most cut input rest) (h' : CutsChunks .stall most' cut' input' rest')
    (he : input = input') : cut = cut' ∧ rest = rest' := by
  induction h generalizing cut' input' with
  | last hl hs hsize ht =>
    cases h' with
    | last hl' hs' hsize' ht' =>
      obtain ⟨rfl, -, hmore⟩ := hl.unique hs hl' hs' he
      obtain ⟨rfl, rfl, rfl⟩ := ht.unique ht' hmore
      exact ⟨rfl, rfl⟩
    | chunk hl' hs' hsize' hne =>
      obtain ⟨rfl, rfl, -⟩ := hl.unique hs hl' hs' he
      exact absurd (length_eq_zero_iff.mp (hsize'.unique hsize)) hne
  | chunk hl hs hsize hne _ hgap _ ih =>
    cases h' with
    | last hl' hs' hsize' =>
      obtain ⟨rfl, rfl, -⟩ := hl.unique hs hl' hs' he
      exact absurd (length_eq_zero_iff.mp (hsize.unique hsize')) hne
    | chunk hl' hs' hsize' _ _ hgap' h' =>
      obtain ⟨rfl, rfl, hdata⟩ := hl.unique hs hl' hs' he
      obtain ⟨rfl, hafter⟩ := append_inj hdata (hsize.unique hsize')
      obtain ⟨rfl, hmore⟩ := append_inj hafter (hgap.trans hgap'.symm)
      obtain ⟨rfl, rfl⟩ := ih h' hmore
      exact ⟨rfl, rfl⟩

theorem Trailers.cuts (ht : Trailers t) (more : Bytes) : ∃ lines final, CutsTrailers .stall lines final (t ++ more) more := by
  induction ht with
  | blank hl hs hb => exact ⟨_, _, .blank (.inl hl) hs hb⟩
  | more hl hs hb _ ih =>
    obtain ⟨lines, final, hcuts⟩ := ih
    rw [append_assoc]
    exact ⟨_, _, .more (.inl hl) hs hb hcuts⟩

theorem ChunkedCoding.cuts (h : ChunkedCoding t) (more : Bytes) : ∃ cut, CutsChunks .stall (2 ^ 64) cut (t ++ more) more := by
  induction h with
  | last hl hs hsize ht =>
    obtain ⟨lines, final, hcuts⟩ := ht.cuts more
    rw [append_assoc]
    exact ⟨_, .last (.inl hl) hs hsize hcuts⟩
  | chunk hl hs hsize hne hlen hgap _ ih =>
    obtain ⟨cut, hcuts⟩ := ih
    subst hlen
    simp only [append_assoc]
    exact ⟨_, .chunk (.inl hl) hs hsize (mt (congrArg length) hne) hsize.le hgap hcuts⟩

/-- Where a stream that is cut into chunks begins with a body in chunked coding, the last line has an end. -/
theorem CutsChunks.isLine_final (h : CutsChunks ending most cut input rest) (hcoding : ChunkedCoding used) (he : input = used ++ more) :
    IsLine cut.final := by
  obtain ⟨cut', hcuts⟩ := hcoding.cuts more
  obtain ⟨rfl, -⟩ := h.unique hcuts he
  obtain ⟨-, -, -, ⟨hline, -⟩ | ⟨-, hend, -⟩⟩ := hcuts.coding
  · exact hline
  · cases hend

/-! ## The chunked coding of the standard -/

theorem BareSize.isLine (h : BareSize line n) : IsLine line := by
  obtain ⟨-, digits, ext, rfl, hd, hext⟩ := h
  refine isLine_crlf ?_
  rw [mem_append, not_or]
  exact ⟨not_mem_of_parseDigits hd rfl, (extension_of_isChunkExtension hext).2⟩

/-- The size of a size line of the standard is the one it names. -/
theorem BareSize.eq {m : Nat} (h : BareSize line n) (hs : fromUtf8 line = some s) (hm : NamesSize s m) : m = n := by
  obtain ⟨s', hs', hnames⟩ := h.names
  cases hs.symm.trans hs'
  exact hm.unique hnames

/-- A field is a line that is not blank. -/
theorem FieldLine.text (h : FieldLine line) : IsLine line ∧ ∃ s, fromUtf8 line = some s ∧ trim s ≠ [] := by
  obtain ⟨field, rfl, hcolon, hnl⟩ := h
  refine ⟨isLine_crlf hnl, _, fromUtf8_utf8, fun hnil => ?_⟩
  obtain ⟨before, after, htext, hbefore, hafter⟩ := trim_spec (field ++ "\r\n".toList)
  have hmem : ':' ∈ before ++ trim (field ++ "\r\n".toList) ++ after := htext ▸ mem_append_left _ hcolon
  rw [hnil, append_nil, mem_append] at hmem
  exact hmem.elim (fun h => absurd (hbefore _ h) (by decide)) (fun h => absurd (hafter _ h) (by decide))

/-- Trailers of the standard are cut into their fields. -/
theorem TrailerSection.cuts (ht : TrailerSection t) (more : Bytes) : ∃ lines, (∀ line ∈ lines, FieldLine line) ∧
    CutsTrailers .stall lines (utf8 "\r\n".toList) (t ++ more) more := by
  induction ht with
  | empty => exact ⟨[], nofun, .blank (.inl (isLine_crlf (s := []) nofun)) fromUtf8_utf8 (by decide)⟩
  | line hfield _ ih =>
    obtain ⟨lines, hlines, hcuts⟩ := ih
    obtain ⟨hl, s, hs, hne⟩ := hfield.text
    rw [append_assoc]
    exact ⟨_, forall_mem_cons.mpr ⟨hfield, hlines⟩, .more (.inl hl) hs hne hcuts⟩

/-- A body of the standard is cut into pieces as the standard has them. -/
theorem ChunkedBody.cuts (h : ChunkedBody data used) (more : Bytes) :
    ∃ cut, CutsChunks .stall (2 ^ 64) cut (used ++ more) more ∧ cut.Strict := by
  induction h with
  | last hbare ht =>
    obtain ⟨lines, hlines, hcuts⟩ := ht.cuts more
    obtain ⟨s, hs, hnames⟩ := hbare.names
    rw [append_assoc]
    exact ⟨_, .last (.inl hbare.isLine) hs hnames hcuts, forall_mem_singleton.mpr ⟨0, hbare⟩, (fun _ hp => nomatch hp), hlines, rfl⟩
  | chunk hbare hne _ ih =>
    obtain ⟨cut, hcuts, hsizes, hgaps, htrailers, hfinal⟩ := ih
    obtain ⟨s, hs, hnames⟩ := hbare.names
    rw [forall_mem_cons] at hsizes
    simp only [append_assoc]
    refine ⟨_, .chunk (.inl hbare.isLine) hs hnames hne hnames.le rfl hcuts, ?_, forall_mem_cons.mpr ⟨rfl, hgaps⟩, htrailers, hfinal⟩
    exact forall_mem_cons.mpr ⟨hsizes.1, forall_mem_cons.mpr ⟨⟨_, hbare⟩, hsizes.2⟩⟩

/-- A body of the standard at the start of what is cut into chunks is what is cut, and the pieces are as the standard has them. -/
theorem CutsChunks.strict (h : CutsChunks ending most cut input rest) (hbody : ChunkedBody data used) (he : input = used ++ more) :
    cut.Strict ∧ rest = more := by
  obtain ⟨cut', hcuts, hstrict⟩ := hbody.cuts more
  obtain ⟨rfl, hrest⟩ := h.unique hcuts he
  exact ⟨hstrict, hrest⟩

/-- Lines as the standard has them are trailers of the standard. -/
theorem CutsTrailers.body (h : CutsTrailers ending lines final input rest) (hlines : ∀ line ∈ lines, FieldLine line)
    (hfinal : final = utf8 "\r\n".toList) : ∃ t, input = t ++ rest ∧ TrailerSection t := by
  induction h with
  | blank =>
    subst hfinal
    exact ⟨_, rfl, .empty⟩
  | more _ _ _ _ ih =>
    obtain ⟨hfield, hlines⟩ := forall_mem_cons.mp hlines
    obtain ⟨t, rfl, ht⟩ := ih hlines hfinal
    exact ⟨_, (append_assoc ..).symm, .line hfield ht⟩

/-- Pieces as the standard has them are a body of the standard. -/
theorem CutsChunks.body (h : CutsChunks ending most cut input rest) (hstrict : cut.Strict) :
    ∃ used, input = used ++ rest ∧ ChunkedBody cut.data used := by
  induction h with
  | last hl hs hsize ht =>
    obtain ⟨hsizes, -, hlines, hfinal⟩ := hstrict
    obtain ⟨n, hbare⟩ := hsizes _ mem_cons_self
    obtain rfl := hbare.eq hs hsize
    obtain ⟨t, rfl, htrailers⟩ := ht.body hlines hfinal
    exact ⟨_, (append_assoc ..).symm, .last hbare htrailers⟩
  | chunk hl hs hsize hne _ hgap _ ih =>
    obtain ⟨hsizes, hgaps, hlines, hfinal⟩ := hstrict
    obtain ⟨hlast, hlater⟩ := forall_mem_cons.mp hsizes
    obtain ⟨⟨n, hbare⟩, hmore⟩ := forall_mem_cons.mp hlater
    obtain ⟨rfl, hrest⟩ := forall_mem_cons.mp hgaps
    obtain rfl := hbare.eq hs hsize
    obtain ⟨used, rfl, hbody⟩ := ih ⟨forall_mem_cons.mpr ⟨hlast, hmore⟩, hrest, hlines, hfinal⟩
    exact ⟨_, by simp only [append_assoc], .chunk hbare hne hbody⟩

/-! ## The two codings -/

/-- Where a stream begins with a body of the standard, a body in chunked coding ends with it. -/
theorem ChunkedCoding.eq_body (h : ChunkedCoding t) (hbody : ChunkedBody data used) (he : t ++ rest = used ++ more) :
    t = used ∧ rest = more := by
  obtain ⟨cut, hcuts⟩ := h.cuts rest
  obtain ⟨-, rfl⟩ := hcuts.strict hbody he
  exact ⟨append_cancel_right he, rfl⟩

/-- A body of the standard is in chunked coding. -/
theorem ChunkedBody.coding (h : ChunkedBody data used) : ChunkedCoding used := by
  obtain ⟨cut, hcuts, -⟩ := h.cuts []
  obtain ⟨t, ht, -, ⟨-, hcoding⟩ | ⟨-, hend, -⟩⟩ := hcuts.coding
  · rwa [append_cancel_right ht]
  · cases hend

end Ferroly.Http
