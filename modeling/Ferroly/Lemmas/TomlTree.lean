import Ferroly.Lemmas.TomlInline

/-!
# Rebuilding the tree of a TOML document

While a document is read back, the table of the last header is the last entry of its parent table, or of the last element of its
parent's array of tables, and so on up to the root. `plug` puts a table at the end of such a chain. The statements then act on the
table at the end, and the chain grows by a frame at each header.
-/

namespace Ferroly

open List

variable {D : F64Display}

namespace Toml

variable {doc : Doc} {path : List Str} {k : Str} {t : Table}

/-! ## Chains of open tables -/

/-- One step towards the open table: the entries before it, its key, and the earlier elements when it is one of an array of
tables. -/
structure Frame where
  before : Table
  key : Str
  items : Option (List Value)
  fresh : key ∉ before.map Prod.fst

/-- The value of an open entry. -/
def Frame.value (fr : Frame) (t : Table) : Value :=
  match fr.items with
  | none => .object t
  | some a => .array (a ++ [.object t])

/-- The table around an open one. -/
def Frame.plug (fr : Frame) (t : Table) : Table := fr.before ++ [(fr.key, fr.value t)]

/-- The document around an open table. -/
def plug (sp : List Frame) (t : Table) : Table := sp.foldr Frame.plug t

/-- The path to the open table. -/
def keys (sp : List Frame) : List Str := sp.map Frame.key

variable (sp : List Frame) (fr : Frame)

theorem plug_snoc (t : Table) : plug (sp ++ [fr]) t = plug sp (fr.plug t) := by
  simp [plug]

theorem keys_snoc : keys (sp ++ [fr]) = keys sp ++ [fr.key] := by
  simp [keys]

theorem position_eq_none (h : k ∉ t.map Prod.fst) : position k t = none := by
  rw [position, findIdx?_eq_none_iff]
  intro e he
  exact beq_false_of_ne (fun hk => h (mem_map.mpr ⟨e, he, hk⟩))

variable {v : Value}

variable {before after : Table}

theorem position_at (h : k ∉ before.map Prod.fst) : position k (before ++ (k, v) :: after) = some before.length := by
  have hnone := position_eq_none h
  rw [position] at hnone ⊢
  rw [findIdx?_append, hnone]
  simp [findIdx?_cons]

theorem modifyEntry_at (g : Value → Except CodecError Value) :
    modifyEntry g (before ++ (k, v) :: after) before.length = (g v).map (fun w => before ++ (k, w) :: after) := by
  simp [modifyEntry]

variable (f : Table → Except CodecError Table)

theorem Frame.descend_value (seg : Str) : descend f (fr.value t) seg = (f t).map fr.value := by
  unfold Frame.value
  cases fr.items with
  | none => rfl
  | some a => simp [descend]

theorem exceptMap_map {ε α β γ : Type} (f : α → β) (g : β → γ) (x : Except ε α) : (x.map f).map g = x.map (fun a => g (f a)) := by
  cases x <;> rfl

/-- One step towards any table of a document: a frame, and the entries after it. -/
structure Spot extends Frame where
  after : Table

/-- The table around the one at a spot. -/
def Spot.plug (s : Spot) (t : Table) : Table := s.before ++ (s.key, s.value t) :: s.after

variable (s : Spot) (path : List Str)

theorem resolve_spot (t : Table) : resolve f (s.key :: path) (s.plug t) = (resolve f path t).map s.plug := by
  rw [resolve, Spot.plug, position_at s.fresh]
  simp only [modifyEntry_at, Frame.descend_value, exceptMap_map]
  rfl

theorem getOrCreate_spot (t : Table) : getOrCreate f (s.key :: path) (s.plug t) = (getOrCreate f path t).map s.plug := by
  rw [getOrCreate, Spot.plug, position_at s.fresh]
  simp only [modifyEntry_at, Frame.descend_value, exceptMap_map]
  rfl

variable {path}

/-- The path of the open table leads to it. -/
theorem resolve_plug {f : Table → Except CodecError Table} {u : Table} (h : f t = .ok u) :
    resolve f (keys sp) (plug sp t) = .ok (plug sp u) := by
  induction sp with
  | nil => exact h
  | cons fr sp ih =>
    have := resolve_spot f ⟨fr, []⟩ (keys sp) (plug sp t)
    rw [ih] at this
    exact this

theorem getOrCreate_plug {f : Table → Except CodecError Table} {u : Table} (h : getOrCreate f path t = .ok u) :
    getOrCreate f (keys sp ++ path) (plug sp t) = .ok (plug sp u) := by
  induction sp with
  | nil => exact h
  | cons fr sp ih =>
    have := getOrCreate_spot f ⟨fr, []⟩ (keys sp ++ path) (plug sp t)
    rw [ih] at this
    exact this

/-! ## What headers do -/

/-- The open table gets a subtable. -/
def Frame.table (t : Table) (k : Str) (h : k ∉ t.map Prod.fst) : Frame := ⟨t, k, none, h⟩

/-- The open table gets another element of an array of tables. -/
def Frame.element (t : Table) (k : Str) (a : List Value) (h : k ∉ t.map Prod.fst) : Frame := ⟨t, k, some a, h⟩

@[simp] theorem Frame.table_key (h : k ∉ t.map Prod.fst) : (Frame.table t k h).key = k := rfl

variable {u : Table}

@[simp] theorem Frame.table_plug (h : k ∉ t.map Prod.fst) : (Frame.table t k h).plug u = t ++ [(k, .object u)] := rfl

variable {a : List Value}

@[simp] theorem Frame.element_key (h : k ∉ t.map Prod.fst) : (Frame.element t k a h).key = k := rfl

@[simp] theorem Frame.element_plug (h : k ∉ t.map Prod.fst) :
    (Frame.element t k a h).plug u = t ++ [(k, .array (a ++ [.object u]))] := rfl

/-- A segment that no entry has leads to a new table. -/
theorem getOrCreate_new (h : k ∉ t.map Prod.fst) :
    getOrCreate f (k :: path) t = (getOrCreate f path []).map (Frame.table t k h).plug := by
  rw [getOrCreate, position_eq_none h]
  simp only [length_append, length_singleton, Nat.add_sub_cancel, modifyEntry_at]
  exact exceptMap_map _ _ _

/-- A header of a new table opens it. -/
theorem getOrCreate_header (h : k ∉ t.map Prod.fst) :
    getOrCreate .ok (keys (sp ++ [Frame.table t k h])) (plug sp t) = .ok (plug (sp ++ [Frame.table t k h]) []) := by
  rw [keys_snoc, plug_snoc]
  exact getOrCreate_plug sp (getOrCreate_new _ h)

theorem appendArrayTable_snoc (root : Table) : appendArrayTable (path ++ [k]) root = getOrCreate (pushTable k) path root := by
  simp [appendArrayTable]

/-- A header of an element of an array of tables opens it, in a table that the element can be added to. -/
theorem appendArrayTable_open {s : Table} {h : k ∉ t.map Prod.fst} (hs : pushTable k s = .ok ((Frame.element t k a h).plug [])) :
    appendArrayTable (keys (sp ++ [Frame.element t k a h])) (plug sp s) = .ok (plug (sp ++ [Frame.element t k a h]) []) := by
  rw [keys_snoc, plug_snoc, appendArrayTable_snoc, ← append_nil (keys sp)]
  exact getOrCreate_plug sp hs

theorem pushTable_first (h : k ∉ t.map Prod.fst) : pushTable k t = .ok ((Frame.element t k [] h).plug []) := by
  rw [pushTable, position_eq_none h]
  simp only [length_append, length_singleton, Nat.add_sub_cancel, modifyEntry_at]
  rfl

theorem pushTable_next (h : k ∉ t.map Prod.fst) :
    pushTable k (t ++ (k, .array a) :: after) = .ok (Spot.plug ⟨Frame.element t k a h, after⟩ []) := by
  rw [pushTable, position_at h]
  simp only [getElem?_append_right (Nat.le_refl _), Nat.sub_self, modifyEntry_at]
  rfl

/-! ## Statements -/

/-- A line adds its entry to the open table. -/
theorem reads_statement_line {e : Str × Value} (hnull : e.2.isNull = false) (henc : isEncodable e.2 = true)
    (hdepth : e.2.depth ≤ MAX_DEPTH) (hfresh : e.1 ∉ t.map Prod.fst) (rest : Bytes) :
    Reads (statement ⟨plug sp t, keys sp⟩) (utf8 (entryText D e ++ ['\n'])) rest
      ⟨plug sp (t ++ [(e.1, canonical e.2)]), keys sp⟩ := by
  have hbytes : utf8 (entryText D e ++ ['\n']) = (utf8 (pathText [e.1]) ++ [byte ' ']) ++
      (([] ++ [byte '=']) ++ ([byte ' '] ++ (utf8 (inlineText D e.2) ++ [byte '\n']))) := by
    have hsep : utf8 " = ".toList = [byte ' ', byte '=', byte ' '] := by decide
    have hnl : utf8 ['\n'] = [byte '\n'] := by decide
    simp only [entryText, utf8_append, hsep, hnl, pathText]
    simp
  have hval : Reads parseValue (utf8 (inlineText D e.2)) ([byte '\n'] ++ rest) (canonical e.2) :=
    readsInline e.2 hnull henc _ 0 _ (by omega) hdepth (by rintro a ⟨⟩; decide)
  have hset := resolve_plug sp (setNested_single (canonical e.2) hfresh)
  refine .peek (.ite_neg ?_ ?_)
  · rw [utf8_append, append_assoc]
    exact entryText_ne D e _ (by decide) (by decide)
  rw [hbytes]
  refine .bind (reads_parseKeyPath (cons_ne_nil _ _) isInlineWs_space (stops_cons _ (by decide))) ?_
  refine .bind_nil (reads_skipInlineWs (by simp) (stops_cons _ (by decide))) ?_
  refine .bind (reads_expect (by simp) (by decide)) (.bind (reads_skipInlineWs isInlineWs_space ?_) (.bind hval ?_))
  · rw [append_assoc]
    exact (startsValue_inlineText D e.2).stops (fun _ => isInlineWs_of_not_blank) _
  exact .bind_nil (reads_lift hset) (.then reads_finishLine (reads_pure _))

variable {rest : Bytes}

theorem pathText_ne (hp : path ≠ []) {q : UInt8} (hq : isBareByte q = false) (hquote : q ≠ byte '"') :
    (utf8 (pathText path) ++ rest).head? ≠ some q := by
  rcases path with _ | ⟨k, _ | ⟨l, path⟩⟩
  · exact absurd rfl hp
  · exact keyRepr_ne k hq hquote
  · rw [pathText_cons_cons, utf8_append, append_assoc]
    exact keyRepr_ne k hq hquote

/-- A header opens the table it names. -/
theorem reads_statement_table {root : Table} (hp : path ≠ []) (hroot : getOrCreate .ok path doc.root = .ok root) :
    Reads (statement doc) (utf8 ('[' :: (pathText path ++ "]\n".toList))) rest ⟨root, path⟩ := by
  have hnil : ∀ a ∈ ([] : Bytes), isInlineWs a = true := by simp
  have hbytes : utf8 ('[' :: (pathText path ++ "]\n".toList)) =
      [byte '['] ++ ((utf8 (pathText path) ++ []) ++ (([] ++ [byte ']']) ++ [byte '\n'])) := by
    have hend : utf8 "]\n".toList = [byte ']', byte '\n'] := by decide
    rw [utf8_cons_ascii (by decide), utf8_append, hend]
    simp
  rw [hbytes]
  refine .peek (.ite_pos rfl (.bind (reads_bump _) (.peek (.ite_neg ?_ ?_))))
  · rw [append_nil, append_assoc]
    exact pathText_ne hp (by decide) (by decide)
  refine .bind (reads_parseKeyPath hp hnil (stops_cons _ (by decide))) (.bind (reads_expect hnil (by decide)) ?_)
  exact .bind_nil (reads_lift hroot) (.then reads_finishLine (reads_pure _))

/-- A header of an element of an array of tables opens the element. -/
theorem reads_statement_element {root : Table} (hp : path ≠ []) (hroot : appendArrayTable path doc.root = .ok root) (rest : Bytes) :
    Reads (statement doc) (utf8 ('[' :: '[' :: (pathText path ++ "]]\n".toList))) rest ⟨root, path⟩ := by
  have hnil : ∀ a ∈ ([] : Bytes), isInlineWs a = true := by simp
  have hbytes : utf8 ('[' :: '[' :: (pathText path ++ "]]\n".toList)) = [byte '['] ++ ([byte '['] ++
      ((utf8 (pathText path) ++ []) ++ (([] ++ [byte ']']) ++ (([] ++ [byte ']']) ++ [byte '\n'])))) := by
    have hend : utf8 "]]\n".toList = [byte ']', byte ']', byte '\n'] := by decide
    rw [utf8_cons_ascii (by decide), utf8_cons_ascii (by decide), utf8_append, hend]
    simp
  rw [hbytes]
  refine .peek (.ite_pos rfl (.bind (reads_bump _) (.peek (.ite_pos rfl ?_))))
  refine .bind (reads_bump _) (.bind (reads_parseKeyPath hp hnil (stops_cons _ (by decide))) ?_)
  refine .bind (reads_expect hnil (by decide)) (.bind (reads_expect hnil (by decide)) ?_)
  exact .bind_nil (reads_lift hroot) (.then reads_finishLine (reads_pure _))

/-! ## Runs -/

/-- On `text`, the parser comes from one document to another. -/
def Runs (doc : Doc) (text : Str) (doc' : Doc) : Prop :=
  ∀ rest pos fuel, (utf8 text ++ rest).length < fuel → ∃ pos' fuel', rest.length < fuel' ∧
    parseLoop fuel doc ⟨utf8 text ++ rest, pos⟩ = parseLoop fuel' doc' ⟨rest, pos'⟩

theorem Runs.refl (doc : Doc) : Runs doc [] doc := fun _ pos fuel h => ⟨pos, fuel, h, rfl⟩

theorem Runs.trans {doc' doc'' : Doc} {s t : Str} (h : Runs doc s doc') (h' : Runs doc' t doc'') : Runs doc (s ++ t) doc'' := by
  intro rest pos fuel hf
  rw [utf8_append, append_assoc] at hf ⊢
  obtain ⟨pos1, fuel1, hf1, h1⟩ := h (utf8 t ++ rest) pos fuel hf
  obtain ⟨pos2, fuel2, hf2, h2⟩ := h' rest pos1 fuel1 hf1
  exact ⟨pos2, fuel2, hf2, h1.trans h2⟩

/-- A text on which the parser comes to a document is read as that document. -/
theorem Runs.fromStr {text : Str} (h : Runs ⟨[], []⟩ text doc) : fromStr text = .ok (.object doc.root) := by
  obtain ⟨pos, fuel, hfuel, hloop⟩ := h [] 0 ((utf8 text).length + 1) (by
    rw [append_nil]
    exact Nat.lt_succ_self _)
  rcases fuel with _ | fuel
  · omega
  rw [append_nil] at hloop
  have hend : parseLoop (fuel + 1) doc ⟨[], pos⟩ = .ok (doc, ⟨[], pos⟩) := rfl
  rw [Toml.fromStr]
  simp only [Parser.new, hloop.trans hend]

/-- One statement, after blank lines. -/
theorem Runs.statement {doc' : Doc} {ws t : Str} (hws : ∀ c ∈ ws, c = '\n') (hne : t ≠ [])
    (hstop : ∀ rest, Stops isBlank (utf8 t ++ rest)) (h : ∀ rest, Reads (statement doc) (utf8 t) rest doc') :
    Runs doc (ws ++ t) doc' := by
  intro rest pos fuel hf
  rcases fuel with _ | fuel
  · omega
  have hskip : Reads skipWsNlComments (utf8 ws) (utf8 t ++ rest) () := by
    refine reads_skipWsNlComments (fun a ha => .inr ?_) (hstop rest)
    have hascii : ∀ c ∈ ws, c.toNat < 0x80 := by
      intro c hc
      rw [hws c hc]
      decide
    rw [utf8_ascii hascii] at ha
    obtain ⟨c, hc, rfl⟩ := mem_map.mp ha
    rw [hws c hc]
  obtain ⟨pos1, h1⟩ := hskip pos
  obtain ⟨pos2, h2⟩ := h rest pos1
  have hlen := length_le_utf8 t
  have hpos : 0 < t.length := length_pos_iff.mpr hne
  have hhead : (utf8 t ++ rest).head? ≠ none := by
    rw [ne_eq, head?_eq_none_iff, append_eq_nil_iff, ← length_eq_zero_iff]
    omega
  refine ⟨pos2, fuel, ?_, ?_⟩
  · simp only [utf8_append, length_append] at hf
    omega
  · have hpeek : peek ⟨utf8 t ++ rest, pos1⟩ = .ok ((utf8 t ++ rest).head?, ⟨utf8 t ++ rest, pos1⟩) := rfl
    rw [utf8_append, append_assoc, parseLoop, Run.bind_of_ok h1, Run.bind_of_ok hpeek, if_neg hhead, Run.bind_of_ok h2]

/-! ## Tables -/

/-- The entries of a table that stand on lines, as they are read back. -/
def lineEntries (o : Table) : Table := (o.filter isLine).map (fun e => (e.1, canonical e.2))

mutual

/-- A subtable or an array of tables, as it is read back: lines first. -/
def sectionForm : Value → Value
  | .object o => .object (lineEntries o ++ sectionEntries o)
  | .array a => .array (elementForms a)
  | v => v

/-- The entries of a table that have headers of their own, as they are read back. -/
def sectionEntries : Table → Table
  | [] => []
  | (k, v) :: o => if isSection v then (k, sectionForm v) :: sectionEntries o else sectionEntries o

def elementForms : List Value → List Value
  | [] => []
  | v :: a => sectionForm v :: elementForms a

end

variable {o : Table}

theorem sectionEntries_eq : sectionEntries o = (o.filter (fun e => isSection e.2)).map (fun e => (e.1, sectionForm e.2)) := by
  induction o with
  | nil => rfl
  | cons e o ih =>
    obtain ⟨k, v⟩ := e
    rw [sectionEntries, ih]
    cases hv : isSection v with
    | true | false => simp [hv]

theorem elementForms_eq_map (a : List Value) : elementForms a = a.map sectionForm := by
  induction a with
  | nil => rfl
  | cons v a ih => rw [elementForms, ih, map_cons]

theorem isLine_iff {e : Str × Value} : isLine e = true ↔ e.2.isNull = false ∧ isSection e.2 = false := by
  simp [isLine]

/-- Every entry that is not null is a line or a section. -/
theorem lines_sections_perm (o : Table) :
    (o.filter isLine ++ o.filter (fun e => isSection e.2)).Perm (o.filter (fun e => !e.2.isNull)) := by
  have hlines : o.filter isLine = (o.filter (fun e => !e.2.isNull)).filter (fun e => !isSection e.2) := by
    rw [filter_filter]
    refine filter_congr (fun e _ => ?_)
    rw [isLine, Bool.not_or, Bool.and_comm]
  have hsections : o.filter (fun e => isSection e.2) = (o.filter (fun e => !e.2.isNull)).filter (fun e => !(!isSection e.2)) := by
    rw [filter_filter]
    refine filter_congr (fun e _ => ?_)
    rcases e with ⟨k, v⟩
    cases v <;> simp [isSection, Value.isNull]
  rw [hlines, hsections]
  exact filter_append_perm _ _

/-- The table read back for a table. -/
def tableForm (o : Table) : Table := lineEntries o ++ sectionEntries o

/-- The lines of a table fill the open one. -/
theorem runs_lines (o : Table) (t : Table) (henc : ∀ e ∈ o, isEncodable e.2 = true)
    (hdepth : ∀ e ∈ o, isLine e = true → e.2.depth ≤ MAX_DEPTH) (hkeys : (t.map Prod.fst ++ (o.filter isLine).map Prod.fst).Nodup) :
    Runs ⟨plug sp t, keys sp⟩ (linesText D o) ⟨plug sp (t ++ lineEntries o), keys sp⟩ := by
  induction o generalizing t with
  | nil =>
    rw [lineEntries, filter_nil, map_nil, append_nil]
    exact .refl _
  | cons e o ih =>
    have ih := fun t => ih t (forall_mem_cons.mp henc).2 (forall_mem_cons.mp hdepth).2
    by_cases hline : isLine e = true
    · have hfilter : (e :: o).filter isLine = e :: o.filter isLine := filter_cons_of_pos hline
      have htext : linesText D (e :: o) = (entryText D e ++ ['\n']) ++ linesText D o := by
        rw [linesText, hfilter, flatMap_cons, linesText]
      have hform : t ++ lineEntries (e :: o) = (t ++ [(e.1, canonical e.2)]) ++ lineEntries o := by
        rw [lineEntries, hfilter, lineEntries]
        simp
      rw [hfilter] at hkeys
      have hstep : Runs ⟨plug sp t, keys sp⟩ ([] ++ (entryText D e ++ ['\n'])) ⟨plug sp (t ++ [(e.1, canonical e.2)]), keys sp⟩ := by
        refine .statement (by simp) (by simp) (fun rest => ?_) (fun rest => ?_)
        · rw [utf8_append, append_assoc]
          exact entryText_stops D e _
        · exact reads_statement_line sp (isLine_iff.mp hline).1 (henc e mem_cons_self) (hdepth e mem_cons_self hline)
            (not_mem_of_nodup_append hkeys) rest
      rw [htext, hform]
      refine hstep.trans (ih _ ?_)
      simpa using hkeys
    · have hfilter : (e :: o).filter isLine = o.filter isLine := filter_cons_of_neg hline
      rw [hfilter] at hkeys
      rw [linesText, lineEntries, hfilter]
      exact ih t hkeys

/-- The text of a table, after its header, fills the table that is open. -/
def TableRuns (D : FloatDisplay binary64) (o : Table) : Prop :=
  ∀ sp, ∃ cur, Runs ⟨plug sp [], keys sp⟩ (tableText D o (pathText (keys sp))) ⟨plug sp (tableForm o), cur⟩

theorem keys_snoc_ne_nil : keys (sp ++ [fr]) ≠ [] := by
  rw [keys_snoc]
  exact append_ne_nil_of_right_ne_nil _ (cons_ne_nil _ _)

theorem runs_subtable (hu : TableRuns D u) (sp : List Frame) (h : k ∉ t.map Prod.fst) (cur : List Str) :
    ∃ cur', Runs ⟨plug sp t, cur⟩
      ("\n[".toList ++ pathText (keys sp ++ [k]) ++ "]\n".toList ++ tableText D u (pathText (keys sp ++ [k])))
      ⟨plug sp (t ++ [(k, .object (tableForm u))]), cur'⟩ := by
  have hheader : Runs ⟨plug sp t, cur⟩ (['\n'] ++ '[' :: (pathText (keys (sp ++ [Frame.table t k h])) ++ "]\n".toList))
      ⟨plug (sp ++ [Frame.table t k h]) [], keys (sp ++ [Frame.table t k h])⟩ :=
    Runs.statement (by simp) (cons_ne_nil _ _) (fun rest => by rw [utf8_cons_ascii (by decide)]; exact stops_cons _ (by decide))
      (fun rest => reads_statement_table (keys_snoc_ne_nil _ _) (getOrCreate_header sp h))
  obtain ⟨cur', hbody⟩ := hu (sp ++ [Frame.table t k h])
  refine ⟨cur', ?_⟩
  have hrun := hheader.trans hbody
  rw [plug_snoc, keys_snoc] at hrun
  simpa using hrun

theorem runs_elements (hne : a ≠ []) (ha : ∀ v ∈ a, ∃ u, v = .object u ∧ TableRuns D u) (sp : List Frame)
    (h : k ∉ t.map Prod.fst) (acc : List Value) {s : Table}
    (hs : pushTable k s = .ok ((Frame.element t k acc h).plug [])) (cur : List Str) :
    ∃ cur', Runs ⟨plug sp s, cur⟩ (a.flatMap (elementText D (pathText (keys sp ++ [k]))))
      ⟨plug sp (t ++ [(k, .array (acc ++ a.map sectionForm))]), cur'⟩ := by
  induction a generalizing acc s cur with
  | nil => exact absurd rfl hne
  | cons v a ih =>
    obtain ⟨u, rfl, hu⟩ := ha v mem_cons_self
    have hheader : Runs ⟨plug sp s, cur⟩
        (['\n'] ++ '[' :: '[' :: (pathText (keys (sp ++ [Frame.element t k acc h])) ++ "]]\n".toList))
        ⟨plug (sp ++ [Frame.element t k acc h]) [], keys (sp ++ [Frame.element t k acc h])⟩ :=
      Runs.statement (by simp) (cons_ne_nil _ _) (fun rest => by rw [utf8_cons_ascii (by decide)]; exact stops_cons _ (by decide))
        (fun rest => reads_statement_element (keys_snoc_ne_nil _ _) (appendArrayTable_open sp hs) rest)
    obtain ⟨cur1, hbody⟩ := hu (sp ++ [Frame.element t k acc h])
    have hrun : Runs ⟨plug sp s, cur⟩ (elementText D (pathText (keys sp ++ [k])) (.object u))
        ⟨plug sp (t ++ [(k, .array (acc ++ [sectionForm (.object u)]))]), cur1⟩ := by
      have hrun := hheader.trans hbody
      rw [plug_snoc, keys_snoc] at hrun
      simpa [elementText, sectionForm, tableForm] using hrun
    rw [flatMap_cons]
    rcases a with _ | ⟨w, a⟩
    · exact ⟨cur1, by simpa using hrun⟩
    · obtain ⟨cur2, hnext⟩ := ih (cons_ne_nil _ _) (forall_mem_cons.mp ha).2
        (acc ++ [sectionForm (.object u)]) (pushTable_next h) cur1
      refine ⟨cur2, hrun.trans ?_⟩
      simpa using hnext

/-- A subtable or an array of tables is added to the open table. -/
theorem runs_section (hsec : isSection v = true) (ho : ∀ u, v = .object u → TableRuns D u)
    (ha : ∀ a, v = .array a → ∀ u, .object u ∈ a → TableRuns D u) (sp : List Frame) (h : k ∉ t.map Prod.fst)
    (cur : List Str) :
    ∃ cur', Runs ⟨plug sp t, cur⟩ (sectionText D v (pathText (keys sp ++ [k]))) ⟨plug sp (t ++ [(k, sectionForm v)]), cur'⟩ := by
  cases v with
  | object u =>
    have hne : ¬u.isEmpty = true := by simpa [isSection] using hsec
    rw [sectionText, if_neg hne]
    exact runs_subtable (ho u rfl) sp h cur
  | array a =>
    have hsec : isArrayOfTables a = true := hsec
    rw [sectionText, if_pos hsec, sectionForm, elementForms_eq_map]
    simp only [isArrayOfTables, Bool.and_eq_true, Bool.not_eq_true', isEmpty_eq_false_iff, all_eq_true] at hsec
    refine runs_elements hsec.1 (fun w hw => ?_) sp h [] (pushTable_first h) cur
    have hobj := hsec.2 w hw
    cases w with
    | object u => exact ⟨u, rfl, ha a rfl u hw⟩
    | _ => cases hobj
  | _ => cases hsec

theorem sectionText_of_not (h : isSection v = false) (header : Str) : sectionText D v header = [] := by
  cases v with
  | object o | array a => simp_all [isSection, sectionText]
  | _ => rfl

theorem runs_sections (o : Table) (ho : ∀ e ∈ o, isSection e.2 = true → ∀ u, e.2 = .object u → TableRuns D u)
    (ha : ∀ e ∈ o, isSection e.2 = true → ∀ a, e.2 = .array a → ∀ u, .object u ∈ a → TableRuns D u) (t : Table)
    (hkeys : (t.map Prod.fst ++ (o.filter (fun e => isSection e.2)).map Prod.fst).Nodup) (cur : List Str) :
    ∃ cur', Runs ⟨plug sp t, cur⟩ (o.flatMap (fun e => sectionText D e.2 (pathText (keys sp ++ [e.1]))))
      ⟨plug sp (t ++ sectionEntries o), cur'⟩ := by
  induction o generalizing t cur with
  | nil =>
    rw [sectionEntries, append_nil]
    exact ⟨cur, Runs.refl _⟩
  | cons e o ih =>
    have ih := ih (forall_mem_cons.mp ho).2 (forall_mem_cons.mp ha).2
    rw [flatMap_cons, sectionEntries]
    by_cases hsec : isSection e.2 = true
    · have hfilter : (e :: o).filter (fun e => isSection e.2) = e :: o.filter (fun e => isSection e.2) :=
        filter_cons_of_pos hsec
      rw [hfilter] at hkeys
      obtain ⟨cur1, hrun⟩ := runs_section hsec (ho e mem_cons_self hsec) (ha e mem_cons_self hsec) sp
        (not_mem_of_nodup_append hkeys) cur
      obtain ⟨cur2, hnext⟩ := ih (t ++ [(e.1, sectionForm e.2)]) (by simpa using hkeys) cur1
      refine ⟨cur2, ?_⟩
      rw [if_pos hsec]
      have := hrun.trans hnext
      rwa [append_assoc] at this
    · have hfilter : (e :: o).filter (fun e => isSection e.2) = o.filter (fun e => isSection e.2) :=
        filter_cons_of_neg hsec
      rw [hfilter] at hkeys
      rw [if_neg hsec, sectionText_of_not (Bool.eq_false_of_not_eq_true hsec)]
      exact ih t hkeys cur

/-- Every table that TOML can show is filled by its text. -/
theorem tableRuns (D : F64Display) (o : Table) (henc : isEncodable (.object o) = true)
    (hdeep : inlineShallow o = true) : TableRuns D o := by
  induction o using Table.ind with
  | step o ho ha =>
    obtain ⟨hkeys, henc⟩ := isEncodable_object.mp henc
    rw [inlineShallow_iff] at hdeep
    intro sp
    have hline : ∀ e ∈ o, isLine e = true → e.2.depth ≤ MAX_DEPTH := by
      intro e he hl
      have := hdeep e he
      rwa [(isLine_iff.mp hl).2, if_neg Bool.false_ne_true] at this
    have hdeep : ∀ e ∈ o, isSection e.2 = true → sectionShallow e.2 = true := by
      intro e he hsec
      have := hdeep e he
      rwa [if_pos hsec] at this
    have ho : ∀ e ∈ o, isSection e.2 = true → ∀ u, e.2 = .object u → TableRuns D u := by
      intro e he hsec u hu
      have h1 := henc e he
      have h2 := hdeep e he hsec
      rw [hu] at h1 h2
      exact ho e he u hu h1 h2
    have ha : ∀ e ∈ o, isSection e.2 = true → ∀ a, e.2 = .array a → ∀ u, .object u ∈ a → TableRuns D u := by
      intro e he hsec a hea u hu
      have h1 := henc e he
      have h2 := hdeep e he hsec
      rw [hea] at h1 h2
      exact ha e he a hea u hu (allEncodable_iff.mp h1 _ hu).2 (tablesShallow_iff.mp h2 _ hu)
    have hdisjoint : ((lineEntries o).map Prod.fst ++ (o.filter (fun e => isSection e.2)).map Prod.fst).Nodup := by
      have hnonnull : ((o.filter (fun e => !e.2.isNull)).map Prod.fst).Nodup := hkeys.sublist (filter_sublist.map _)
      have := ((lines_sections_perm o).map Prod.fst).nodup_iff.mpr hnonnull
      rw [lineEntries, map_map]
      rwa [map_append] at this
    have hlines := runs_lines (D := D) sp o [] henc hline (hkeys.sublist (filter_sublist.map _))
    obtain ⟨cur, hsections⟩ := runs_sections sp o ho ha (lineEntries o) hdisjoint (keys sp)
    refine ⟨cur, ?_⟩
    rw [tableText, sectionsText_eq]
    simp only [headerJoin_pathText]
    exact hlines.trans hsections

/-! ## The order of keys -/

/-- How a value of a table is read back. -/
def entryForm (v : Value) : Value := if isSection v then sectionForm v else canonical v

theorem tableForm_perm : ((o.filter (fun e => !e.2.isNull)).map (fun e => (e.1, entryForm e.2))).Perm (tableForm o) := by
  have hlines : lineEntries o = (o.filter isLine).map (fun e => (e.1, entryForm e.2)) := by
    refine map_congr_left (fun e he => ?_)
    rw [entryForm, (isLine_iff.mp (mem_filter.mp he).2).2, if_neg Bool.false_ne_true]
  have hsections : sectionEntries o = (o.filter (fun e => isSection e.2)).map (fun e => (e.1, entryForm e.2)) := by
    rw [sectionEntries_eq]
    refine map_congr_left (fun e he => ?_)
    have hsec : isSection e.2 = true := (mem_filter.mp he).2
    rw [entryForm, if_pos hsec]
  rw [tableForm, hlines, hsections, ← map_append]
  exact ((lines_sections_perm o).map _).symm

theorem sameUpToKeyOrder_entryForm (ho : ∀ u, v = .object u → SameUpToKeyOrder (canonical (.object u)) (.object (tableForm u)))
    (ha : ∀ a, v = .array a → ∀ u, .object u ∈ a → SameUpToKeyOrder (canonical (.object u)) (.object (tableForm u))) :
    SameUpToKeyOrder (canonical v) (entryForm v) := by
  unfold entryForm
  split
  · next hsec =>
    cases v with
    | object u => exact ho u rfl
    | array a =>
      have hall : a.all (fun v => v.asObject.isSome) = true := (Bool.and_eq_true _ _ ▸ hsec : _ ∧ _).2
      rw [canonical, canonicalList_eq_map, sectionForm, elementForms_eq_map]
      refine SameUpToKeyOrder.array ?_
      rw [forall₂_map_left_iff, forall₂_map_right_iff, forall₂_same]
      intro w hw
      have hobj := all_eq_true.mp hall w hw
      cases w with
      | object u => exact ha a rfl u hw
      | _ => cases hobj
    | _ => cases hsec
  · exact SameUpToKeyOrder.refl _

/-- What a table reads back as is the table in canonical form, up to the order of keys. -/
theorem sameUpToKeyOrder_tableForm : SameUpToKeyOrder (canonical (.object o)) (.object (tableForm o)) := by
  induction o using Table.ind with
  | step o ho ha =>
    rw [canonical, canonicalEntries_eq]
    refine SameUpToKeyOrder.object ?_ ?_ tableForm_perm
    · simp
    · rw [map_map, map_map, forall₂_map_left_iff, forall₂_map_right_iff, forall₂_same]
      intro e he
      have hmem := (mem_filter.mp he).1
      exact sameUpToKeyOrder_entryForm (ho e hmem) (ha e hmem)

end Toml

end Ferroly
