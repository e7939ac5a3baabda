import Ferroly.Lemmas.TomlRead

/-!
# Reading inline values of TOML

An inline value is read back, whatever follows it as long as that ends a token, up to the nesting limit: without its null entries
and with its integers in canonical form.
-/

namespace Ferroly.Toml

open List

variable {rest : Bytes} {D : F64Display} {depth fuel : Nat} {value : P Value} {t whole : Str}

/-! ## How a value begins -/

/-- What an inline value begins with: nothing that is skipped before a value, and no closing bracket. -/
def StartsValue (t : Str) : Prop :=
  ∃ c s, t = c :: s ∧ c.toNat < 0x80 ∧ isBlank (byte c) = false ∧ byte c ≠ byte ']'

theorem StartsValue.stops {q : UInt8 → Bool} (h : StartsValue t) (hq : ∀ a, isBlank a = false → q a = false) (rest : Bytes) :
    Stops q (utf8 t ++ rest) := by
  obtain ⟨c, s, rfl, hc, hb, -⟩ := h
  rw [utf8_cons_ascii hc]
  exact stops_cons _ (hq _ hb)

theorem StartsValue.head (h : StartsValue t) (rest : Bytes) : (utf8 t ++ rest).head? ≠ some (byte ']') := by
  obtain ⟨c, s, rfl, hc, -, hne⟩ := h
  rw [utf8_cons_ascii hc]
  simpa using hne

variable {a : UInt8}

theorem isInlineWs_of_not_blank (h : isBlank a = false) : isInlineWs a = false := by
  simp only [isBlank, Bool.or_eq_false_iff] at h
  exact h.1.1

/-- The bytes that begin a value other than a bare token. -/
def openers : List UInt8 := [byte '"', byte '\'', byte '[', byte '\x7b']

theorem numeral_byte {c : Char} (h : c = '-' ∨ c.isDigit = true) :
    c.toNat < 0x80 ∧ isBlank (byte c) = false ∧ byte c ≠ byte ']' ∧ byte c ∉ openers := by
  have hall : ∀ n < 58, n = 45 ∨ 48 ≤ n → isBlank (UInt8.ofNat n) = false ∧ UInt8.ofNat n ≠ byte ']' ∧
      UInt8.ofNat n ∉ openers := by decide
  have hn : c.toNat = 45 ∨ 48 ≤ c.toNat ∧ c.toNat ≤ 57 := by
    rcases h with rfl | h
    · exact .inl rfl
    · exact .inr (isDigit_toNat h)
  exact ⟨by omega, hall c.toNat (by omega) (by omega)⟩

theorem plainText_head (neg : Bool) (part : Str) (hne : whole ≠ []) (hw : ∀ c ∈ whole, c.isDigit = true) :
    ∃ c s, plainText neg whole part = c :: s ∧ (c = '-' ∨ c.isDigit = true) := by
  cases neg with
  | true => exact ⟨'-', _, rfl, .inl rfl⟩
  | false =>
    obtain ⟨c, w, rfl⟩ := exists_cons_of_ne_nil hne
    exact ⟨c, _, rfl, .inr (hw c mem_cons_self)⟩

theorem startsValue_plainText (neg : Bool) (part : Str) (hne : whole ≠ []) (hw : ∀ c ∈ whole, c.isDigit = true) :
    StartsValue (plainText neg whole part) := by
  obtain ⟨c, s, hs, hc⟩ := plainText_head neg part hne hw
  obtain ⟨hascii, hblank, hclose, -⟩ := numeral_byte hc
  exact ⟨c, s, hs, hascii, hblank, hclose⟩

variable (v : Value)

/-- Every inline value begins as one. -/
theorem startsValue_inlineText (D : F64Display) (v : Value) : StartsValue (inlineText D v) := by
  have hint : ∀ neg n, StartsValue (plainText neg (Nat.toDigits 10 n) []) := fun neg n =>
    startsValue_plainText neg [] Nat.toDigits_ne_nil (isDigit_toDigits n)
  cases v with
  | null => exact ⟨'"', _, rfl, by decide⟩
  | bool b =>
    cases b with
    | false => exact ⟨'f', _, rfl, by decide⟩
    | true => exact ⟨'t', _, rfl, by decide⟩
  | int i =>
    have := hint (decide (i.val < 0)) i.val.natAbs
    rw [inlineText, writeInline, Fmt.writeI64_eq, Fmt.signText]
    simpa [plainText] using this
  | uint u =>
    have := hint false u.val
    rw [inlineText, writeInline, Fmt.writeU64_eq]
    simpa [plainText] using this
  | float f =>
    rw [inlineText, writeInline]
    rcases f.finite_or_special with hf | rfl | rfl | rfl
    · obtain ⟨neg, whole, part, htext, hne, hw, -⟩ := writeFloat_plain D hf
      rw [htext]
      exact startsValue_plainText neg part hne hw
    · exact ⟨'n', _, rfl, by decide⟩
    · exact ⟨'i', _, rfl, by decide⟩
    · exact ⟨'-', _, rfl, by decide⟩
  | str s =>
    rw [inlineText, writeInline, writeBasicString_eq]
    exact ⟨'"', _, rfl, by decide⟩
  | bytes b =>
    rw [inlineText, writeInline, writeBytesLoop_eq]
    exact ⟨'[', _, rfl, by decide⟩
  | array a =>
    rw [inlineText_array]
    exact ⟨'[', _, rfl, by decide⟩
  | object o =>
    rw [inlineText_object]
    split <;> exact ⟨'\x7b', _, rfl, by decide⟩

/-- An inline value is read back, with its integers in canonical form and without null entries, before a byte that ends a
token. -/
def ReadsInline (D : FloatDisplay binary64) (v : Value) : Prop :=
  ∀ fuel depth rest, v.depth < fuel → v.depth + depth ≤ MAX_DEPTH → (∀ a ∈ rest.head?, isAtomEnd a = true) →
    Reads (parseValueFuel fuel depth) (utf8 (inlineText D v)) rest (canonical v)

section

variable (hd : depth ≤ MAX_DEPTH) (hr : ∀ a ∈ rest.head?, isAtomEnd a = true)

include hd hr

/-- A bare token is read as its atom. -/
theorem reads_parseValueFuel_atom {c : Char} {s : Str} (ht : t = c :: s) (hc : c.toNat < 0x80)
    (hblank : isInlineWs (byte c) = false) (hopen : byte c ∉ openers) (htrim : trim t = t)
    (hend : ∀ a ∈ utf8 t, isAtomEnd a = false) :
    Reads (parseValueFuel (fuel + 1) depth) (utf8 t) rest (atom t) := by
  simp only [openers, mem_cons, not_mem_nil, or_false, not_or] at hopen
  obtain ⟨h1, h2, h3, h4⟩ := hopen
  have hhead : (utf8 t ++ rest).head? = some (byte c) := by
    rw [ht, utf8_cons_ascii hc]
    rfl
  have hstop : Stops isInlineWs (utf8 t ++ rest) := by
    intro a ha
    rw [hhead] at ha
    cases ha
    exact hblank
  refine .ite_neg (by omega) (.bind_nil (reads_skipInlineWs (by simp) hstop) (.peek ?_))
  rw [hhead]
  refine .ite_neg h1 (.ite_neg h2 (.ite_neg h3 (.ite_neg h4 ?_)))
  exact reads_parseAtom (by rw [ht]; exact cons_ne_nil _ _) htrim hend hr

/-! ## Numbers and words -/

theorem reads_parseValueFuel_number {neg : Bool} {part : Str} {v : Value} (ht : t = plainText neg whole part) (hne : whole ≠ [])
    (hw : ∀ c ∈ whole, c.isDigit = true) (hp : ∀ c ∈ part, c.isDigit = true) (ha : atom t = v) :
    Reads (parseValueFuel (fuel + 1) depth) (utf8 t) rest v := by
  subst ht ha
  obtain ⟨c, s, hs, hc⟩ := plainText_head neg part hne hw
  obtain ⟨hascii, hblank, -, hopen⟩ := numeral_byte hc
  obtain ⟨htrim, hend⟩ := plainText_token neg hw hp
  exact reads_parseValueFuel_atom hd hr hs hascii (isInlineWs_of_not_blank hblank) hopen htrim hend

theorem reads_parseValueFuel_int (i : I64) :
    Reads (parseValueFuel (fuel + 1) depth) (utf8 (inlineText D (.int i))) rest (.int i) := by
  rw [inlineText, writeInline, Fmt.writeI64_eq, nil_append]
  exact reads_parseValueFuel_number hd hr (signText_eq_plainText i) Nat.toDigits_ne_nil (isDigit_toDigits _) (by simp) (atom_int i)

theorem reads_parseValueFuel_uint (u : U64) :
    Reads (parseValueFuel (fuel + 1) depth) (utf8 (inlineText D (.uint u))) rest (canonical (.uint u)) := by
  rw [inlineText, writeInline, Fmt.writeU64_eq, nil_append, canonical]
  exact reads_parseValueFuel_number hd hr (toDigits_eq_plain _) Nat.toDigits_ne_nil (isDigit_toDigits _) (by simp) (atom_uint u)

theorem reads_parseValueFuel_float {f : F64} (hf : f.isNan = false) :
    Reads (parseValueFuel (fuel + 1) depth) (utf8 (inlineText D (.float f))) rest (.float f) := by
  rcases f.finite_or_special with hfin | rfl | rfl | rfl
  · obtain ⟨neg, whole, part, htext, hne, hw, hp, hpart, hparse⟩ := writeFloat_plain D hfin
    obtain ⟨hclean, hmark⟩ := decimalAtom_plainText neg hw hp
    have hatom : atom (inlineText D (.float f)) = .float f := by
      rw [inlineText, writeInline, htext, atom_plainText neg hw hp, decimalAtom, hclean, hmark, hparse]
      simp [hpart]
    exact reads_parseValueFuel_number hd hr htext hne hw hp hatom
  · cases hf
  · exact reads_parseValueFuel_atom hd hr (t := "inf".toList) rfl (by decide) (by decide) (by decide) (by decide)
      (forall_iff_forall_mem.mp (by decide))
  · exact reads_parseValueFuel_atom hd hr (t := "-inf".toList) rfl (by decide) (by decide) (by decide) (by decide)
      (forall_iff_forall_mem.mp (by decide))

theorem reads_parseValueFuel_bool (b : Bool) :
    Reads (parseValueFuel (fuel + 1) depth) (utf8 (inlineText D (.bool b))) rest (.bool b) := by
  cases b with
  | true =>
    exact reads_parseValueFuel_atom hd hr (t := "true".toList) rfl (by decide) (by decide) (by decide) (by decide)
      (forall_iff_forall_mem.mp (by decide))
  | false =>
    exact reads_parseValueFuel_atom hd hr (t := "false".toList) rfl (by decide) (by decide) (by decide) (by decide)
      (forall_iff_forall_mem.mp (by decide))

end

/-! ## Strings -/

variable {s : Str}

theorem not_tripleQuote (hr : ∀ a ∈ rest.head?, isAtomEnd a = true) :
    (utf8 "\"\"\"".toList).isPrefixOf (utf8 (quote s) ++ rest) = false := by
  have hq : utf8 "\"\"\"".toList = [byte '"', byte '"', byte '"'] := by decide
  rw [hq, utf8_quote]
  cases s with
  | nil =>
    cases rest with
    | nil => decide
    | cons a r =>
      have ha : a ≠ byte '"' := by
        rintro rfl
        exact absurd (hr _ rfl) (by decide)
      simp [List.isPrefixOf, Ne.symm ha]
  | cons c s =>
    have hsecond : ∃ a t, utf8 ((c :: s).flatMap escapeChar) = a :: t ∧ a ≠ byte '"' := by
      cases he : escapeOf c with
      | none =>
        have hbytes : utf8 ((c :: s).flatMap escapeChar) = String.utf8EncodeChar c ++ utf8 (s.flatMap escapeChar) := by
          simp [escapeChar, he, utf8_cons]
        have hne : String.utf8EncodeChar c ≠ [] := by
          rw [← length_pos_iff, String.length_utf8EncodeChar]
          exact c.utf8Size_pos
        obtain ⟨a, t, ht⟩ := exists_cons_of_ne_nil hne
        refine ⟨a, t ++ utf8 (s.flatMap escapeChar), by rw [hbytes, ht, cons_append], ?_⟩
        exact ne_byte_of_mem (by rw [ht]; exact mem_cons_self) (by decide) (escapeOf_special he).1
      | some e =>
        obtain ⟨t, rfl, -⟩ := reads_parseEscape he
        exact ⟨_, _, utf8_escape he, by decide⟩
    obtain ⟨a, t, ht, ha⟩ := hsecond
    rw [ht]
    simp [List.isPrefixOf, Ne.symm ha]

theorem reads_parseValueFuel_str (hd : depth ≤ MAX_DEPTH) (hr : ∀ a ∈ rest.head?, isAtomEnd a = true) :
    Reads (parseValueFuel (fuel + 1) depth) (utf8 (quote s)) rest (.str s) := by
  have hstop : Stops isInlineWs (utf8 (quote s) ++ rest) := by
    intro a ha
    cases ha
    decide
  have hstart : Reads (startsWith "\"\"\"".toList) [] (utf8 (quote s) ++ rest) false := by
    intro pos
    refine ⟨pos, ?_⟩
    rw [startsWith, nil_append, not_tripleQuote hr]
  refine .ite_neg (by omega) (.bind_nil (reads_skipInlineWs (by simp) hstop) (.peek ?_))
  refine .ite_pos rfl (.bind_nil hstart (.ite_neg (by simp) ?_))
  exact .then (reads_parseBasicString s rest) (reads_pure _)

/-! ## Arrays -/

theorem reads_skipWs_head (h : rest.head? = some a) (ha : isBlank a = false) : Reads skipWsNlComments [] rest () := by
  refine reads_skipWsNlComments (by simp) (fun c hc => ?_)
  rw [h] at hc
  cases hc
  exact ha

theorem utf8_joinSep_cons {α : Type} (f : α → Str) (x : α) (l : List α) (b : Bytes) :
    utf8 (joinSep true ((x :: l).map f)) ++ b = [byte ','] ++ ([byte ' '] ++ (utf8 (f x) ++ (utf8 (joinSep true (l.map f)) ++ b))) := by
  have hsep : utf8 ", ".toList = [byte ',', byte ' '] := by decide
  simp only [map_cons, joinSep, if_true, utf8_append, hsep]
  simp

/-- The loop over the elements of an array, from one of them on. -/
theorem reads_parseArrayLoop (a : List Value) (hread : ∀ w ∈ v :: a, ∀ rest, (∀ b ∈ rest.head?, isAtomEnd b = true) →
      Reads value (utf8 (inlineText D w)) rest (canonical w))
    (hstart : ∀ w ∈ v :: a, StartsValue (inlineText D w)) (acc : List Value) (hf : a.length < fuel) {ws : Bytes}
    (hws : ∀ b ∈ ws, isInlineWs b = true) (rest : Bytes) :
    Reads (parseArrayLoop value fuel acc)
      (ws ++ (utf8 (inlineText D v) ++ (utf8 (joinSep true (a.map (inlineText D))) ++ [byte ']']))) rest
      (acc ++ (v :: a).map canonical) := by
  induction fuel generalizing v a acc ws with
  | zero => cases hf
  | succ fuel ih =>
    have hv := hstart v mem_cons_self
    refine .bind (reads_skipWsNlComments (fun b hb => .inl (hws b hb)) ?_) ?_
    · rw [append_assoc]
      exact hv.stops (fun _ h => h) _
    refine .peek (.ite_neg (by rw [append_assoc]; exact hv.head _) ?_)
    cases a with
    | nil =>
      refine .bind (hread v mem_cons_self _ (by rintro b ⟨⟩; decide)) ?_
      refine .bind_nil (reads_skipWs_head rfl (by decide)) (.peek ?_)
      exact .ite_neg (by simp [joinSep]; decide) (.ite_pos rfl (.then (reads_bump _) (reads_pure _)))
    | cons w a =>
      have hnext := ih w a (forall_mem_cons.mp hread).2 (forall_mem_cons.mp hstart).2
        (acc ++ [canonical v]) (Nat.lt_of_succ_lt_succ hf) isInlineWs_space
      rw [utf8_joinSep_cons]
      refine .bind (hread v mem_cons_self _ (by rintro b ⟨⟩; decide)) ?_
      refine .bind_nil (reads_skipWs_head rfl (by decide)) (.peek (.ite_pos rfl ?_))
      refine .bind (reads_bump _) ?_
      simpa using hnext

/-! ## Inline tables -/

/-- A key that is not there yet is added. -/
theorem setNested_single {k : Str} {t : Table} (h : k ∉ t.map Prod.fst) : setNested [k] v t = .ok (t ++ [(k, v)]) := by
  have hany : t.any (fun e => e.1 == k) = false := by
    rw [any_eq_false]
    intro e he hk
    exact h (mem_map.mpr ⟨e, he, by simpa using hk⟩)
  simp only [setNested, getLast?_singleton, dropLast_singleton, getOrCreate, addEntry, hany, Bool.false_eq_true, if_false]

/-- A key, its equals sign and its value, up to what `k` does with them. -/
theorem reads_keyValue {α : Type} (e : Str × Value) (hstart : StartsValue (inlineText D e.2)) {f : List Str → Value → P α} {x : α}
    {b : Bytes} (hread : Reads value (utf8 (inlineText D e.2)) (b ++ rest) (canonical e.2))
    (hf : Reads (f [e.1] (canonical e.2)) b rest x) :
    Reads (do
      let keypath ← parseKeyPath
      expect (byte '=')
      skipInlineWs
      let val ← value
      f keypath val) (utf8 (entryText D e) ++ b) rest x := by
  have hbytes : utf8 (entryText D e) ++ b =
      (utf8 (pathText [e.1]) ++ [byte ' ']) ++ (([] ++ [byte '=']) ++ ([byte ' '] ++ (utf8 (inlineText D e.2) ++ b))) := by
    have hsep : utf8 " = ".toList = [byte ' ', byte '=', byte ' '] := by decide
    simp only [entryText, utf8_append, hsep, pathText]
    simp
  rw [hbytes]
  refine .bind (reads_parseKeyPath (cons_ne_nil _ _) isInlineWs_space (stops_cons _ (by decide))) ?_
  refine .bind (reads_expect (by simp) (by decide)) ?_
  refine .bind (reads_skipInlineWs isInlineWs_space ?_) (.bind hread hf)
  rw [append_assoc]
  exact hstart.stops (fun _ => isInlineWs_of_not_blank) _

theorem isBlank_of_bare (ha : isBareByte a = true) : isBlank a = false := by
  by_contra hb
  simp only [isBlank, isInlineWs, Bool.not_eq_false, Bool.or_eq_true, beq_iff_eq] at hb
  rcases hb with (((rfl | rfl) | rfl) | rfl) | rfl <;> exact absurd ha (by decide)

theorem entryText_stops (D : F64Display) (e : Str × Value) (rest : Bytes) : Stops isBlank (utf8 (entryText D e) ++ rest) := by
  rw [entryText, utf8_append, utf8_append, append_assoc, append_assoc]
  exact keyRepr_stops (fun a => isBlank_of_bare) (by decide)

/-- A key begins with a byte of a bare key or with a quote. -/
theorem keyRepr_ne (k : Str) {q : UInt8} (hq : isBareByte q = false) (hquote : q ≠ byte '"') :
    (utf8 (keyRepr k) ++ rest).head? ≠ some q := by
  intro h
  have hstop : Stops (· == q) (utf8 (keyRepr k) ++ rest) := by
    refine keyRepr_stops (fun a ha => beq_false_of_ne ?_) (beq_false_of_ne (Ne.symm hquote))
    rintro rfl
    exact absurd ha (by rw [hq]; exact Bool.false_ne_true)
  exact absurd (hstop _ h) (by simp)

theorem entryText_ne (D : F64Display) (e : Str × Value) (rest : Bytes) {q : UInt8} (hq : isBareByte q = false)
    (hquote : q ≠ byte '"') : (utf8 (entryText D e) ++ rest).head? ≠ some q := by
  rw [entryText, utf8_append, utf8_append, append_assoc, append_assoc]
  exact keyRepr_ne e.1 hq hquote

theorem not_mem_of_nodup_append {k : Str} {l m : List Str} (h : (l ++ k :: m).Nodup) : k ∉ l := by
  intro hm
  exact (disjoint_of_nodup_append h) hm mem_cons_self

/-- The loop over the entries of an inline table, from one of them on. -/
theorem reads_parseInlineTableLoop (e : Str × Value) (o : Table)
    (hread : ∀ f ∈ e :: o, ∀ rest, (∀ b ∈ rest.head?, isAtomEnd b = true) →
      Reads value (utf8 (inlineText D f.2)) rest (canonical f.2)) (hstart : ∀ f ∈ e :: o, StartsValue (inlineText D f.2))
    (acc : Table) (hkeys : (acc.map Prod.fst ++ (e :: o).map Prod.fst).Nodup) (hf : o.length < fuel) {ws : Bytes}
    (hws : ∀ b ∈ ws, isInlineWs b = true) (rest : Bytes) :
    Reads (parseInlineTableLoop value fuel acc)
      (ws ++ (utf8 (entryText D e) ++ (utf8 (joinSep true (o.map (entryText D))) ++ [byte ' ', byte '\x7d']))) rest
      (acc ++ (e :: o).map (fun f => (f.1, canonical f.2))) := by
  induction fuel generalizing e o acc ws with
  | zero => cases hf
  | succ fuel ih =>
    refine .bind (reads_skipWsNlComments (fun b hb => .inl (hws b hb)) ?_) ?_
    · rw [append_assoc]
      exact entryText_stops D e _
    have hset := setNested_single (canonical e.2) (not_mem_of_nodup_append hkeys)
    cases o with
    | nil =>
      refine reads_keyValue e (hstart e mem_cons_self) (hread e mem_cons_self _ (by rintro b ⟨⟩; decide)) ?_
      refine .bind_nil (reads_lift hset) ?_
      refine .bind (b := [byte ' ']) (c := [byte '\x7d']) (reads_skipWsNlComments (fun b hb => .inl (isInlineWs_space b hb))
        (stops_cons _ (by decide))) (.peek ?_)
      have hcomma : ([byte '\x7d'] ++ rest).head? ≠ some (byte ',') := by
        simp only [singleton_append, head?_cons]
        decide
      exact .ite_neg hcomma (.ite_pos rfl (.then (reads_bump _) (reads_pure _)))
    | cons e' o =>
      have hkeys' : ((acc ++ [(e.1, canonical e.2)]).map Prod.fst ++ (e' :: o).map Prod.fst).Nodup := by
        simpa using hkeys
      have hnext := ih e' o (forall_mem_cons.mp hread).2 (forall_mem_cons.mp hstart).2
        (acc ++ [(e.1, canonical e.2)]) hkeys' (Nat.lt_of_succ_lt_succ hf) isInlineWs_space
      rw [utf8_joinSep_cons]
      refine reads_keyValue e (hstart e mem_cons_self) (hread e mem_cons_self _ (by rintro b ⟨⟩; decide)) ?_
      refine .bind_nil (reads_lift hset) ?_
      refine .bind_nil (reads_skipWs_head rfl (by decide)) (.peek (.ite_pos rfl ?_))
      refine .bind (reads_bump _) ?_
      simpa using hnext

/-! ## Values -/

theorem length_le_joinSep (ts : List Str) : ts.length ≤ (utf8 (joinSep true ts)).length := by
  induction ts with
  | nil => exact Nat.zero_le _
  | cons t ts ih =>
    have hsep : (utf8 ", ".toList).length = 2 := by decide
    simp only [joinSep, if_true, utf8_append, length_append, length_cons]
    omega

theorem readsInline_array {a : List Value} (ih : ∀ v ∈ a, ReadsInline D v) : ReadsInline D (.array a) := by
  intro fuel depth rest hf hd hr
  rcases fuel with _ | fuel
  · omega
  have hopen : utf8 (inlineText D (.array a)) = [byte '['] ++ (utf8 (joinSep false (a.map (inlineText D))) ++ [byte ']']) := by
    rw [inlineText_array, utf8_cons_ascii (by decide), utf8_append]
    rfl
  have hread : ∀ v ∈ a, ∀ rest, (∀ b ∈ rest.head?, isAtomEnd b = true) →
      Reads (parseValueFuel fuel (depth + 1)) (utf8 (inlineText D v)) rest (canonical v) := by
    intro v hv rest hr
    have := Value.depth_lt_array hv
    exact ih v hv fuel (depth + 1) rest (by omega) (by omega) hr
  rw [hopen, canonical, canonicalList_eq_map]
  refine .ite_neg (by omega) (.bind_nil (reads_skipInlineWs (by simp) (stops_cons _ (by decide))) (.peek ?_))
  refine .ite_neg (by decide) (.ite_neg (by decide) (.ite_pos rfl ?_))
  refine .bind (reads_bump _) (.get (fun pos => .then ?_ (reads_pure _)))
  rcases a with _ | ⟨v, a⟩
  · refine .bind_nil (reads_skipWs_head rfl (by decide)) (.peek (.ite_pos rfl ?_))
    exact .then (reads_bump _) (reads_pure _)
  · have hfuel : a.length < (utf8 (joinSep false ((v :: a).map (inlineText D))) ++ [byte ']'] ++ rest).length + 1 := by
      have := length_le_joinSep (a.map (inlineText D))
      simp only [map_cons, joinSep, utf8_append, length_append, length_map] at this ⊢
      omega
    have hnil : ∀ b ∈ ([] : Bytes), isInlineWs b = true := by simp
    have hloop := reads_parseArrayLoop v a hread (fun w _ => startsValue_inlineText D w) [] hfuel hnil rest
    simpa [joinSep] using hloop

theorem readsInline_object {o : Table} (hkeys : (o.map Prod.fst).Nodup) (ih : ∀ e ∈ o, e.2.isNull = false → ReadsInline D e.2) :
    ReadsInline D (.object o) := by
  intro fuel depth rest hf hd hr
  rcases fuel with _ | fuel
  · omega
  have hread : ∀ e ∈ o.filter (fun e => !e.2.isNull), ∀ rest, (∀ b ∈ rest.head?, isAtomEnd b = true) →
      Reads (parseValueFuel fuel (depth + 1)) (utf8 (inlineText D e.2)) rest (canonical e.2) := by
    intro e he rest hr
    obtain ⟨hmem, hnull⟩ := mem_filter.mp he
    have := Value.depth_lt_object hmem
    exact ih e hmem (by simpa using hnull) fuel (depth + 1) rest (by omega) (by omega) hr
  have hkeys : ((o.filter (fun e => !e.2.isNull)).map Prod.fst).Nodup := hkeys.sublist (filter_sublist.map _)
  have hall : o.all (fun e => e.2.isNull) = (o.filter (fun e => !e.2.isNull)).isEmpty := by
    rw [Bool.eq_iff_iff, List.isEmpty_iff]
    simp
  rw [inlineText_object, hall, entryTexts, canonical, canonicalEntries_eq]
  generalize o.filter (fun e => !e.2.isNull) = o at hread hkeys
  rcases o with _ | ⟨e, o⟩
  · have hbytes : utf8 "\x7b\x7d".toList = [byte '\x7b'] ++ [byte '\x7d'] := by decide
    refine .ite_neg (by omega) (.bind_nil (reads_skipInlineWs (by simp) (stops_cons _ (by decide))) (.peek ?_))
    refine .ite_neg (by decide) (.ite_neg (by decide) (.ite_neg (by decide) (.ite_pos rfl ?_)))
    refine .bind (reads_bump _) (.bind_nil (reads_skipWs_head rfl (by decide)) (.peek (.ite_pos rfl ?_)))
    exact .then (reads_bump _) (reads_pure _)
  · have hbytes : utf8 ("\x7b ".toList ++ (joinSep false ((e :: o).map (entryText D)) ++ " \x7d".toList)) =
        [byte '\x7b'] ++ ([byte ' '] ++
          (utf8 (entryText D e) ++ (utf8 (joinSep true (o.map (entryText D))) ++ [byte ' ', byte '\x7d']))) := by
      have h1 : utf8 "\x7b ".toList = [byte '\x7b', byte ' '] := by decide
      have h2 : utf8 " \x7d".toList = [byte ' ', byte '\x7d'] := by decide
      simp only [map_cons, joinSep, utf8_append, h1, h2]
      simp
    rw [isEmpty_cons, if_neg Bool.false_ne_true, hbytes]
    refine .ite_neg (by omega) (.bind_nil (reads_skipInlineWs (by simp) (stops_cons _ (by decide))) (.peek ?_))
    refine .ite_neg (by decide) (.ite_neg (by decide) (.ite_neg (by decide) (.ite_pos rfl ?_)))
    refine .bind (reads_bump _) (.bind (reads_skipWsNlComments (fun b hb => .inl (isInlineWs_space b hb)) ?_) (.peek ?_))
    · rw [append_assoc]
      exact entryText_stops D e _
    refine .ite_neg (by rw [append_assoc]; exact entryText_ne D e _ (by decide) (by decide)) (.get (fun pos => ?_))
    refine .then ?_ (reads_pure _)
    have hnil : ∀ b ∈ ([] : Bytes), isInlineWs b = true := by simp
    refine reads_parseInlineTableLoop e o hread (fun f _ => startsValue_inlineText D f.2) [] hkeys ?_ hnil rest
    have := length_le_joinSep (o.map (entryText D))
    simp only [length_append, length_map] at this ⊢
    omega

theorem readsInline_scalar {v : Value} (h : ∀ fuel depth rest, depth ≤ MAX_DEPTH → (∀ a ∈ rest.head?, isAtomEnd a = true) →
      Reads (parseValueFuel (fuel + 1) depth) (utf8 (inlineText D v)) rest (canonical v)) : ReadsInline D v := by
  intro fuel depth rest hf hd hr
  rcases fuel with _ | fuel
  · omega
  exact h fuel depth rest (by omega) hr

/-- Every value that TOML can show inline is read back. -/
theorem readsInline (hnull : v.isNull = false) (henc : isEncodable v = true) : ReadsInline D v := by
  induction v using Value.ind with
  | null => cases hnull
  | bool b => exact readsInline_scalar (fun _ _ _ hd hr => reads_parseValueFuel_bool hd hr b)
  | int i => exact readsInline_scalar (fun _ _ _ hd hr => reads_parseValueFuel_int hd hr i)
  | uint u => exact readsInline_scalar (fun _ _ _ hd hr => reads_parseValueFuel_uint hd hr u)
  | float f =>
    rw [isEncodable, Bool.not_eq_true'] at henc
    exact readsInline_scalar (fun _ _ _ hd hr => reads_parseValueFuel_float hd hr henc)
  | str s =>
    refine readsInline_scalar (fun fuel depth rest hd hr => ?_)
    rw [inlineText, writeInline, writeBasicString_eq]
    exact reads_parseValueFuel_str hd hr
  | bytes b => cases henc
  | array a ih =>
    rw [isEncodable, allEncodable_iff] at henc
    exact readsInline_array (fun v hv => ih v hv (henc v hv).1 (henc v hv).2)
  | object o ih =>
    obtain ⟨hkeys, henc⟩ := isEncodable_object.mp henc
    exact readsInline_object hkeys (fun e he hnull => ih e he hnull (henc e he))

end Ferroly.Toml
