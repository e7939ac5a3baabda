import Ferroly.Lemmas.TomlText

/-!
# Reading the tokens of TOML

`Reads p b rest x` says that on the bytes `b` followed by `rest` the parser `p` returns `x` and stops before `rest`, at whatever
position it starts. The rules below follow the parser's own steps.
-/

namespace Ferroly.Toml

open List

variable {b rest : Bytes} {c : Char} {q : UInt8 → Bool}

/-! ## Rules -/

/-- On `b` followed by `rest`, the parser returns `x` and leaves `rest`. -/
def Reads {α : Type} (p : P α) (b rest : Bytes) (x : α) : Prop :=
  ∀ pos, ∃ pos', p ⟨b ++ rest, pos⟩ = .ok (x, ⟨rest, pos'⟩)

variable {s : Str}

section Rules

variable {α β : Type} {c : Bytes}

variable {p : P α} {f : α → P β} {x : α} {y : β}

theorem Reads.bind (hp : Reads p b (c ++ rest) x) (hf : Reads (f x) c rest y) : Reads (p >>= f) (b ++ c) rest y := by
  intro pos
  obtain ⟨pos1, h1⟩ := hp pos
  obtain ⟨pos2, h2⟩ := hf pos1
  refine ⟨pos2, ?_⟩
  rw [append_assoc, Run.bind_of_ok h1, h2]

/-- A first step that consumes nothing. -/
theorem Reads.bind_nil (hp : Reads p [] (b ++ rest) x) (hf : Reads (f x) b rest y) : Reads (p >>= f) b rest y := hp.bind hf

/-- A last step that consumes nothing. -/
theorem Reads.then (hp : Reads p b rest x) (hf : Reads (f x) [] rest y) : Reads (p >>= f) b rest y := by
  have := Reads.bind (c := []) hp hf
  rwa [append_nil] at this

theorem reads_pure (x : α) : Reads (pure x) [] rest x := fun pos => ⟨pos, rfl⟩

theorem reads_peek : Reads peek [] rest rest.head? := fun pos => ⟨pos, rfl⟩

theorem Reads.peek {f : Option UInt8 → P β} (hf : Reads (f (b ++ rest).head?) b rest y) :
    Reads (Toml.peek >>= f) b rest y := .bind_nil reads_peek hf

theorem reads_bump (a : UInt8) : Reads bump [a] rest () := fun pos => ⟨pos + 1, rfl⟩

/-- The state may be looked at. -/
theorem Reads.get {f : Parser → P β} (hf : ∀ pos, Reads (f ⟨b ++ rest, pos⟩) b rest y) :
    Reads (Run.get >>= f) b rest y := fun pos => hf pos pos

theorem reads_takeWhile (hb : ∀ a ∈ b, q a = true) (hr : ∀ a ∈ rest.head?, q a = false) : Reads (takeWhile q) b rest b := by
  intro pos
  have htake : (b ++ rest).takeWhile q = b := by
    rw [takeWhile_append_of_pos hb]
    cases rest with
    | nil => simp
    | cons a r => simp [hr a rfl]
  refine ⟨pos + b.length, ?_⟩
  rw [takeWhile, htake, Parser.advance, drop_left]

theorem reads_slice : Reads (slice (utf8 s)) [] rest s := by
  intro pos
  refine ⟨pos, ?_⟩
  rw [slice, fromUtf8_utf8]
  rfl

theorem reads_lift {r : Except CodecError α} (h : r = .ok x) : Reads (Run.lift r) [] rest x := by
  intro pos
  rw [h]
  exact ⟨pos, rfl⟩

theorem Reads.ite_pos {cond : Prop} [Decidable cond] {q : P α} (hc : cond) (h : Reads p b rest x) :
    Reads (if cond then p else q) b rest x := by
  rw [if_pos hc]
  exact h

theorem Reads.ite_neg {cond : Prop} [Decidable cond] {q : P α} (hc : ¬cond) (h : Reads q b rest x) :
    Reads (if cond then p else q) b rest x := by
  rw [if_neg hc]
  exact h

end Rules

/-! ## White space -/

/-- The input does not go on with a byte that satisfies `q`. -/
def Stops (q : UInt8 → Bool) (rest : Bytes) : Prop := ∀ a ∈ rest.head?, q a = false

variable {a : UInt8}

theorem stops_cons (r : Bytes) (h : q a = false) : Stops q (a :: r) := by
  intro b hb
  cases hb
  exact h

theorem isInlineWs_space : ∀ a ∈ [byte ' '], isInlineWs a = true := forall_iff_forall_mem.mp (by decide)

theorem reads_skipInlineWs (hb : ∀ a ∈ b, isInlineWs a = true) (hr : Stops isInlineWs rest) : Reads skipInlineWs b rest () :=
  Reads.then (reads_takeWhile hb hr) (reads_pure ())

/-- The bytes that `skip_ws_nl_comments` skips or that start a comment. -/
def isBlank (b : UInt8) : Bool := isInlineWs b || b == byte '\n' || b == byte '#'

theorem reads_skipWsNlComments (hb : ∀ a ∈ b, isInlineWs a = true ∨ a = byte '\n') (hr : Stops isBlank rest) :
    Reads skipWsNlComments b rest () := by
  have hlen : wsLength false (b ++ rest) = b.length := by
    induction b with
    | nil =>
      cases rest with
      | nil => rfl
      | cons a r =>
        have ha := hr a rfl
        simp only [isBlank, Bool.or_eq_false_iff] at ha
        simp [wsLength, ha.1.1, ha.1.2, ha.2]
    | cons a b ih =>
      have ha : (isInlineWs a || a == byte '\n') = true := by
        rcases hb a mem_cons_self with h | h
        · simp [h]
        · simp [h]
      rw [cons_append, wsLength, if_pos ha, ih (forall_mem_cons.mp hb).2, length_cons]
  intro pos
  refine ⟨pos + b.length, ?_⟩
  rw [skipWsNlComments, hlen, Parser.advance, drop_left]

theorem reads_expect {ws : Bytes} (hws : ∀ c ∈ ws, isInlineWs c = true) (ha : isInlineWs a = false) :
    Reads (expect a) (ws ++ [a]) rest () := by
  refine .bind (reads_skipInlineWs hws (stops_cons _ ha)) ?_
  refine .peek (.ite_pos rfl ?_)
  exact reads_bump a

theorem reads_finishLine : Reads finishLine [byte '\n'] rest () := by
  refine .bind_nil (reads_skipInlineWs (by simp) (stops_cons _ (by decide))) ?_
  refine .bind_nil (.peek (.ite_neg (by simp; decide) (reads_pure ()))) ?_
  refine .peek ?_
  exact .ite_pos rfl (reads_bump _)

/-! ## Strings -/

theorem escapeOf_special (h : escapeOf c = none) : c ≠ '"' ∧ c ≠ '\\' ∧ c ≠ '\n' := by
  refine ⟨?_, ?_, ?_⟩ <;> rintro rfl <;> simp [escapeOf] at h

/-- Characters that are not escaped have clean bytes only. -/
theorem isClean_utf8 (h : ∀ c ∈ s, escapeOf c = none) : ∀ b ∈ utf8 s, isClean b = true := by
  intro b hb
  simp only [utf8, mem_flatMap] at hb
  obtain ⟨c, hc, hb⟩ := hb
  obtain ⟨h1, h2, h3⟩ := escapeOf_special (h c hc)
  simp [isClean, ne_byte_of_mem hb (by decide) h1, ne_byte_of_mem hb (by decide) h2, ne_byte_of_mem hb (by decide) h3]

theorem hex4_control : ∀ n < 0x20, parseUnsigned 32 16 (hex4 n) = some n ∧ (hex4 n).length = 4 ∧ ∀ c ∈ hex4 n, c.toNat < 0x80 := by
  have hall : ∀ n < 0x20, parseUnsigned 32 16 (hex4 n) = some n ∧ (hex4 n).length = 4 ∧
      (hex4 n).Forall (fun c => c.toNat < 0x80) := by decide
  intro n hn
  obtain ⟨hparse, hlen, hascii⟩ := hall n hn
  exact ⟨hparse, hlen, forall_iff_forall_mem.mp hascii⟩

theorem charFromU32_toNat (c : Char) : charFromU32 c.toNat = some c := by
  unfold charFromU32
  split
  · rw [Char.ofNat_toNat]
  next h => exact absurd c.valid h

theorem reads_parseHex {hex : Str} {n : Nat} (hlen : (utf8 hex).length = n) (hparse : parseUnsigned 32 16 hex = some c.toNat)
    : Reads (parseHex n) (utf8 hex) rest c := by
  intro pos
  refine ⟨pos + n, ?_⟩
  have htake : (utf8 hex ++ rest).take n = utf8 hex := by rw [← hlen, take_left]
  have hdrop : (utf8 hex ++ rest).drop n = rest := by rw [← hlen, drop_left]
  have hle : ¬n > (utf8 hex ++ rest).length := by rw [length_append]; omega
  simp only [parseHex, Run.bind_apply, Run.get_apply, if_neg hle, htake, slice, fromUtf8_utf8, Run.pure_apply,
    Run.set_apply, hparse, charFromU32_toNat, Parser.advance, hdrop]

theorem parseEscape_u (r : Bytes) (pos : Nat) : parseEscape ⟨byte 'u' :: r, pos⟩ = parseHex 4 ⟨r, pos + 1⟩ := rfl

/-- An escape the encoder writes stands for the character it was written for. -/
theorem reads_parseEscape {e : Str} (h : escapeOf c = some e) : ∃ t, e = '\\' :: t ∧ ∀ rest, Reads parseEscape (utf8 t) rest c := by
  unfold escapeOf at h
  -- the seven escapes of one letter
  iterate 7
    split at h
    · cases h; subst_vars; exact ⟨_, rfl, fun _ pos => ⟨pos + 1, rfl⟩⟩
  split at h
  next hc =>
    cases h
    refine ⟨_, rfl, fun rest pos => ?_⟩
    obtain ⟨h1, h2, h3⟩ := hex4_control _ hc
    have hlen : (utf8 (hex4 c.toNat)).length = 4 := by rw [utf8_ascii h3, length_map, h2]
    rw [utf8_cons_ascii (c := 'u') (by decide), cons_append, parseEscape_u]
    exact reads_parseHex hlen h1 (pos + 1)
  · cases h

theorem utf8_escape {t : Str} (h : escapeOf c = some ('\\' :: t)) :
    utf8 ((c :: s).flatMap escapeChar) = byte '\\' :: (utf8 t ++ utf8 (s.flatMap escapeChar)) := by
  simp [escapeChar, h, utf8_cons_ascii (c := '\\') (by decide)]

/-- The loop reads the rest of a basic string; `u` is the run of plain characters read before. -/
theorem reads_parseBasicStringLoop (t u out : Str) (fuel : Nat) (rest : Bytes) (hf : t.length < fuel)
    (hu : ∀ c ∈ u, escapeOf c = none) :
    Reads (parseBasicStringLoop fuel out) (utf8 u ++ (utf8 (t.flatMap escapeChar) ++ [byte '"'])) rest (out ++ u ++ t) := by
  induction t generalizing u out fuel with
  | nil =>
    rcases fuel with _ | fuel
    · simp at hf
    refine .bind (reads_takeWhile (isClean_utf8 hu) (stops_cons _ (by decide))) ?_
    refine .bind_nil reads_slice (.peek ?_)
    refine .ite_neg (by decide) (.ite_pos rfl (.then (reads_bump _) ?_))
    rw [append_nil]
    exact reads_pure _
  | cons c t ih =>
    rw [length_cons] at hf
    cases he : escapeOf c with
    | none =>
      have hbytes : utf8 u ++ (utf8 ((c :: t).flatMap escapeChar) ++ [byte '"']) =
          utf8 (u ++ [c]) ++ (utf8 (t.flatMap escapeChar) ++ [byte '"']) := by
        simp [escapeChar, he, utf8_cons]
      have hclean : ∀ d ∈ u ++ [c], escapeOf d = none := by
        intro d hd
        rcases mem_append.mp hd with hd | hd
        · exact hu d hd
        · rw [mem_singleton.mp hd]
          exact he
      have := ih (u ++ [c]) out fuel (by omega) hclean
      rw [hbytes]
      simpa using this
    | some e =>
      rcases fuel with _ | fuel
      · omega
      obtain ⟨e', rfl, hesc⟩ := reads_parseEscape he
      have hnext := ih [] (out ++ u ++ [c]) fuel (by omega) (by simp)
      have hbytes : utf8 ((c :: t).flatMap escapeChar) ++ [byte '"'] =
          [byte '\\'] ++ (utf8 e' ++ (utf8 (t.flatMap escapeChar) ++ [byte '"'])) := by
        rw [utf8_escape he]
        simp
      rw [hbytes]
      refine .bind (reads_takeWhile (isClean_utf8 hu) (stops_cons _ (by decide))) ?_
      refine .bind_nil reads_slice (.peek ?_)
      refine .ite_neg (by decide) (.ite_neg (by decide) ?_)
      refine .bind (reads_bump _) (.bind (hesc _) ?_)
      simpa using hnext

theorem length_le_escaped (s : Str) : s.length ≤ (utf8 (s.flatMap escapeChar)).length := by
  refine Nat.le_trans ?_ (length_le_utf8 _)
  induction s with
  | nil => simp
  | cons c s ih =>
    have hc : 0 < (escapeChar c).length := by
      cases he : escapeOf c with
      | none => simp [escapeChar, he]
      | some e =>
        obtain ⟨t, rfl, -⟩ := reads_parseEscape he
        simp [escapeChar, he]
    rw [flatMap_cons, length_append, length_cons]
    omega

theorem utf8_quote (s : Str) : utf8 (quote s) = byte '"' :: (utf8 (s.flatMap escapeChar) ++ [byte '"']) := by
  simp [quote, utf8_cons_ascii (c := '"') (by decide)]

/-- A basic string is read back. -/
theorem reads_parseBasicString (s : Str) (rest : Bytes) : Reads parseBasicString (utf8 (quote s)) rest s := by
  rw [utf8_quote]
  refine .bind (b := [byte '"']) (reads_bump _) (.get (fun pos => ?_))
  have hlen := length_le_escaped s
  have := reads_parseBasicStringLoop s [] [] ((utf8 (s.flatMap escapeChar) ++ [byte '"'] ++ rest).length + 1) rest
    (by rw [length_append, length_append]; omega) (by simp)
  simpa using this

/-! ## Keys -/

theorem isBareChar_ascii (h : isBareChar c = true) : c.toNat < 0x80 := by
  delta isBareChar Char.isAlphanum Char.isAlpha Char.isUpper Char.isLower Char.isDigit at h
  simp only [Bool.or_eq_true, Bool.and_eq_true, decide_eq_true_eq, beq_iff_eq] at h
  rcases h with (((h | h) | h) | rfl) | rfl
  · exact Nat.lt_of_le_of_lt (UInt32.le_iff_toNat_le.mp h.2) (by decide)
  · exact Nat.lt_of_le_of_lt (UInt32.le_iff_toNat_le.mp h.2) (by decide)
  · exact Nat.lt_of_le_of_lt (UInt32.le_iff_toNat_le.mp h.2) (by decide)
  · decide
  · decide

theorem isBareByte_byte (h : isBareChar c = true) : isBareByte (byte c) = true := by
  rw [isBareByte, byte_toNat (isBareChar_ascii h), Char.ofNat_toNat]
  exact h

variable {k : Str}

/-- A key is read back before a byte that no bare key has. -/
theorem reads_parseKeySegment (hr : Stops isBareByte rest) : Reads parseKeySegment (utf8 (keyRepr k)) rest k := by
  rw [keyRepr_eq]
  cases hb : isBare k with
  | false =>
    rw [if_neg (by simp)]
    refine .peek (.ite_pos ?_ (reads_parseBasicString k rest))
    rfl
  | true =>
    rw [isBare, Bool.and_eq_true, all_eq_true] at hb
    obtain ⟨hne, hall⟩ := hb
    obtain ⟨c, t, rfl⟩ := exists_cons_of_ne_nil (l := k) (by simpa using hne)
    have hbytes : utf8 (c :: t) = (c :: t).map byte := utf8_ascii (fun d hd => isBareChar_ascii (hall d hd))
    have hbare : ∀ a ∈ utf8 (c :: t), isBareByte a = true := by
      rw [hbytes]
      intro a ha
      obtain ⟨d, hd, rfl⟩ := mem_map.mp ha
      exact isBareByte_byte (hall d hd)
    have hhead : (utf8 (c :: t) ++ rest).head? = some (byte c) := by
      rw [hbytes]
      rfl
    have hc := isBareByte_byte (hall c mem_cons_self)
    have hnot : ∀ q : UInt8, isBareByte q = false → ¬(some (byte c) = some q) := by
      rintro q hq ⟨⟩
      rw [hc] at hq
      cases hq
    rw [if_pos rfl]
    refine .peek ?_
    rw [hhead]
    refine .ite_neg (hnot _ (by decide)) (.ite_neg (hnot _ (by decide)) (.get (fun pos => ?_)))
    refine .then (reads_takeWhile hbare hr) (.ite_neg ?_ reads_slice)
    rw [hbytes]
    exact cons_ne_nil _ _

theorem stops_append (hb : ∀ a ∈ b, q a = false) (hr : Stops q rest) : Stops q (b ++ rest) := by
  cases b with
  | nil => exact hr
  | cons a b => exact stops_cons _ (hb a mem_cons_self)

/-- A byte that begins a key. -/
theorem keyRepr_head : ∃ a t, utf8 (keyRepr k) = a :: t ∧ (isBareByte a = true ∨ a = byte '"') := by
  rw [keyRepr_eq]
  cases hb : isBare k with
  | false => exact ⟨_, _, utf8_quote k, .inr rfl⟩
  | true =>
    rw [isBare, Bool.and_eq_true, all_eq_true] at hb
    obtain ⟨c, t, rfl⟩ := exists_cons_of_ne_nil (l := k) (by simpa using hb.1)
    have hc := hb.2 c mem_cons_self
    exact ⟨byte c, utf8 t, utf8_cons_ascii (isBareChar_ascii hc) t, .inl (isBareByte_byte hc)⟩

theorem keyRepr_stops (hq : ∀ a, isBareByte a = true → q a = false) (hquote : q (byte '"') = false) :
    Stops q (utf8 (keyRepr k) ++ rest) := by
  obtain ⟨a, t, ht, ha⟩ := keyRepr_head
  rw [ht]
  refine stops_cons _ ?_
  rcases ha with ha | rfl
  · exact hq a ha
  · exact hquote

theorem isInlineWs_of_bare (h : isBareByte a = true) : isInlineWs a = false := by
  by_contra hw
  simp only [isInlineWs, Bool.not_eq_false, Bool.or_eq_true, beq_iff_eq] at hw
  rcases hw with (rfl | rfl) | rfl <;> exact absurd h (by decide)

/-- A dotted path is read back, with the white space after it. -/
theorem reads_parseKeyPathLoop {path : List Str} (hp : path ≠ []) (acc : List Str) {fuel : Nat} (hf : path.length ≤ fuel)
    {ws : Bytes} (hws : ∀ a ∈ ws, isInlineWs a = true) (hr : Stops (fun a => isInlineWs a || isBareByte a || a == byte '.') rest) :
    Reads (parseKeyPathLoop fuel acc) (utf8 (pathText path) ++ ws) rest (acc ++ path) := by
  have hr1 : Stops isInlineWs rest := fun a ha => by
    have := hr a ha
    simp only [Bool.or_eq_false_iff] at this
    exact this.1.1
  have hr2 : Stops isBareByte (ws ++ rest) := by
    refine stops_append (fun a ha => ?_) (fun a ha => ?_)
    · cases hb : isBareByte a with
      | false => rfl
      | true => exact absurd (hws a ha) (by rw [isInlineWs_of_bare hb]; simp)
    · have := hr a ha
      simp only [Bool.or_eq_false_iff] at this
      exact this.1.2
  induction path generalizing acc fuel with
  | nil => exact absurd rfl hp
  | cons k path ih =>
    rcases fuel with _ | fuel
    · rw [length_cons] at hf
      omega
    cases path with
    | nil =>
      refine .bind_nil (reads_skipInlineWs (by simp) ?_) ?_
      · rw [append_assoc]
        exact keyRepr_stops (fun a => isInlineWs_of_bare) (by decide)
      refine .bind (reads_parseKeySegment hr2) ?_
      refine .then (reads_skipInlineWs hws hr1) (.peek (.ite_neg ?_ (reads_pure _)))
      intro h
      have := hr _ h
      simp at this
    | cons l path =>
      have hlen : (l :: path).length ≤ fuel := by
        rw [length_cons] at hf
        omega
      have hnext := ih (cons_ne_nil _ _) (acc ++ [k]) hlen
      have hbytes : utf8 (pathText (k :: l :: path)) ++ ws =
          utf8 (keyRepr k) ++ ([byte '.'] ++ (utf8 (pathText (l :: path)) ++ ws)) := by
        simp [pathText, utf8_cons_ascii (c := '.') (by decide)]
      rw [hbytes]
      refine .bind_nil (reads_skipInlineWs (by simp) ?_) ?_
      · rw [append_assoc]
        exact keyRepr_stops (fun a => isInlineWs_of_bare) (by decide)
      refine .bind (reads_parseKeySegment (stops_cons _ (by decide))) ?_
      refine .bind_nil (reads_skipInlineWs (by simp) (stops_cons _ (by decide))) (.peek (.ite_pos rfl ?_))
      refine .bind (reads_bump _) ?_
      simpa using hnext

theorem length_le_pathText (path : List Str) : path.length ≤ (utf8 (pathText path)).length := by
  refine Nat.le_trans ?_ (length_le_utf8 _)
  induction path with
  | nil => simp
  | cons k path ih =>
    have hk : 0 < (keyRepr k).length := length_pos_iff.mpr keyRepr_ne_nil
    cases path with
    | nil => exact hk
    | cons l path =>
      rw [pathText_cons_cons, length_append, length_cons, length_cons (a := '.')]
      omega

/-- What may follow a path. -/
def isPathByte (a : UInt8) : Bool := isInlineWs a || isBareByte a || a == byte '.'

theorem reads_parseKeyPath {path : List Str} (hp : path ≠ []) {ws : Bytes} (hws : ∀ a ∈ ws, isInlineWs a = true)
    (hr : Stops isPathByte rest) : Reads parseKeyPath (utf8 (pathText path) ++ ws) rest path := by
  refine .get (fun pos => ?_)
  have hlen := length_le_pathText path
  exact reads_parseKeyPathLoop hp [] (by simp only [length_append]; omega) hws hr

/-! ## Atoms -/

/-- A bare token is read up to a byte that ends it. -/
theorem reads_parseAtom {t : Str} (hne : t ≠ []) (htrim : trim t = t) (hb : ∀ a ∈ utf8 t, isAtomEnd a = false)
    (hr : ∀ a ∈ rest.head?, isAtomEnd a = true) : Reads parseAtom (utf8 t) rest (atom t) := by
  refine .get (fun pos => ?_)
  refine .then (reads_takeWhile (fun a ha => by simp [hb a ha]) (fun a ha => by simp [hr a ha])) ?_
  refine .then reads_slice ?_
  rw [htrim]
  exact .ite_neg hne (reads_pure _)

/-- The characters that end a bare token. -/
def atomEnds : List Char := [' ', '\t', '\r', '\n', ',', ']', '\x7d', '#']

theorem not_isAtomEnd_byte (hc : c.toNat < 0x80) (h : c ∉ atomEnds) : isAtomEnd (byte c) = false := by
  by_contra hend
  rw [Bool.not_eq_false] at hend
  have hmem : ∃ q ∈ atomEnds, byte c = byte q := by
    simpa [isAtomEnd, isInlineWs, atomEnds, or_assoc] using hend
  obtain ⟨q, hq, heq⟩ := hmem
  have hascii : ∀ r ∈ atomEnds, r.toNat < 0x80 := forall_iff_forall_mem.mp (by decide)
  have := congrArg UInt8.toNat heq
  rw [byte_toNat hc, byte_toNat (hascii q hq)] at this
  exact h (Char.toNat_inj.mp this ▸ hq)

section Numbers

variable (neg : Bool) {whole part : Str}

/-- A number in plain form is a token by itself. -/
theorem plainText_token (hw : ∀ c ∈ whole, c.isDigit = true) (hp : ∀ c ∈ part, c.isDigit = true) :
    trim (plainText neg whole part) = plainText neg whole part ∧ ∀ a ∈ utf8 (plainText neg whole part), isAtomEnd a = false := by
  have hchars : ∀ c ∈ plainText neg whole part, isNumberChar c = true := isNumberChar_plainText hw hp
  have hascii : ∀ c ∈ plainText neg whole part, c.toNat < 0x80 :=
    fun c hc => Nat.lt_of_le_of_lt (isNumberChar_toNat (hchars c hc)).2 (by decide)
  refine ⟨trim_of_forall_not (fun c hc => not_isWhitespace_of_isNumberChar (hchars c hc)), ?_⟩
  rw [utf8_ascii hascii]
  intro a ha
  obtain ⟨c, hc, rfl⟩ := mem_map.mp ha
  refine not_isAtomEnd_byte (hascii c hc) (fun hq => ?_)
  have hends : ∀ q ∈ atomEnds, isNumberChar q = false := forall_iff_forall_mem.mp (by decide)
  exact isNumberChar_ne (hchars c hc) (hends c hq) rfl

/-- A number in plain form is none of the words and has no radix. -/
theorem atom_plainText (hw : ∀ c ∈ whole, c.isDigit = true) (hp : ∀ c ∈ part, c.isDigit = true) :
    atom (plainText neg whole part) = decimalAtom (plainText neg whole part) := by
  have hword : ∀ w : Str, w.all isNumberChar = false → plainText neg whole part ≠ w := by
    rintro w hn rfl
    obtain ⟨c, hc, hn⟩ := all_eq_false.mp hn
    exact hn (isNumberChar_plainText hw hp c hc)
  have hradix : radixInt (plainText neg whole part) = none := by
    unfold radixInt
    split
    · next h => exact absurd h (hword _ rfl)
    · next h => exact absurd h (hword _ rfl)
    · next h => exact absurd h (hword _ rfl)
    · rfl
  have h1 := hword "true".toList rfl
  have h2 := hword "false".toList rfl
  have h3 := hword "inf".toList rfl
  have h4 := hword "+inf".toList rfl
  have h5 := hword "-inf".toList rfl
  have h6 := hword "nan".toList rfl
  have h7 := hword "+nan".toList rfl
  have h8 := hword "-nan".toList rfl
  simp only [atom, h1, h2, h3, h4, h5, h6, h7, h8, or_self, if_false, hradix]

/-- A number in plain form has no separators, and a mark of a float exactly when it has a point. -/
theorem decimalAtom_plainText (hw : ∀ c ∈ whole, c.isDigit = true) (hp : ∀ c ∈ part, c.isDigit = true) :
    (plainText neg whole part).filter (· != '_') = plainText neg whole part ∧
      (plainText neg whole part).any isFloatMark = decide (part ≠ []) := by
  have hchars : ∀ c ∈ plainText neg whole part, isNumberChar c = true := isNumberChar_plainText hw hp
  constructor
  · rw [filter_eq_self]
    intro c hc
    simpa using isNumberChar_ne (hchars c hc) (by decide)
  · by_cases hpe : part = []
    · subst hpe
      have hdot : '.' ∉ plainText neg whole [] := by rw [mem_plainText_point hw]; simp
      rw [decide_eq_false (by simp), any_eq_false]
      intro c hc
      have hpoint : c ≠ '.' := fun h => hdot (h ▸ hc)
      simp [isFloatMark, hpoint, isNumberChar_ne (hchars c hc) (d := 'e') (by decide),
        isNumberChar_ne (hchars c hc) (d := 'E') (by decide)]
    · rw [decide_eq_true hpe, any_eq_true]
      exact ⟨'.', (mem_plainText_point hw).mpr hpe, by decide⟩

end Numbers

theorem atom_int (i : I64) : atom (Fmt.signText i ++ Nat.toDigits 10 i.val.natAbs) = .int i := by
  have hparse := parseI64_text i
  have hw := isDigit_toDigits i.val.natAbs
  have hp : ∀ c ∈ ([] : Str), c.isDigit = true := by simp
  obtain ⟨hclean, hmark⟩ := decimalAtom_plainText (decide (i.val < 0)) hw hp
  rw [signText_eq_plainText] at hparse ⊢
  rw [atom_plainText _ hw hp, decimalAtom, hclean, hmark, hparse]
  rfl

theorem atom_uint (u : U64) : atom (Nat.toDigits 10 u.val) = if h : u.val < 2 ^ 63 then .int (u.toI64 h) else .uint u := by
  have htext := toDigits_eq_plain u.val
  have hw := isDigit_toDigits u.val
  have hp : ∀ c ∈ ([] : Str), c.isDigit = true := by simp
  obtain ⟨hclean, hmark⟩ := decimalAtom_plainText false hw hp
  have hatom : atom (Nat.toDigits 10 u.val) = decimalAtom (Nat.toDigits 10 u.val) := by
    rw [htext]
    exact atom_plainText false hw hp
  rw [← htext] at hclean hmark
  rw [hatom, decimalAtom, hclean, hmark, parseI64_toDigits]
  by_cases h : u.val < 2 ^ 63
  · simp only [dif_pos h]
    rfl
  · simp only [dif_neg h, parseU64_toDigits]
    rfl

/-- A finite float's text has a point and reads back. -/
theorem writeFloat_plain (D : F64Display) {f : F64} (hf : f.isFinite = true) :
    ∃ neg whole part, writeFloat D [] f = plainText neg whole part ∧ whole ≠ [] ∧ (∀ c ∈ whole, c.isDigit) ∧
      (∀ c ∈ part, c.isDigit) ∧ part ≠ [] ∧ parseF64 (plainText neg whole part) = some f := by
  have hdigit : ∀ c : Char, c.isDigit = true → isFloatMark c = false := by
    intro c hc
    have hq : ∀ q : Char, q.isDigit = false → c ≠ q := fun q hq => ne_of_isDigit hc hq
    simp [isFloatMark, hq '.' (by decide), hq 'e' (by decide), hq 'E' (by decide)]
  have hnot : f.isNan = false ∧ f.isInfinite = false := by
    cases f with
    | nan => cases hf
    | num neg k =>
      simp only [Flt.isFinite, decide_eq_true_eq] at hf
      exact ⟨rfl, decide_eq_false (Nat.ne_of_lt hf)⟩
  have htext : writeFloat D [] f = if !(D.toText f).any isFloatMark then D.toText f ++ ".0".toList else D.toText f := by
    simp [writeFloat, hnot]
  rw [htext]
  exact pointed_plain D hf (by decide) (by decide) hdigit

end Ferroly.Toml
