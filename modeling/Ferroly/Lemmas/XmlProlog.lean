import Ferroly.Codec.XmlSpec
import Ferroly.Lemmas.XmlSafe

/-!
# The XML parser before the root element

Declarations and comments are skipped one after another. One that does not end moves the position beyond the end, where the next
look at the input panics.
-/

namespace Ferroly.Xml

open List Run

variable {s t : Str}

/-! ## Looking for text in bytes -/

theorem isPrefixOf_utf8 (ht : ∀ c ∈ t, c.toNat < 0x80) (s : Str) : (utf8 t).isPrefixOf (utf8 s) = t.isPrefixOf s := by
  induction t generalizing s with
  | nil => rfl
  | cons c t ih =>
    have hc := ht c mem_cons_self
    rw [utf8_cons_ascii hc]
    cases s with
    | nil => rfl
    | cons d s =>
      by_cases hd : d.toNat < 0x80
      · rw [utf8_cons_ascii hd, isPrefixOf_cons_cons, isPrefixOf_cons_cons, ih (forall_mem_cons.mp ht).2]
        rw [beq_byte hc hd]
      · obtain ⟨x, l, hx⟩ := exists_cons_of_ne_nil (String.utf8EncodeChar_ne_nil (c := d))
        have hge := utf8EncodeChar_ge (not_lt.mp hd) x (by rw [hx]; exact mem_cons_self)
        have hne : c ≠ d := fun h => hd (h ▸ hc)
        rw [utf8_cons, hx, cons_append, isPrefixOf_cons_cons, isPrefixOf_cons_cons, beq_eq_false_iff_ne.mpr hne,
          Bool.beq_comm, beq_byte_of_ge hge hc]
        rfl

theorem dropUntil_append {x : UInt8} {s a : Bytes} (ha : ∀ b ∈ a, b ≠ x) (r : Bytes) :
    dropUntil (x :: s) (a ++ r) = dropUntil (x :: s) r := by
  induction a with
  | nil => rfl
  | cons b a ih =>
    have hb : (x :: s).isPrefixOf (b :: (a ++ r)) = false := by
      rw [isPrefixOf_cons_cons, beq_eq_false_iff_ne.mpr (Ne.symm (ha b mem_cons_self))]
      rfl
    rw [cons_append, dropUntil, hb, if_neg Bool.false_ne_true, ih (forall_mem_cons.mp ha).2]

/-- Going on to a text in the bytes is going on to it in the characters. -/
theorem dropUntil_utf8 {c : Char} (ht : ∀ d ∈ c :: t, d.toNat < 0x80) (s : Str) :
    dropUntil (utf8 (c :: t)) (utf8 s) = ((splitOnceStr (c :: t) s).map (fun p => utf8 (c :: t ++ p.2))).getD [] := by
  induction s with
  | nil => rfl
  | cons d s ih =>
    have hc := ht c mem_cons_self
    have hpre := isPrefixOf_utf8 ht (d :: s)
    obtain ⟨x, l, hx⟩ := exists_cons_of_ne_nil (String.utf8EncodeChar_ne_nil (c := d))
    have hbytes : utf8 (d :: s) = x :: (l ++ utf8 s) := by rw [utf8_cons, hx, cons_append]
    rw [splitOnceStr]
    split
    next h =>
      rw [h] at hpre
      rw [hbytes] at hpre ⊢
      rw [dropUntil, hpre, ← hbytes]
      obtain ⟨r, hr⟩ := isPrefixOf_iff_prefix.mp h
      rw [← hr, drop_left]
      rfl
    next h =>
      rw [Bool.not_eq_true] at h
      rw [h] at hpre
      have hskip : dropUntil (utf8 (c :: t)) (utf8 (d :: s)) = dropUntil (utf8 (c :: t)) (utf8 s) := by
        by_cases hd : d.toNat < 0x80
        · rw [utf8_cons_ascii hd] at hpre ⊢
          rw [dropUntil, hpre, if_neg Bool.false_ne_true]
        · rw [utf8_cons_ascii hc]
          exact dropUntil_append (fun b hb => ne_byte_of_mem hb hc (by rintro rfl; exact hd hc)) _
      rw [hskip, ih]
      cases splitOnceStr (c :: t) s <;> rfl

theorem dropWhile_isWs : (utf8 s).dropWhile Json.isWs = utf8 (s.dropWhile isSpace) := by
  induction s with
  | nil => rfl
  | cons c s ih =>
    by_cases hc : c.toNat < 0x80
    · have hws : Json.isWs (byte c) = isSpace c := by
        simp only [Json.isWs, isSpace, beq_byte hc (d := ' ') (by decide), beq_byte hc (d := '\t') (by decide),
          beq_byte hc (d := '\n') (by decide), beq_byte hc (d := '\r') (by decide)]
      rw [utf8_cons_ascii hc, dropWhile_cons, dropWhile_cons, hws]
      split
      · exact ih
      · rw [utf8_cons_ascii hc]
    · obtain ⟨x, l, hx⟩ := exists_cons_of_ne_nil (String.utf8EncodeChar_ne_nil (c := c))
      have hge := utf8EncodeChar_ge (not_lt.mp hc) x (by rw [hx]; exact mem_cons_self)
      have hws : Json.isWs x = false := by
        rcases uniform_isWs with h | h
        · exact absurd (h 0x80 (by decide)) (by decide)
        · exact h x hge
      have hspace : isSpace c = false := by
        rw [Bool.eq_false_iff]
        intro h
        simp only [isSpace, Bool.or_eq_true, beq_iff_eq] at h
        obtain ((rfl | rfl) | rfl) | rfl := h
        all_goals exact hc (by decide)
      rw [utf8_cons, hx, cons_append, dropWhile_cons_of_neg (by simp [hws]), dropWhile_cons_of_neg (by simp [hspace]),
        utf8_cons, hx, cons_append]

/-! ## The prolog -/

theorem OpenProlog.inv {x : Str} (h : OpenProlog x) :
    (∃ s, x = '<' :: '?' :: s ∧ ∀ a r, splitOnceStr "?>".toList x = some (a, r) → OpenProlog r) ∨
      (∃ s, x = '<' :: '!' :: '-' :: '-' :: s ∧ ∀ a r, splitOnceStr "-->".toList s = some (a, r) → OpenProlog r) ∨
      ∃ c s, x = c :: s ∧ isSpace c = true ∧ OpenProlog s := by
  cases h with
  | declaration h => exact .inl ⟨_, rfl, fun a r h' => by rw [h] at h'; cases h'⟩
  | comment h => exact .inr (.inl ⟨_, rfl, fun a r h' => by rw [h] at h'; cases h'⟩)
  | space hc h => exact .inr (.inr ⟨_, _, rfl, hc, h⟩)
  | afterDeclaration h ho => exact .inl ⟨_, rfl, fun a r h' => by rw [h] at h'; cases h'; exact ho⟩
  | afterComment h ho => exact .inr (.inl ⟨_, rfl, fun a r h' => by rw [h] at h'; cases h'; exact ho⟩)

/-- A declaration is open, or the prolog after it is. -/
theorem openProlog_declaration : OpenProlog ('<' :: '?' :: s) ↔
    ∀ a r, splitOnceStr "?>".toList ('<' :: '?' :: s) = some (a, r) → OpenProlog r := by
  constructor
  · intro h
    rcases h.inv with ⟨s', -, h⟩ | ⟨s', heq, -⟩ | ⟨c, s', heq, hc, -⟩
    · exact h
    · simp at heq
    · cases heq
      cases hc
  · intro h
    cases hsplit : splitOnceStr "?>".toList ('<' :: '?' :: s) with
    | none => exact .declaration hsplit
    | some p => exact .afterDeclaration hsplit (h p.1 p.2 hsplit)

/-- A comment is open, or the prolog after it is. -/
theorem openProlog_comment : OpenProlog ('<' :: '!' :: '-' :: '-' :: s) ↔
    ∀ a r, splitOnceStr "-->".toList s = some (a, r) → OpenProlog r := by
  constructor
  · intro h
    rcases h.inv with ⟨s', heq, -⟩ | ⟨s', heq, h⟩ | ⟨c, s', heq, hc, -⟩
    · simp at heq
    · cases heq
      exact h
    · cases heq
      cases hc
  · intro h
    cases hsplit : splitOnceStr "-->".toList s with
    | none => exact .comment hsplit
    | some p => exact .afterComment hsplit (h p.1 p.2 hsplit)

theorem openProlog_dropWhile : OpenProlog (s.dropWhile isSpace) ↔ OpenProlog s := by
  induction s with
  | nil => exact Iff.rfl
  | cons c s ih =>
    cases hc : isSpace c with
    | false => rw [dropWhile_cons_of_neg (by simp [hc])]
    | true =>
      rw [dropWhile_cons_of_pos hc, ih]
      refine ⟨OpenProlog.space hc, fun h => ?_⟩
      rcases h.inv with ⟨s', heq, -⟩ | ⟨s', heq, -⟩ | ⟨d, s', heq, -, h'⟩
      · cases heq
        cases hc
      · cases heq
        cases hc
      · cases heq
        exact h'

variable {d : Nat}

/-- Going on past a text: to what follows it, or beyond the end. -/
theorem skip_past {c : Char} (ht : ∀ d ∈ c :: t, d.toNat < 0x80) (u : Str) : (do
      skipUntil (c :: t)
      advance (c :: t).length : P Unit) ⟨utf8 u, false, d⟩ =
      .ok ((), ((splitOnceStr (c :: t) u).map (fun p => (⟨utf8 p.2, false, d⟩ : Parser))).getD ⟨[], true, d⟩) := by
  rw [bind_of_ok (show skipUntil (c :: t) ⟨utf8 u, false, d⟩ = .ok ((), ⟨dropUntil (utf8 (c :: t)) (utf8 u), false, d⟩) from rfl),
    dropUntil_utf8 ht, advance]
  cases splitOnceStr (c :: t) u with
  | none => rfl
  | some p =>
    have hbytes : utf8 (c :: t ++ p.2) = (c :: t).map byte ++ utf8 p.2 := by rw [utf8_append, utf8_ascii ht]
    have hlen : ((c :: t).map byte).length = (c :: t).length := length_map _
    simp only [Option.map_some, Option.getD_some, hbytes, Bool.false_or]
    rw [drop_left' hlen, decide_eq_false (by rw [length_append]; omega)]

/-- The prolog is skipped, or does not end and the parser panics. -/
theorem skipPrologLoop_spec {fuel : Nat} (hf : s.length < fuel) :
    (OpenProlog s ∧ skipPrologLoop fuel ⟨utf8 s, false, d⟩ = .error .panic) ∨
      (¬OpenProlog s ∧ ∃ s', s' <:+ s ∧ skipPrologLoop fuel ⟨utf8 s, false, d⟩ = .ok ((), ⟨utf8 s', false, d⟩)) := by
  induction fuel generalizing s with
  | zero => omega
  | succ fuel ih =>
    have hlen : (s.dropWhile isSpace).length ≤ s.length := length_dropWhile_le _ _
    have hsuf : s.dropWhile isSpace <:+ s := dropWhile_suffix _
    rw [← openProlog_dropWhile]
    rw [skipPrologLoop, bind_of_ok (show skipWs ⟨utf8 s, false, d⟩ = .ok ((), ⟨utf8 (s.dropWhile isSpace), false, d⟩) by
      rw [skipWs, dropWhile_isWs])]
    have hspace : ∀ c x, s.dropWhile isSpace = c :: x → isSpace c = false := by
      intro c x hx
      have := head?_dropWhile_not isSpace s
      rw [hx] at this
      simpa using this
    generalize s.dropWhile isSpace = u at hlen hsuf hspace ⊢
    -- past a text, the loop goes on with what follows it, or panics if the text is not there
    have hgoes : ∀ c t w x, (OpenProlog x ↔ ∀ a r, splitOnceStr (c :: t) w = some (a, r) → OpenProlog r) →
        (∀ d ∈ c :: t, d.toNat < 0x80) → 0 < fuel → w.length ≤ fuel → w <:+ s →
        (OpenProlog x ∧
            (do skipUntil (c :: t); advance (c :: t).length; skipPrologLoop fuel : P Unit) ⟨utf8 w, false, d⟩ = .error .panic) ∨
          (¬OpenProlog x ∧ ∃ s', s' <:+ s ∧
            (do skipUntil (c :: t); advance (c :: t).length; skipPrologLoop fuel : P Unit) ⟨utf8 w, false, d⟩ =
              .ok ((), ⟨utf8 s', false, d⟩)) := by
      intro c t w x hx ht hfuel hw hws
      rw [← bind_assoc, bind_of_ok (skip_past ht w), hx]
      cases hsplit : splitOnceStr (c :: t) w with
      | none =>
        rcases fuel with _ | k
        · omega
        exact .inl ⟨fun a r h => (nomatch h), rfl⟩
      | some p =>
        obtain ⟨hshort, hsuf'⟩ := splitOnceStr_length (a := p.1) (r := p.2) (cons_ne_nil c t) hsplit
        rcases ih (s := p.2) (by rw [length_cons] at hshort; omega) with ⟨hopen, hrun⟩ | ⟨hclosed, s', hs', hrun⟩
        · refine .inl ⟨fun a r h => ?_, hrun⟩
          cases h
          exact hopen
        · exact .inr ⟨fun h => hclosed (h p.1 p.2 rfl), s', (hs'.trans hsuf').trans hws, hrun⟩
    rw [bind_of_ok (startsWith_apply _ rfl), isPrefixOf_utf8 (ascii_of_all rfl)]
    by_cases hdecl : "<?".toList.isPrefixOf u = true
    · obtain ⟨v, rfl⟩ := isPrefixOf_iff_prefix.mp hdecl
      replace hlen : v.length + 2 ≤ s.length := hlen
      exact hgoes '?' ['>'] ('<' :: '?' :: v) _ openProlog_declaration (ascii_of_all rfl) (by omega)
        (by simp only [length_cons]; omega) hsuf
    · rw [if_neg hdecl, bind_of_ok (startsWith_apply _ rfl), isPrefixOf_utf8 (ascii_of_all rfl)]
      by_cases hcomment : "<!--".toList.isPrefixOf u = true
      · rw [if_pos hcomment]
        obtain ⟨v, rfl⟩ := isPrefixOf_iff_prefix.mp hcomment
        replace hlen : v.length + 4 ≤ s.length := hlen
        exact hgoes '-' ['-', '>'] v _ openProlog_comment (ascii_of_all rfl) (by omega) (by omega)
          (List.IsSuffix.trans (suffix_append "<!--".toList v) hsuf)
      · rw [if_neg hcomment]
        refine .inr ⟨fun h => ?_, u, hsuf, rfl⟩
        rcases h.inv with ⟨v, rfl, -⟩ | ⟨v, rfl, -⟩ | ⟨c, v, heq, hc, -⟩
        · exact hdecl rfl
        · exact hcomment rfl
        · rw [hspace c v heq] at hc
          cases hc

variable {input : Str}

theorem skipProlog_spec : (OpenProlog input ∧ skipProlog (.new input) = .error .panic) ∨
      (¬OpenProlog input ∧ ∃ s, s <:+ input ∧ skipProlog (.new input) = .ok ((), .new s)) :=
  skipPrologLoop_spec (Nat.lt_succ_of_le (length_le_utf8 input))

/-- A document is read or refused, or its prolog does not end and the parser panics. -/
theorem fromStr_ends : (OpenProlog input ∧ fromStr input = .error .panic) ∨
      (¬OpenProlog input ∧ ((∃ v, fromStr input = .ok v) ∨ ∃ e, fromStr input = .error (.error e))) := by
  rcases skipProlog_spec with ⟨hopen, hrun⟩ | ⟨hclosed, s, hs, hrun⟩
  · refine .inl ⟨hopen, ?_⟩
    rw [fromStr, bind_of_error hrun]
  · refine .inr ⟨hclosed, ?_⟩
    have hsafe := safe_parseElementFuel input (show MAX_DEPTH < MAX_DEPTH + 2 + 0 by decide) (by decide) (.new s) rfl ⟨s, hs, rfl⟩ rfl
    rw [fromStr, bind_of_ok hrun]
    rcases hsafe.returns with ⟨⟨tag, v⟩, st', h, -⟩ | ⟨e, h⟩
    · exact .inl ⟨v, by rw [parseElement, h]⟩
    · exact .inr ⟨e, by rw [parseElement, h]⟩

end Ferroly.Xml
