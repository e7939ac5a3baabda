import Ferroly.Codec.Xml
import Ferroly.Lib.Safe
import Ferroly.Lib.Utf8Scan

/-!
# The XML parser inside the root element

From a position between two characters that is not beyond the end, the parser of an element neither slices off a boundary nor
runs out of fuel: it returns a value or an error, and stands between two characters again. Only a comment that does not end
leaves the position beyond the end, and then the input is seen to be at its end.
-/

namespace Ferroly.Xml

open List Run

variable {r : Bytes} {d n : Nat}

/-- The parser moved on in the text: it is not beyond the end, stands between two characters and is as deep as before. -/
structure Moved (t : Str) (st st' : Parser) : Prop where
  past : st'.past = false
  within : Within t st'.rest
  le : st'.rest.length ≤ st.rest.length
  depth : st'.depth = st.depth

variable {t : Str} {st st₁ st₂ : Parser}

theorem Moved.trans (h : Moved t st st₁) (h' : Moved t st₁ st₂) : Moved t st st₂ :=
  ⟨h'.past, h'.within, h'.le.trans h.le, h'.depth.trans h.depth⟩

/-! ## Steps -/

theorem safe_slice {b : Bytes} {u : Str} (hb : b = utf8 u) : (slice b).Safe st (fun _ st' => st = st') := by
  rw [hb, slice, fromUtf8_utf8]
  exact .pure rfl

theorem uniform_isWs : Uniform Json.isWs := .of_all false (by decide)

theorem uniform_isNameByte : Uniform isNameByte := .of_all true (by decide)

theorem safe_entityChar (ent : Str) : (entityChar ent).Safe st (fun _ st' => st = st') := by
  have hchar : ∀ radix digits, (charReference radix digits).Safe st (fun _ st' => st = st') := by
    intro radix digits
    rw [charReference]
    split
    · exact .pure rfl
    · exact .fail
  iterate 5 refine .ite (fun _ => .pure rfl) (fun _ => ?_)
  refine .ite (fun _ => hchar _ _) (fun _ => ?_)
  exact .ite (fun _ => hchar _ _) (fun _ => .fail)

section

variable (hpast : st.past = false) (hw : Within t st.rest)

include hpast hw

/-- Moving over an ASCII byte. -/
theorem advance_ascii {b : UInt8} (hr : st.rest = b :: r) (hb : b.toNat < 0x80) :
    ∃ st', advance 1 st = .ok ((), st') ∧ Moved t st st' ∧ st'.rest = r := by
  refine ⟨_, rfl, ⟨?_, ?_, ?_, rfl⟩, ?_⟩
  all_goals simp only [hr, drop_succ_cons, drop_zero]
  · simp [hpast]
  · rw [hr] at hw
    exact hw.tail hb
  · simp

theorem safe_skipWs : skipWs.Safe st (fun _ st' => Moved t st st') :=
  Safe.of_ok rfl ⟨hpast, (hw.span uniform_isWs).2, length_dropWhile_le _ _, rfl⟩

/-- Taking bytes by a test that does not look into characters gives text. -/
theorem safe_takeWhile {q : UInt8 → Bool} (hq : Uniform q) : (takeWhile q).Safe st (fun b st' => (∃ u, b = utf8 u) ∧ Moved t st st') :=
  Safe.of_ok rfl ⟨(hw.span hq).1, hpast, (hw.span hq).2, length_dropWhile_le _ _, rfl⟩

theorem safe_readName : readName.Safe st (fun _ st' => Moved t st st') := by
  refine (safe_takeWhile hpast hw uniform_isNameByte).bind ?_
  rintro name st' ⟨⟨u, hu⟩, hmoved⟩
  refine .ite (fun _ => .fail) (fun _ => (safe_slice hu).mono ?_)
  rintro _ _ rfl
  exact hmoved

theorem safe_readEntity : readEntity.Safe st (fun _ st' => Moved t st st') := by
  refine (safe_takeWhile hpast hw (uniform_ne (c := ';') (by decide))).bind ?_
  rintro ent st' ⟨⟨u, hu⟩, hmoved⟩
  refine (safe_slice hu).bind ?_
  rintro ent _ rfl
  refine .bind_ok rfl ?_
  refine .ite (fun hsemi => ?_) (fun _ => (safe_entityChar ent).mono (fun _ _ h => h ▸ hmoved))
  obtain ⟨r, hr⟩ := head?_eq_some_iff.mp hsemi
  obtain ⟨st₂, hadvance, hmoved', -⟩ := advance_ascii hmoved.past hmoved.within hr (by decide)
  exact .bind_ok hadvance ((safe_entityChar ent).mono (fun _ _ h => h ▸ hmoved.trans hmoved'))

end

/-! ## Comments and attributes -/

/-- A scan that stops at an ASCII byte, or at the end, stops at a character. -/
theorem within_scan {f : Bytes → Bytes} (hnil : f [] = []) (hcons : ∀ b r, f (b :: r) = b :: r ∧ b.toNat < 0x80 ∨ f (b :: r) = f r)
    (hw : Within t r) : Within t (f r) ∧ (f r).length ≤ r.length := by
  obtain ⟨a, ha, hhead⟩ : ∃ a, r = a ++ f r ∧ ∀ b ∈ (f r).head?, b.toNat < 0x80 := by
    clear hw
    induction r with
    | nil => exact ⟨[], hnil.symm, fun _ hb => by rw [hnil] at hb; cases hb⟩
    | cons b r ih =>
      rcases hcons b r with ⟨hstop, hb⟩ | hgo
      · refine ⟨[], hstop.symm, fun x hx => ?_⟩
        rw [hstop] at hx
        cases hx
        exact hb
      · obtain ⟨a, ha, hhead⟩ := ih
        rw [hgo]
        exact ⟨b :: a, congrArg (cons b) ha, hhead⟩
  have hlen := congrArg length ha
  rw [length_append] at hlen
  rw [ha] at hw
  exact ⟨(hw.cut hhead).2, by omega⟩

/-- Going on to the first occurrence of an ASCII text stops between two characters. -/
theorem within_dropUntil {c : Char} (hc : c.toNat < 0x80) (s : Bytes) (hw : Within t r) : Within t (dropUntil (byte c :: s) r) := by
  refine (within_scan rfl (fun b r => ?_) hw).1
  rw [dropUntil]
  split
  next hpre =>
    simp only [isPrefixOf, Bool.and_eq_true, beq_iff_eq] at hpre
    rw [← hpre.1, byte_toNat hc]
    exact .inl ⟨rfl, hc⟩
  · exact .inr rfl

theorem length_dropUntil (s r : Bytes) : (dropUntil s r).length ≤ r.length := by
  induction r with
  | nil => exact Nat.le_refl _
  | cons b r ih =>
    rw [dropUntil]
    split
    · exact Nat.le_refl _
    · exact ih.trans (Nat.le_succ _)

/-- Where going on to a text ends: before the text, or at the end. -/
theorem dropUntil_cases (s r : Bytes) : dropUntil s r = [] ∨ s <+: dropUntil s r := by
  induction r with
  | nil => exact .inl rfl
  | cons b r ih =>
    rw [dropUntil]
    split
    next hpre => exact .inr (List.isPrefixOf_iff_prefix.mp hpre)
    · exact ih

/-- A text of ASCII characters is passed between two characters. -/
theorem within_drop_ascii {s : Str} (hs : ∀ c ∈ s, c.toNat < 0x80) (hw : Within t r) (hpre : utf8 s <+: r) :
    Within t (r.drop s.length) ∧ s.length ≤ r.length := by
  induction s generalizing r with
  | nil => exact ⟨hw, Nat.zero_le _⟩
  | cons c s ih =>
    have hc := hs c mem_cons_self
    rw [utf8_cons_ascii hc] at hpre
    obtain ⟨x, hx⟩ := hpre
    subst hx
    obtain ⟨hdrop, hlen⟩ := ih (forall_mem_cons.mp hs).2 (hw.tail (by rw [byte_toNat hc]; exact hc)) (prefix_append _ _)
    exact ⟨hdrop, Nat.succ_le_succ hlen⟩

/-- Moving over an ASCII text that is there. -/
theorem advance_text {s : Str} (hs : ∀ c ∈ s, c.toNat < 0x80) (hpast : st.past = false) (hw : Within t st.rest)
    (hpre : utf8 s <+: st.rest) :
    ∃ st', advance s.length st = .ok ((), st') ∧ Moved t st st' ∧ st'.rest = st.rest.drop s.length ∧
      st'.rest.length + s.length = st.rest.length := by
  obtain ⟨hdrop, hlen⟩ := within_drop_ascii hs hw hpre
  refine ⟨_, rfl, ⟨?_, hdrop, ?_, rfl⟩, rfl, ?_⟩
  · simp [hpast, Nat.not_lt.mpr hlen]
  · exact (drop_sublist _ _).length_le
  · simp only [length_drop]
    omega

/-- A comment is passed; one that does not end leaves nothing. -/
theorem safe_skipComment (hpast : st.past = false) (hw : Within t st.rest) (hpre : utf8 "<!--".toList <+: st.rest) :
    skipComment.Safe st (fun _ st' => (Moved t st st' ∧ st'.rest.length < st.rest.length) ∨ st'.rest = []) := by
  obtain ⟨st₁, hadvance, hmoved, -, hlen⟩ := advance_text (s := "<!--".toList) (ascii_of_all rfl) hpast hw hpre
  refine .bind_ok hadvance (.bind_ok rfl ?_)
  have hwithin : Within t (dropUntil (utf8 "-->".toList) st₁.rest) := within_dropUntil (c := '-') (by decide) _ hmoved.within
  have hle := length_dropUntil (utf8 "-->".toList) st₁.rest
  rcases dropUntil_cases (utf8 "-->".toList) st₁.rest with hnil | hfound
  · refine .of_ok rfl (.inr ?_)
    rw [hnil]
    rfl
  · obtain ⟨st₂, hadvance₂, hmoved₂, -, hlen₂⟩ := @advance_text t ⟨dropUntil (utf8 "-->".toList) st₁.rest, st₁.past, st₁.depth⟩
      "-->".toList (ascii_of_all rfl) hmoved.past hwithin hfound
    refine .of_ok hadvance₂ (.inl ⟨hmoved.trans ⟨hmoved₂.past, hmoved₂.within, hmoved₂.le.trans hle, hmoved₂.depth⟩, ?_⟩)
    have : "<!--".toList.length = 4 := rfl
    simp only at hlen₂
    omega

theorem within_dropAttributes (hw : Within t r) : Within t (dropAttributes r) ∧ (dropAttributes r).length ≤ r.length := by
  refine within_scan rfl (fun b r => ?_) hw
  rw [dropAttributes]
  split
  next hend =>
    refine .inl ⟨rfl, ?_⟩
    rcases hend with rfl | ⟨rfl, -⟩ <;> decide
  · exact .inr rfl

theorem safe_skipAttributes (hpast : st.past = false) (hw : Within t st.rest) :
    skipAttributes.Safe st (fun _ st' => Moved t st st') :=
  Safe.of_ok rfl ⟨hpast, (within_dropAttributes hw).1, (within_dropAttributes hw).2, rfl⟩

/-- Looking ahead from a position that is not beyond the end. -/
theorem startsWith_apply (s : Str) (hpast : st.past = false) : startsWith s st = .ok ((utf8 s).isPrefixOf st.rest, st) := by
  rw [startsWith, hpast]
  rfl

/-! ## Elements -/

theorem safe_enter (hd : st.depth = d) : enter.Safe st (fun _ st' => d + 1 ≤ MAX_DEPTH ∧ st' = { st with depth := d + 1 }) := by
  by_cases hle : d + 1 ≤ MAX_DEPTH
  · have hok : enter st = .ok ((), { st with depth := d + 1 }) := by rw [enter, hd, if_neg (not_lt.mpr hle)]
    exact .of_ok hok ⟨hle, rfl⟩
  · have herror : enter st = Run.fail (.parse "nesting too deep") st := by rw [enter, hd, if_pos (not_le.mp hle)]; rfl
    rw [Safe, herror]
    trivial

/-- Parsing an element at a depth moves on over at least one byte. -/
def ElementSafe (t : Str) (element : P (Str × Value)) (d : Nat) : Prop :=
  ∀ st : Parser, st.past = false → Within t st.rest → st.depth = d →
    element.Safe st (fun _ st' => Moved t st st' ∧ st'.rest.length < st.rest.length)

/-- Where the parser may stand after the content of an element. -/
structure Stands (t : Str) (n d : Nat) (st : Parser) : Prop where
  past : st.past = false
  within : Within t st.rest
  le : st.rest.length ≤ n
  depth : st.depth = d

theorem Moved.stands (h : Moved t st st₁) (hn : st.rest.length ≤ n) (hd : st.depth = d) : Stands t n d st₁ :=
  ⟨h.past, h.within, h.le.trans hn, h.depth.trans hd⟩

/-- The close tag of an element. -/
theorem safe_close (children : Object) (text tag : Str) (h : Stands t n d st) : (do
      let close ← readName
      skipWs
      if (← peek) ≠ some (byte '>') then Run.fail (.parse "malformed close tag")
      else
        advance 1
        if close ≠ tag then
          Run.fail (.parse ("mismatched tags: <" ++ String.ofList tag ++ "> vs </" ++ String.ofList close ++ ">"))
        else pure (content children text) : P Value).Safe st (fun _ st' => Stands t n d st') := by
  refine (safe_readName h.past h.within).bind fun close st₁ h₁ => ?_
  refine (safe_skipWs h₁.past h₁.within).bind fun _ st₂ h₂ => ?_
  refine .bind_ok rfl (.ite (fun _ => .fail) (fun hend => ?_))
  obtain ⟨r, hr⟩ := head?_eq_some_iff.mp (not_not.mp hend)
  obtain ⟨st₃, hadvance, h₃, -⟩ := advance_ascii h₂.past h₂.within hr (by decide)
  refine .bind_ok hadvance (.ite (fun _ => .fail) (fun _ => .pure ?_))
  exact ((h₁.trans h₂).trans h₃).stands h.le h.depth

/-- The content of an element: the run at hand and what follows are an end of the text. -/
theorem safe_parseContentLoop {element : P (Str × Value)} (helement : d + 1 ≤ MAX_DEPTH → ElementSafe t element (d + 1))
    (tag : Str) (fuel : Nat) (children : Object) (text : Str) (run : Bytes) (hpast : st.past = false)
    (hw : Within t (run ++ st.rest)) (hd : st.depth = d) (hn : st.rest.length ≤ n) (hf : st.rest.length < fuel) :
    (parseContentLoop element tag fuel children text run).Safe st (fun _ st' => Stands t n d st') := by
  induction fuel generalizing children text run st with
  | zero => omega
  | succ fuel ih =>
    cases hrest : st.rest with
    | nil => exact .bind_ok (show peek st = .ok (none, st) by rw [peek, hrest]; rfl) Safe.fail
    | cons b r =>
      refine .bind_ok (show peek st = .ok (some b, st) by rw [peek, hrest]; rfl) ?_
      have hlen : st.rest.length = r.length + 1 := by rw [hrest]; rfl
      -- at an ASCII byte the run is text, and the parser stands between two characters
      have hcut : b.toNat < 0x80 → (∃ u, run = utf8 u) ∧ Within t st.rest := by
        intro hb
        refine hw.cut (fun x hx => ?_)
        rw [hrest] at hx
        cases hx
        exact hb
      refine .ite (fun hb => ?_) (fun _ => .ite (fun hb => ?_) (fun _ => ?_))
      · obtain ⟨⟨u, hu⟩, hw'⟩ := hcut (by rw [hb]; decide)
        refine (safe_slice hu).bind ?_
        rintro clean _ rfl
        refine .bind_ok (startsWith_apply _ hpast) (.ite (fun hcomment => ?_) (fun _ => ?_))
        · refine (safe_skipComment hpast hw' (List.isPrefixOf_iff_prefix.mp hcomment)).bind ?_
          rintro _ st₁ (⟨hmoved, hlt⟩ | hnil)
          · exact ih _ _ [] hmoved.past hmoved.within (hmoved.depth.trans hd) (by omega) (by omega)
          · -- the comment does not end: the input is at its end
            cases fuel with
            | zero => omega
            | succ fuel =>
              exact .bind_ok (show peek st₁ = .ok (none, st₁) by rw [peek, hnil]; rfl) Safe.fail
        refine .bind_ok (startsWith_apply _ hpast) (.ite (fun hclose => ?_) (fun _ => ?_))
        · obtain ⟨st₁, hadvance, hmoved, -, -⟩ := advance_text (s := "</".toList) (ascii_of_all rfl) hpast hw'
            (List.isPrefixOf_iff_prefix.mp hclose)
          exact .bind_ok hadvance (safe_close _ _ _ (hmoved.stands hn hd))
        · refine (safe_enter hd).bind ?_
          rintro _ st₁ ⟨hdepth, rfl⟩
          refine (helement hdepth { st with depth := d + 1 } hpast hw' rfl).bind ?_
          rintro ⟨childTag, childVal⟩ st₂ ⟨h₂, hlt⟩
          have hleave : leave st₂ = .ok ((), { st₂ with depth := d }) := by
            rw [leave, h₂.depth]
            rfl
          exact .bind_ok hleave (ih _ _ [] h₂.past h₂.within rfl (by simp only at hlt ⊢; omega) (by simp only at hlt ⊢; omega))
      · obtain ⟨⟨u, hu⟩, hw'⟩ := hcut (by rw [hb]; decide)
        refine (safe_slice hu).bind ?_
        rintro clean _ rfl
        obtain ⟨st₁, hadvance, h₁, hr⟩ := advance_ascii hpast hw' hrest (by rw [hb]; decide)
        refine .bind_ok hadvance ((safe_readEntity h₁.past h₁.within).bind fun c st₂ h₂ => ?_)
        have hle := h₂.le
        rw [hr] at hle
        exact ih _ _ [] h₂.past h₂.within ((h₁.trans h₂).depth.trans hd) (by omega) (by omega)
      · have hadvance : advance 1 st = .ok ((), ⟨r, false, d⟩) := by
          rw [advance, hrest, hpast, ← hd]
          rfl
        refine .bind_ok hadvance (ih _ _ _ rfl ?_ rfl (by simp only; omega) (by simp only; omega))
        rw [hrest] at hw
        simpa using hw

theorem safe_parseElementFuel (t : Str) {fuel : Nat} (hf : MAX_DEPTH < fuel + d) (hd : d ≤ MAX_DEPTH) :
    ElementSafe t (parseElementFuel fuel) d := by
  induction fuel generalizing d with
  | zero => omega
  | succ fuel ih =>
    intro st hpast hw hdepth
    refine (safe_skipWs hpast hw).bind fun _ st₁ h₁ => ?_
    refine .bind_ok rfl (.ite (fun _ => .fail) (fun hopen => ?_))
    obtain ⟨r, hr⟩ := head?_eq_some_iff.mp (not_not.mp hopen)
    obtain ⟨st₂, hadvance, h₂, hr₂⟩ := advance_ascii h₁.past h₁.within hr (by decide)
    have hshorter : st₂.rest.length < st.rest.length := by
      have hle := h₁.le
      rw [hr, length_cons] at hle
      rw [hr₂]
      omega
    refine .bind_ok hadvance ((safe_readName h₂.past h₂.within).bind fun tag st₃ h₃ => ?_)
    refine (safe_skipAttributes h₃.past h₃.within).bind fun _ st₄ h₄ => ?_
    have hmoved := (h₁.trans h₂).trans (h₃.trans h₄)
    have hlt : st₄.rest.length < st.rest.length := Nat.lt_of_le_of_lt (h₃.trans h₄).le hshorter
    refine .bind_ok (startsWith_apply _ h₄.past) (.ite (fun hself => ?_) (fun _ => ?_))
    · obtain ⟨st₅, hadvance₅, h₅, -, -⟩ := advance_text (s := "/>".toList) (ascii_of_all rfl) h₄.past h₄.within
        (List.isPrefixOf_iff_prefix.mp hself)
      exact .bind_ok hadvance₅ (.pure ⟨hmoved.trans h₅, Nat.lt_of_le_of_lt h₅.le hlt⟩)
    · refine .bind_ok rfl (.ite (fun _ => .fail) (fun hend => ?_))
      obtain ⟨r₄, hr₄⟩ := head?_eq_some_iff.mp (not_not.mp hend)
      obtain ⟨st₅, hadvance₅, h₅, -⟩ := advance_ascii h₄.past h₄.within hr₄ (by decide)
      have hcontent : (parseContent (parseElementFuel fuel) tag).Safe st₅ _ := .bind_ok rfl (safe_parseContentLoop
        (fun hle => ih (d := d + 1) (by omega) hle) tag (st₅.rest.length + 1) [] [] [] h₅.past h₅.within
        ((hmoved.trans h₅).depth.trans hdepth) (Nat.le_refl _) (Nat.lt_succ_self _))
      refine .bind_ok hadvance₅ (hcontent.bind fun value st₆ h₆ => ?_)
      refine .pure ⟨⟨h₆.past, h₆.within, ?_, h₆.depth.trans hdepth.symm⟩, ?_⟩
      · exact h₆.le.trans (hmoved.trans h₅).le
      · exact Nat.lt_of_le_of_lt (h₆.le.trans h₅.le) hlt

end Ferroly.Xml
