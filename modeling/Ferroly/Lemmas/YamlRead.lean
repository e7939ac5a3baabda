import Ferroly.Lemmas.YamlText

/-!
# Reading the lines of a value

`ReadsIff` says of a parser what it makes of the lines of a value followed by others: it returns what is expected, and leaves
exactly the others, if a condition holds, and does not return what is expected otherwise. Blocks, entries and items satisfy it
with `survives` for the condition.
-/

namespace Ferroly.Yaml

open List Run Run

variable {D : F64Display} {rest st st' : List Line} {depth fuel indent : Nat} {s t : Str} {v : Value}

/-! ## Where a line splits -/

theorem hasColonSpace_nil : hasColonSpace [] = false := rfl

theorem hasColonSpace_cons (c : Char) (s : Str) :
    hasColonSpace (c :: s) = ((c == ':' && s.head? == some ' ') || hasColonSpace s) := by
  have hpre : [':', ' '].isPrefixOf (c :: s) = (c == ':' && s.head? == some ' ') := by
    cases s with
    | nil => simp [isPrefixOf]
    | cons d s =>
      rw [Bool.eq_iff_iff]
      simp only [isPrefixOf, Bool.and_true, head?_cons, Bool.and_eq_true, beq_iff_eq, Option.some.injEq]
      exact and_congr eq_comm eq_comm
  rw [hasColonSpace, containsStr, tails_cons, ← hpre]
  rfl

theorem head?_escaped (ht : t.head? ≠ some ' ') : (escaped s ++ t).head? = some ' ' ↔ s.head? = some ' ' := by
  cases s with
  | nil => simp [escaped, ht]
  | cons c s =>
    rw [escaped_cons]
    rcases escapeChar_cases c with ⟨he, -⟩ | ⟨d, he, -, hun⟩
    · simp [he]
    · have hc : c ≠ ' ' := by
        rintro rfl
        cases he
      simp [he, hc]

/-- Escaping neither makes nor breaks a colon with a space after it. -/
theorem hasColonSpace_escaped (s : Str) (ht : t.head? ≠ some ' ') :
    hasColonSpace (escaped s ++ t) = (hasColonSpace s || hasColonSpace t) := by
  induction s with
  | nil => rfl
  | cons c s ih =>
    rw [escaped_cons, append_assoc, hasColonSpace_cons, Bool.or_assoc, ← ih]
    rcases escapeChar_cases c with ⟨he, -⟩ | ⟨d, he, -, hun⟩
    · rw [he, singleton_append, hasColonSpace_cons]
      congr 2
      rw [Bool.eq_iff_iff, beq_iff_eq, beq_iff_eq]
      exact head?_escaped ht
    · have hc : c ≠ ':' := by
        rintro rfl
        cases he
      have hd : d ≠ ':' := by
        rintro rfl
        have := hun []
        exact hc (cons.inj this).1.symm
      rw [he, cons_append, singleton_append, hasColonSpace_cons, hasColonSpace_cons]
      simp [beq_false_of_ne hc, beq_false_of_ne hd]

theorem hasColonSpace_eq_false_of_not_mem (h : ':' ∉ s) : hasColonSpace s = false := by
  induction s with
  | nil => rfl
  | cons c s ih =>
    rw [mem_cons, not_or] at h
    rw [hasColonSpace_cons, ih h.2]
    simp [Ne.symm h.1]

/-- Quoting a string or not, its text has a colon and a space exactly when it has. -/
theorem hasColonSpace_stringText : hasColonSpace (stringText s) = hasColonSpace s := by
  rw [stringText]
  cases h : needsQuote s with
  | true =>
    rw [if_pos rfl, quote, hasColonSpace_cons, hasColonSpace_escaped s (by simp)]
    simp [hasColonSpace_cons, hasColonSpace_nil]
  | false => rfl

theorem splitMarker_cons (c : Char) : splitMarker (c :: s) = if c = ':' ∧ (s = [] ∨ s.head? = some ' ') then some ([], s)
      else (splitMarker s).map (fun p => (c :: p.1, p.2)) := rfl

/-- The first marker is the one after text that has none. -/
theorem splitMarker_append {p r : Str} (hp : hasColonSpace p = false) (hr : r = [] ∨ r.head? = some ' ') :
    splitMarker (p ++ ':' :: r) = some (p, r) := by
  induction p with
  | nil => rw [nil_append, splitMarker_cons, if_pos ⟨rfl, hr⟩]
  | cons c p ih =>
    rw [hasColonSpace_cons, Bool.or_eq_false_iff] at hp
    have hno : ¬(c = ':' ∧ (p ++ ':' :: r = [] ∨ (p ++ ':' :: r).head? = some ' ')) := by
      rintro ⟨rfl, h | h⟩
      · exact absurd h (by simp)
      · cases p with
        | nil => exact absurd h (by simp)
        | cons d p => simp_all
    rw [cons_append, splitMarker_cons, if_neg hno, ih hp.2]
    rfl

/-- A colon and a space are a marker, the first of them at the latest. -/
theorem splitMarker_of_colonSpace (h : hasColonSpace s = true) :
    ∃ p r, splitMarker s = some (p, ' ' :: r) ∧ s = p ++ ':' :: ' ' :: r ∧ hasColonSpace p = false := by
  induction s with
  | nil => cases h
  | cons c s ih =>
    rw [hasColonSpace_cons, Bool.or_eq_true] at h
    by_cases hc : (c == ':' && s.head? == some ' ') = true
    · obtain ⟨hcolon, hs⟩ := Bool.and_eq_true_iff.mp hc
      rw [beq_iff_eq] at hcolon hs
      obtain ⟨r, rfl⟩ := head?_eq_some_iff.mp hs
      refine ⟨[], r, ?_, by rw [hcolon, nil_append], hasColonSpace_nil⟩
      rw [splitMarker_cons, if_pos ⟨hcolon, .inr rfl⟩]
    · obtain ⟨p, r, hs, rfl, hp⟩ := ih (h.resolve_left hc)
      have hno : ¬(c = ':' ∧ (p ++ ':' :: ' ' :: r = [] ∨ (p ++ ':' :: ' ' :: r).head? = some ' ')) := by
        rintro ⟨rfl, h | h⟩
        · exact absurd h (by simp)
        · exact hc (by simpa using h)
      refine ⟨c :: p, r, by rw [splitMarker_cons, if_neg hno, hs]; rfl, rfl, ?_⟩
      rw [hasColonSpace_cons, hp, Bool.or_false]
      rw [Bool.not_eq_true] at hc
      cases p with
      | nil => simp
      | cons d p => exact hc

/-- Text that has no colon with a space after it and does not end in a colon has no marker. -/
theorem splitMarker_eq_none (h : hasColonSpace s = false) (hlast : s.getLast? ≠ some ':') : splitMarker s = none := by
  induction s with
  | nil => rfl
  | cons c s ih =>
    rw [hasColonSpace_cons, Bool.or_eq_false_iff] at h
    have hno : ¬(c = ':' ∧ (s = [] ∨ s.head? = some ' ')) := by
      rintro ⟨rfl, rfl | hs⟩
      · exact hlast rfl
      · simp [hs] at h
    have hl : s.getLast? ≠ some ':' := by
      cases s with
      | nil => simp
      | cons d s => simpa using hlast
    rw [splitMarker_cons, if_neg hno, ih h.2 hl]
    rfl

/-! ## Keys -/

/-- Trimming text that begins with a quote only takes from its end. -/
theorem trim_cons_quote (q : Str) : ∃ q', trim ('"' :: q) = '"' :: q' ∧ q' <+: q :=
  ⟨trimEnd q, trim_cons_of_not (by decide), rdropWhile_prefix _ _⟩

theorem hasColonSpace_mono (h : s <+: t) (hs : hasColonSpace s = true) : hasColonSpace t = true := by
  obtain ⟨u, rfl⟩ := h
  induction s with
  | nil => cases hs
  | cons c s ih =>
    rw [hasColonSpace_cons, Bool.or_eq_true] at hs
    rw [cons_append, hasColonSpace_cons, Bool.or_eq_true]
    rcases hs with hs | hs
    · refine .inl ?_
      cases s with
      | nil => simp at hs
      | cons d s => exact hs
    · exact .inr (ih hs)

/-- What is read for a key up to a marker inside its quotes is not the key. -/
theorem unquote_ne_of_marker {k q : Str} (hk : hasColonSpace k = true) (hq : q <+: escaped k)
    (hno : hasColonSpace ('"' :: q) = false) : unquote (trim ('"' :: q)) ≠ k := by
  obtain ⟨q1, h1, hq1⟩ := trim_cons_quote q
  obtain ⟨q2, h2, hq2⟩ := trim_cons_quote q1
  have hpre : q2 <+: q := hq2.trans hq1
  have hnone : hasColonSpace q2 ≠ true := by
    intro h
    rw [hasColonSpace_cons, hasColonSpace_mono hpre h] at hno
    cases hno
  rw [h1, unquote, h2]
  intro he
  by_cases hquoted : isQuotedBy '"' ('"' :: q2) = true
  · rw [if_pos hquoted, tail_cons] at he
    have hinner : q2.dropLast <+: q2 := dropLast_prefix q2
    obtain ⟨s', hs', -, hform⟩ := unescape_of_isPrefix (hinner.trans (hpre.trans hq))
    rw [he] at hs'
    subst hs'
    have hesc : hasColonSpace (escaped k) = true := by
      have := hasColonSpace_escaped k (t := []) (by simp)
      rw [append_nil, hk] at this
      exact this
    refine hnone (hasColonSpace_mono hinner ?_)
    rcases hform with hform | hform
    · rw [hform]
      exact hesc
    · rw [hform]
      exact hasColonSpace_mono (prefix_append _ _) hesc
  · rw [if_neg hquoted, not_isQuotedBy (by decide)] at he
    simp only [Bool.false_eq_true, if_false] at he
    rw [← he] at hk
    exact hnone hk

/-- The key of a line: the key itself if it has no marker inside, else another one. -/
theorem mappingKey_line (k : Str) {m : Str} (hm : m = [] ∨ ∃ t, m = ' ' :: t ∧ Clean t) :
    ∃ key rest, mappingKey (stringText k ++ ':' :: m) = some (key, rest) ∧ (hasColonSpace k = true → key ≠ k) ∧
      (hasColonSpace k = false → key = k ∧ rest = m.tail) := by
  cases hk : hasColonSpace k with
  | false =>
    have hr : m = [] ∨ m.head? = some ' ' := by
      rcases hm with rfl | ⟨t, rfl, -⟩
      · exact .inl rfl
      · exact .inr rfl
    have hrest : trim m = m.tail := by
      rcases hm with rfl | ⟨t, rfl, ht⟩
      · rfl
      · rw [tail_cons, trim, trimStart_cons_of_ws rfl, ← trim, ht.trim_eq]
    refine ⟨k, m.tail, ?_, by simp, fun _ => ⟨rfl, rfl⟩⟩
    rw [mappingKey, splitMarker_append (by rw [hasColonSpace_stringText, hk]) hr, Option.map_some, hrest,
      clean_stringText.trim_eq, unquote_stringText]
  | true =>
    have hmem : ':' ∈ k := by
      by_contra hn
      rw [hasColonSpace_eq_false_of_not_mem hn] at hk
      cases hk
    have hquote : stringText k = quote k := by
      rw [stringText]
      cases hq : needsQuote k with
      | true => rfl
      | false => exact absurd ((bare_of_not_needsQuote hq).special _ hmem) (by decide)
    have hline : hasColonSpace (stringText k ++ ':' :: m) = true :=
      hasColonSpace_mono (prefix_append _ _) (by rw [hasColonSpace_stringText, hk])
    obtain ⟨p, r, hsplit, happ, hp⟩ := splitMarker_of_colonSpace hline
    refine ⟨unquote (trim p), trim (' ' :: r), by rw [mappingKey, hsplit]; rfl, fun _ => ?_, by simp⟩
    -- the marker lies between the quotes, since up to the closing one there already is one
    rw [hquote, quote, cons_append, append_assoc] at happ
    cases p with
    | nil => cases happ
    | cons c q =>
      obtain ⟨rfl, htail⟩ := cons.inj happ
      refine unquote_ne_of_marker hk ?_ hp
      rcases append_eq_append_iff.mp htail with ⟨u, rfl, hu⟩ | ⟨u, hu, -⟩
      · cases u with
        | nil => exact ⟨[], by simp⟩
        | cons d u =>
          obtain ⟨rfl, -⟩ := cons.inj hu
          rw [hasColonSpace_cons, hasColonSpace_escaped k (by simp), hk] at hp
          simp at hp
      · exact ⟨u, hu.symm⟩

/-! ## Texts on a line -/

/-- The only scalars whose text has a marker are strings that have one. -/
def hasMarker : Value → Bool
  | .str s => hasColonSpace s
  | _ => false

theorem colon_not_mem_of_plain (h : PlainDecimal s) : ':' ∉ s := by
  obtain ⟨neg, whole, part, rfl, -, hw, hp⟩ := h
  exact fun hm => isNumberChar_ne (isNumberChar_plainText hw hp _ hm) (by decide) rfl

theorem getLast?_stringText : (stringText s).getLast? ≠ some ':' := by
  rw [stringText]
  cases h : needsQuote s with
  | true =>
    rw [if_pos rfl, quote, ← cons_append, getLast?_concat]
    decide
  | false =>
    intro hl
    exact (bare_of_not_needsQuote h).special _ (mem_of_getLast? hl) (by decide)

/-- A scalar's text has a marker if it is a string that has one, and then only. -/
theorem splitMarker_scalarText (h : v.isPlain = true) : (splitMarker (scalarText D v)).isSome = hasMarker v := by
  have hnone : ∀ t : Str, ':' ∉ t → (splitMarker t).isSome = false := by
    intro t ht
    rw [splitMarker_eq_none (hasColonSpace_eq_false_of_not_mem ht) (fun hl => ht (mem_of_getLast? hl))]
    rfl
  by_cases hstr : ∃ s, v = .str s
  · obtain ⟨s, rfl⟩ := hstr
    rw [scalarText_str, hasMarker, ← hasColonSpace_stringText]
    cases hc : hasColonSpace (stringText s) with
    | true =>
      obtain ⟨p, r, hs, -⟩ := splitMarker_of_colonSpace hc
      rw [hs]
      rfl
    | false =>
      rw [splitMarker_eq_none hc (getLast?_stringText)]
      rfl
  · rw [not_exists] at hstr
    have hmarker : hasMarker v = false := by
      cases v with
      | str s => exact absurd rfl (hstr s)
      | _ => rfl
    rw [hmarker]
    rcases scalarText_cases (D := D) h hstr with hword | hnum
    · exact hnone _ (fun hm => absurd (mem_flatten_of_mem hword hm) (by decide))
    · exact hnone _ (colon_not_mem_of_plain hnum)

theorem splitMarker_inlineText (h : v.isPlain = true) : (splitMarker (inlineText D v)).isSome = hasMarker v := by
  cases v with
  | array a => exact (by decide : (splitMarker "[]".toList).isSome = false)
  | object o => exact (by decide : (splitMarker "\x7b\x7d".toList).isSome = false)
  | _ => exact splitMarker_scalarText h

theorem isSome_mappingKey : (mappingKey s).isSome = (splitMarker s).isSome := by
  rw [mappingKey, Option.isSome_map]

/-! ## Parsers of lines -/

/-- On the lines `ls` followed by `rest`, a parser returns `x` and leaves `rest` if `c` holds, and does not return `x` if not. -/
def ReadsIff {α : Type} (p : P α) (ls rest : List Line) (x : α) (c : Prop) : Prop :=
  (c → p (ls ++ rest) = .ok (x, rest)) ∧ (¬c → ∀ st, p (ls ++ rest) ≠ .ok (x, st))

section ReadsIff

variable {α β : Type} {ls : List Line} {c : Prop}

theorem ReadsIff.map {p : P α} {f : α → β} {x : α} (hf : ∀ y, f y = f x → y = x) (h : ReadsIff p ls rest x c) :
    ReadsIff (p >>= fun y => pure (f y)) ls rest (f x) c := by
  refine ⟨fun hc => by rw [bind_of_ok (h.1 hc)]; rfl, fun hc st heq => ?_⟩
  obtain ⟨y, st1, hp, hy⟩ := bind_eq_ok.mp heq
  cases hf y (congrArg Prod.fst (Except.ok.inj hy))
  exact h.2 hc st1 hp

theorem ReadsIff.advance {p : P α} {x : α} {l : Line} (h : ReadsIff p ls rest x c) :
    ReadsIff (advance >>= fun _ => p) (l :: ls) rest x c := h

theorem readsIff_pure (x : α) (hc : c) : ReadsIff (pure x) [] rest x c := ⟨fun _ => rfl, fun h => absurd hc h⟩

end ReadsIff

/-- The lines go on, if at all, with one that is indented less than `n`. -/
def Below (n : Nat) (ls : List Line) : Prop := ∀ l ∈ ls.head?, l.1 < n

section Loop

variable {α β : Type} {dash : Bool} {message : String} {line : Str → P α}

theorem linesLoop_succ (fuel : Nat) (acc : List α) (st : List Line) : linesLoop dash message line indent (fuel + 1) acc st =
      match st with
      | [] => .ok (acc, [])
      | (ind, content) :: ls =>
        if ind < indent ∨ isDash content ≠ dash then .ok (acc, (ind, content) :: ls)
        else if ind > indent then .error (.error (.parse message))
        else (line content >>= fun x => linesLoop dash message line indent fuel (acc ++ [x])) ((ind, content) :: ls) := by
  rw [linesLoop, Run.bind_apply, Run.get_apply]
  cases st with
  | nil => rfl
  | cons l ls =>
    obtain ⟨ind, content⟩ := l
    simp only [Run.ite_apply, Run.pure_apply, Run.fail_apply]

/-- What a loop returns begins with what it had. -/
theorem linesLoop_prefix {acc xs : List α} (h : linesLoop dash message line indent fuel acc st = .ok (xs, st')) : acc <+: xs := by
  induction fuel generalizing acc st with
  | zero => cases h
  | succ fuel ih =>
    rw [linesLoop_succ] at h
    cases st with
    | nil =>
      cases h
      exact prefix_rfl
    | cons l ls =>
      obtain ⟨ind, content⟩ := l
      simp only at h
      split at h
      · cases h
        exact prefix_rfl
      · split at h
        · cases h
        · obtain ⟨x, st1, -, h⟩ := bind_eq_ok.mp h
          exact (prefix_append acc [x]).trans (ih h)

/-- A loop stops at a line that is indented less. -/
theorem linesLoop_stop {acc : List α} (h : Below indent rest) :
    linesLoop dash message line indent (fuel + 1) acc rest = .ok (acc, rest) := by
  rw [linesLoop_succ]
  cases rest with
  | nil => rfl
  | cons l ls => exact if_pos (.inl (h l rfl))

/-- A loop over the lines of a list: if each element's lines begin at the block's indentation with a content of its kind and
are read under the element's condition, then the list is read under all of them. -/
theorem linesLoop_reads {content : β → Str} {lineTail : β → List Line} {value : β → α} {cond : β → Prop} {xs : List β}
    (hkind : ∀ x ∈ xs, isDash (content x) = dash) (hrest : Below indent rest) (hread : ∀ x ∈ xs, ∀ more, Below (indent + 1) more →
      ReadsIff (line (content x)) ((indent, content x) :: lineTail x) more (value x) (cond x)) (hfuel : xs.length < fuel)
    (acc : List α) :
    ReadsIff (linesLoop dash message line indent fuel acc) (xs.flatMap (fun x => (indent, content x) :: lineTail x)) rest
      (acc ++ xs.map value) (∀ x ∈ xs, cond x) := by
  induction xs generalizing fuel acc with
  | nil =>
    obtain ⟨n, rfl⟩ := Nat.exists_eq_add_one.mpr hfuel
    refine ⟨fun _ => ?_, fun h => absurd nofun h⟩
    rw [flatMap_nil, nil_append, linesLoop_stop hrest, map_nil, append_nil]
  | cons x xs ih =>
    obtain ⟨n, rfl⟩ := Nat.exists_eq_add_one.mpr (Nat.zero_lt_of_lt hfuel)
    have hmore : Below (indent + 1) (xs.flatMap (fun x => (indent, content x) :: lineTail x) ++ rest) := by
      cases xs with
      | nil =>
        intro l hl
        have := hrest l hl
        omega
      | cons y ys =>
        rintro l ⟨⟩
        exact Nat.lt_succ_self indent
    have hx := hread x mem_cons_self _ hmore
    have hlen : xs.length < n := by simpa using hfuel
    have ih := ih (forall_mem_cons.mp hkind).2 (forall_mem_cons.mp hread).2 hlen
    have hstep : linesLoop dash message line indent (n + 1) acc
          ((x :: xs).flatMap (fun x => (indent, content x) :: lineTail x) ++ rest) =
        (line (content x) >>= fun y => linesLoop dash message line indent n (acc ++ [y]))
          ((indent, content x) :: lineTail x ++ (xs.flatMap (fun x => (indent, content x) :: lineTail x) ++ rest)) := by
      rw [flatMap_cons, linesLoop_succ]
      simp [hkind x mem_cons_self]
    constructor
    · intro hall
      rw [hstep, bind_of_ok (hx.1 (hall x mem_cons_self)), (ih (acc ++ [value x])).1 (forall_mem_cons.mp hall).2]
      simp
    · intro hnot st heq
      rw [hstep] at heq
      obtain ⟨y, st1, hy, hloop⟩ := bind_eq_ok.mp heq
      -- the element read first is the one expected, since it stays where it is
      have hval : y = value x := by
        have hpre := linesLoop_prefix hloop
        have := (prefix_append_right_inj acc).mp hpre
        exact (cons_prefix_cons.mp this).1
      subst hval
      by_cases hc : cond x
      · rw [hx.1 hc] at hy
        cases hy
        have hrest' : ¬∀ y ∈ xs, cond y := fun h => hnot (fun y hy => by
          rcases mem_cons.mp hy with rfl | hy
          · exact hc
          · exact h y hy)
        exact (ih (acc ++ [value x])).2 hrest' st (by rw [hloop]; simp)
      · exact hx.2 hc st1 hy

/-- The same for a whole block, with as much fuel as there are lines. -/
theorem linesLoop_reads_block (content : β → Str) (lineTail : β → List Line) (value : β → α) {cond : β → Prop} {xs : List β}
    (hkind : ∀ x ∈ xs, isDash (content x) = dash) (hrest : Below indent rest) (hread : ∀ x ∈ xs, ∀ more, Below (indent + 1) more →
      ReadsIff (line (content x)) ((indent, content x) :: lineTail x) more (value x) (cond x)) :
    ReadsIff (fun st => linesLoop dash message line indent (st.length + 1) [] st)
      (xs.flatMap (fun x => (indent, content x) :: lineTail x)) rest (xs.map value) (∀ x ∈ xs, cond x) := by
  have hlen : xs.length ≤ (xs.flatMap (fun x => (indent, content x) :: lineTail x)).length := by
    induction xs with
    | nil => simp
    | cons x xs ih =>
      have := ih (forall_mem_cons.mp hkind).2 (forall_mem_cons.mp hread).2
      rw [flatMap_cons, cons_append, length_cons, length_cons, length_append]
      omega
  exact linesLoop_reads hkind hrest hread (by rw [length_append]; omega) []

end Loop

/-! ## Object, items and blocks -/

theorem entriesLines_eq_flatMap (o : Object) :
    entriesLines D o indent = o.flatMap (fun e => (indent, stringText e.1 ++ ':' :: markerText D e.2) ::
      childLines (blockLines D e.2) e.2 indent) := by
  induction o with
  | nil => rfl
  | cons e o ih =>
    obtain ⟨k, v⟩ := e
    rw [entriesLines, ih, flatMap_cons, cons_append]

theorem itemsLines_eq_flatMap (a : List Value) :
    itemsLines D a indent = a.flatMap (fun v => (indent, '-' :: markerText D v) :: childLines (blockLines D v) v indent) := by
  induction a with
  | nil => rfl
  | cons v a ih => rw [itemsLines, ih, flatMap_cons, cons_append]

/-- The lines of a block begin at its indentation. -/
theorem blockLines_cons (n : Nat) : ∃ c ls, blockLines D v n = (n, c) :: ls := by
  cases v with
  | array a =>
    cases a with
    | nil | cons w a => exact ⟨_, _, rfl⟩
  | object o =>
    cases o with
    | nil | cons e o => exact ⟨_, _, rfl⟩
  | _ => exact ⟨_, _, rfl⟩

section Blocks

variable {block : Nat → Nat → P Value}

/-- The block parser reads a value where it is nested below a marker. -/
def ReadsChild (D : FloatDisplay binary64) (block : Nat → Nat → P Value) (indent depth : Nat) (v : Value) : Prop :=
  isNested v = true → ∀ rest, Below (indent + 2) rest →
    ReadsIff (block (indent + 2) (depth + 1)) (blockLines D v (indent + 2)) rest (readBack D v) (survives .item v = true)

/-- A nested value survives at one place if it does at another. -/
theorem survives_nested (h : isNested v = true) (p q : Place) : survives p v = survives q v := by
  cases v with
  | array a =>
    cases a with
    | nil => cases h
    | cons w a => cases p <;> cases q <;> rfl
  | object o =>
    cases o with
    | nil => cases h
    | cons e o => cases p <;> cases q <;> rfl
  | _ => cases h

theorem survives_inline (h : isNested v = false) : survives .value v = true ∧ survives .item v = !hasMarker v := by
  cases v with
  | array a =>
    cases a with
    | nil => exact ⟨rfl, rfl⟩
    | cons w a => cases h
  | object o =>
    cases o with
    | nil => exact ⟨rfl, rfl⟩
    | cons e o => cases h
  | str s => exact ⟨rfl, rfl⟩
  | _ => exact ⟨rfl, rfl⟩

/-- Below a marker a nested value's block is parsed. -/
theorem parseChild_nested : parseChild block indent depth (blockLines D v (indent + 2) ++ rest) =
      block (indent + 2) (depth + 1) (blockLines D v (indent + 2) ++ rest) := by
  obtain ⟨c, ls, hls⟩ := blockLines_cons (indent + 2)
  rw [parseChild, bind_apply, get_apply, hls, cons_append]
  simp only [Run.ite_apply]
  rw [if_pos (by omega)]

theorem below_mono {n m : Nat} {ls : List Line} (hnm : n ≤ m) (h : Below n ls) : Below m ls :=
  fun l hl => Nat.lt_of_lt_of_le (h l hl) hnm

/-- An entry is read back unless its key has a marker in it or its value does not survive. -/
theorem parseEntry_reads (hD : D.PointsFractions) {k : Str} (hp : v.isPlain = true) (hchild : ReadsChild D block indent depth v)
    (hrest : Below (indent + 1) rest) :
    ReadsIff (parseEntry block indent depth (stringText k ++ ':' :: markerText D v))
      ((indent, stringText k ++ ':' :: markerText D v) :: childLines (blockLines D v) v indent) rest (k, readBack D v)
      (hasColonSpace k = false ∧ survives .value v = true) := by
  obtain ⟨key, after, hkey, hne, heq⟩ := mappingKey_line k (markerText_cases (D := D) hp)
  have hrun : parseEntry block indent depth (stringText k ++ ':' :: markerText D v) =
      (do
        advance
        if after = [] then
          let v ← parseChild block indent depth
          pure (key, v)
        else pure (key, parseScalar after)) := by
    rw [parseEntry, hkey]
  have hbad : hasColonSpace k = true → ∀ st st' w,
      parseEntry block indent depth (stringText k ++ ':' :: markerText D v) st ≠ .ok ((k, w), st') := by
    intro hk st st' w h
    rw [hrun] at h
    obtain ⟨-, st1, -, h⟩ := bind_eq_ok.mp h
    split at h
    · obtain ⟨w', st2, -, h⟩ := bind_eq_ok.mp h
      cases h
      exact hne hk rfl
    · cases h
      exact hne hk rfl
  cases hk : hasColonSpace k with
  | true => exact ⟨fun h => absurd h.1 (by simp), fun _ st => hbad hk _ st _⟩
  | false =>
    obtain ⟨rfl, rfl⟩ := heq hk
    simp only [true_and]
    rw [hrun]
    refine ReadsIff.advance ?_
    cases hn : isNested v with
    | true =>
      simp only [markerText, childLines, hn, if_true]
      refine ReadsIff.map (fun y hy => congrArg Prod.snd hy) ?_
      rw [survives_nested hn .value .item, ReadsIff, parseChild_nested]
      exact hchild hn rest (below_mono (by omega) hrest)
    | false =>
      have hclean := clean_inlineText (D := D) hp
      simp only [markerText, childLines, hn, Bool.false_eq_true, if_false, tail_cons, hclean.ne_nil, parseScalar_inlineText hD hp hn]
      exact readsIff_pure _ (survives_inline hn).1

/-- An item is read back unless it does not survive. -/
theorem parseItem_reads (hD : D.PointsFractions) (hp : v.isPlain = true) (hchild : ReadsChild D block indent depth v)
    (hrest : Below (indent + 1) rest) :
    ReadsIff (parseItem block indent depth ('-' :: markerText D v))
      ((indent, '-' :: markerText D v) :: childLines (blockLines D v) v indent) rest (readBack D v)
      (survives .item v = true) := by
  cases hn : isNested v with
  | true =>
    have hrun : parseItem block indent depth ('-' :: markerText D v) = (advance >>= fun _ => parseChild block indent depth) := by
      rw [markerText, hn]
      rfl
    rw [hrun]
    refine ReadsIff.advance ?_
    rw [childLines, hn, if_pos rfl, ReadsIff, parseChild_nested]
    exact hchild hn rest (below_mono (by omega) hrest)
  | false =>
    have hclean := clean_inlineText (D := D) hp
    have hafter : trimStart (markerText D v) = inlineText D v := by
      rw [markerText, hn, if_neg (by simp), trimStart_cons_of_ws rfl, hclean.trimStart_eq]
    have hmarker := splitMarker_inlineText (D := D) hp
    rw [← isSome_mappingKey] at hmarker
    rw [parseItem, tail_cons, hafter, if_neg hclean.ne_nil, childLines, hn, (survives_inline hn).2]
    cases hkey : mappingKey (inlineText D v) with
    | none =>
      rw [hkey] at hmarker
      rw [← hmarker]
      refine ReadsIff.advance ?_
      rw [parseScalar_inlineText hD hp hn]
      exact readsIff_pure _ rfl
    | some e =>
      -- a string with a marker is taken for a mapping
      rw [hkey] at hmarker
      rw [← hmarker]
      obtain ⟨s, rfl⟩ : ∃ s, v = .str s := by
        cases v with
        | str s => exact ⟨s, rfl⟩
        | _ => cases hmarker
      exact ⟨fun h => absurd h (by simp), fun _ st h => by cases h⟩

theorem isDash_stringText (k : Str) (m : Str) : isDash (stringText k ++ ':' :: m) = false := by
  rw [stringText]
  cases h : needsQuote k with
  | true => simp [quote, isDash]
  | false =>
    have hb := bare_of_not_needsQuote h
    obtain ⟨c, t, rfl⟩ := exists_cons_of_ne_nil hb.ne_nil
    have hc : c ≠ '-' := by
      rintro rfl
      exact hb.indicator _ t rfl (by decide)
    simp [isDash, hc]

theorem parseMapping_eq : parseMapping block indent depth =
      ((fun st => linesLoop false "unexpected indentation in mapping" (parseEntry block indent depth) indent
        (st.length + 1) [] st : P Object) >>= fun entries => pure (.object entries)) := rfl

theorem parseSequence_eq : parseSequence block indent depth =
      ((fun st => linesLoop true "unexpected indentation in sequence" (parseItem block indent depth) indent
        (st.length + 1) [] st : P (List Value)) >>= fun items => pure (.array items)) := rfl

/-- A mapping is read back if all its entries are. -/
theorem parseMapping_reads (hD : D.PointsFractions) {o : Object} (hp : ∀ e ∈ o, e.2.isPlain = true)
    (hchild : ∀ e ∈ o, ReadsChild D block indent depth e.2) (hrest : Below indent rest) :
    ReadsIff (parseMapping block indent depth) (entriesLines D o indent) rest (readBack D (.object o))
      (∀ e ∈ o, hasColonSpace e.1 = false ∧ survives .value e.2 = true) := by
  have hkind : ∀ e ∈ o, isDash (stringText e.1 ++ ':' :: markerText D e.2) = false := fun e _ => isDash_stringText e.1 _
  have hread : ∀ e ∈ o, ∀ more, Below (indent + 1) more →
      ReadsIff (parseEntry block indent depth (stringText e.1 ++ ':' :: markerText D e.2))
        ((indent, stringText e.1 ++ ':' :: markerText D e.2) :: childLines (blockLines D e.2) e.2 indent) more
        (e.1, readBack D e.2) (hasColonSpace e.1 = false ∧ survives .value e.2 = true) :=
    fun e he more hmore => parseEntry_reads hD (hp e he) (hchild e he) hmore
  rw [entriesLines_eq_flatMap, readBack, readBackEntries_eq_map]
  refine ReadsIff.map (fun y hy => Value.object.inj hy) ?_
  exact linesLoop_reads_block (fun e : Str × Value => stringText e.1 ++ ':' :: markerText D e.2)
    (fun e : Str × Value => childLines (blockLines D e.2) e.2 indent) (fun e : Str × Value => (e.1, readBack D e.2)) hkind
    hrest hread

/-- A sequence is read back if all its items are. -/
theorem parseSequence_reads (hD : D.PointsFractions) {a : List Value} (hp : ∀ v ∈ a, v.isPlain = true)
    (hchild : ∀ v ∈ a, ReadsChild D block indent depth v) (hrest : Below indent rest) :
    ReadsIff (parseSequence block indent depth) (itemsLines D a indent) rest (readBack D (.array a))
      (∀ v ∈ a, survives .item v = true) := by
  rw [itemsLines_eq_flatMap, readBack, readBackList_eq_map]
  refine ReadsIff.map (fun y hy => Value.array.inj hy) ?_
  exact linesLoop_reads_block (fun v => '-' :: markerText D v) (fun v => childLines (blockLines D v) v indent) (readBack D)
    (fun _ _ => rfl) hrest (fun v hv more hmore => parseItem_reads hD (hp v hv) (hchild v hv) hmore)

theorem parseBlockFuel_cons {l : Line} {ls : List Line} (hd : depth ≤ MAX_DEPTH) :
    parseBlockFuel (fuel + 1) indent depth (l :: ls) = if isDash l.2 then parseSequence (parseBlockFuel fuel) indent depth (l :: ls)
      else if (mappingKey l.2).isSome then parseMapping (parseBlockFuel fuel) indent depth (l :: ls)
      else .ok (parseScalar l.2, ls) := by
  obtain ⟨n, c⟩ := l
  rw [parseBlockFuel, if_neg (by omega), Run.bind_apply, Run.get_apply]
  simp only [Run.ite_apply]
  rfl

end Blocks

theorem parseSequence_array {block : Nat → Nat → P Value} (h : parseSequence block indent depth st = .ok (v, st')) :
    ∃ a, v = .array a := by
  rw [parseSequence_eq] at h
  obtain ⟨a, st1, -, h⟩ := bind_eq_ok.mp h
  cases h
  exact ⟨a, rfl⟩

theorem parseMapping_object {block : Nat → Nat → P Value} (h : parseMapping block indent depth st = .ok (v, st')) :
    ∃ o, v = .object o := by
  rw [parseMapping_eq] at h
  obtain ⟨o, st1, -, h⟩ := bind_eq_ok.mp h
  cases h
  exact ⟨o, rfl⟩

theorem survives_array {p : Place} {a : List Value} :
    survives p (.array (v :: a)) = true ↔ ∀ w ∈ v :: a, survives .item w = true := by
  rw [← allSurvive_iff]
  cases p <;> rfl

theorem survives_object {p : Place} {e : Str × Value} {o : Object} :
    survives p (.object (e :: o)) = true ↔ ∀ f ∈ e :: o, hasColonSpace f.1 = false ∧ survives .value f.2 = true := by
  rw [← entriesSurvive_iff]
  cases p <;> rfl

/-- A nested value is read back from its lines if it survives, and only then. -/
theorem parseBlockFuel_reads (hD : D.PointsFractions) (hp : v.isPlain = true) (hn : isNested v = true) (hfuel : v.depth ≤ fuel)
    (hdepth : v.depth + depth ≤ MAX_DEPTH + 1) (hrest : Below indent rest) :
    ReadsIff (parseBlockFuel fuel indent depth) (blockLines D v indent) rest (readBack D v) (survives .item v = true) := by
  induction v using Value.ind generalizing fuel indent depth rest with
  | array a ih =>
    have hall := Value.allPlain_iff.mp hp
    cases a with
    | nil => cases hn
    | cons v a =>
      rcases fuel with _ | fuel
      · rw [Value.depth] at hfuel
        omega
      have hpar : ∀ st, parseBlockFuel (fuel + 1) indent depth (itemsLines D (v :: a) indent ++ st) =
          parseSequence (parseBlockFuel fuel) indent depth (itemsLines D (v :: a) indent ++ st) := by
        intro st
        rw [itemsLines, cons_append, parseBlockFuel_cons (by rw [Value.depth] at hdepth; omega)]
        exact if_pos rfl
      rw [survives_array, ReadsIff, blockLines, hpar]
      refine parseSequence_reads hD hall (fun w hw hnw more hmore => ?_) hrest
      have hlt := Value.depth_lt_array hw
      exact ih w hw (hall w hw) hnw (by omega) (by omega) hmore
  | object o ih =>
    have hall := Value.entriesPlain_iff.mp hp
    cases o with
    | nil => cases hn
    | cons e o =>
      rcases fuel with _ | fuel
      · rw [Value.depth] at hfuel
        omega
      have hpar : ∀ st, parseBlockFuel (fuel + 1) indent depth (entriesLines D (e :: o) indent ++ st) =
          parseMapping (parseBlockFuel fuel) indent depth (entriesLines D (e :: o) indent ++ st) := by
        intro st
        obtain ⟨k, w⟩ := e
        obtain ⟨key, after, hkey, -⟩ := mappingKey_line k (markerText_cases (D := D) (hall (k, w) mem_cons_self))
        rw [entriesLines, cons_append, parseBlockFuel_cons (by rw [Value.depth] at hdepth; omega),
          if_neg (by rw [isDash_stringText]; simp), if_pos (by rw [hkey]; rfl)]
      rw [survives_object, ReadsIff, blockLines, hpar]
      refine parseMapping_reads hD hall (fun f hf hnf more hmore => ?_) hrest
      have hlt := Value.depth_lt_object hf
      exact ih f hf (hall f hf) hnf (by omega) (by omega) hmore
  | _ => cases hn

end Ferroly.Yaml
