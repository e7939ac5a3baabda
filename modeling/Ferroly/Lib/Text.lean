import Ferroly.Lib.Utf8
import Mathlib.Data.List.DropRight
import Mathlib.Data.List.Infix

/-!
# Text operations

The operations of Rust's `str` that a text format needs, on the list of characters: trimming by the Unicode property
White_Space, splitting at a character, ASCII case folding, prefixes and substrings.
-/

namespace Ferroly

open List Option

variable {c : Char} {l s t : Str}

/-- The Unicode property White_Space. -/
def isWhitespace (c : Char) : Bool :=
  let n := c.toNat
  (decide (0x09 ≤ n) && decide (n ≤ 0x0D)) || n == 0x20 || n == 0x85 || n == 0xA0 || n == 0x1680 ||
    (decide (0x2000 ≤ n) && decide (n ≤ 0x200A)) || n == 0x2028 || n == 0x2029 || n == 0x202F || n == 0x205F ||
    n == 0x3000

/-- The string without its leading white space. -/
def trimStart (s : Str) : Str := s.dropWhile isWhitespace

/-- The string without its trailing white space. -/
def trimEnd (s : Str) : Str := s.rdropWhile isWhitespace

/-- The string without the white space around it. -/
def trim (s : Str) : Str := trimEnd (trimStart s)

/-- The string without its trailing carriage returns and line feeds. -/
def trimEndCrlf (s : Str) : Str := s.rdropWhile (fun c => c == '\r' || c == '\n')

/-- The parts of a string before and after the first `c`, if there is one. -/
def splitOnce (c : Char) : Str → Option (Str × Str)
  | [] => none
  | d :: s => if d = c then some ([], s) else (splitOnce c s).map (fun p => (d :: p.1, p.2))

/-- The parts of a string before and after the last `c`, if there is one. -/
def rsplitOnce (c : Char) (s : Str) : Option (Str × Str) :=
  (splitOnce c s.reverse).map (fun p => (p.2.reverse, p.1.reverse))

/-- The parts of a string before and after the first occurrence of `t`, if there is one. -/
def splitOnceStr (t : Str) : Str → Option (Str × Str)
  | [] => if t = [] then some ([], []) else none
  | c :: s =>
    if t.isPrefixOf (c :: s) then some ([], (c :: s).drop t.length)
    else (splitOnceStr t s).map (fun p => (c :: p.1, p.2))

/-- The string with every occurrence of the nonempty `t` replaced, from left to right, after `skip` characters of an occurrence that
has been replaced. -/
def replaceFrom (t new : Str) : Nat → Str → Str
  | _, [] => []
  | skip + 1, _ :: s => replaceFrom t new skip s
  | 0, c :: s => if t.isPrefixOf (c :: s) then new ++ replaceFrom t new (t.length - 1) s else c :: replaceFrom t new 0 s

/-- The string with every occurrence of the nonempty `t` replaced: `str::replace`. -/
def replace (t new s : Str) : Str := replaceFrom t new 0 s

/-- The pieces between the occurrences of `c`. -/
def split (c : Char) (s : Str) : List Str := s.splitOn c

/-- The loop of `splitStr`, which splits at most as often as its fuel says. -/
def splitStrFuel (t : Str) : Nat → Str → List Str
  | 0, s => [s]
  | fuel + 1, s =>
    match splitOnceStr t s with
    | none => [s]
    | some (before, after) => before :: splitStrFuel t fuel after

/-- The pieces between the occurrences of the nonempty `t`, from left to right. -/
def splitStr (t s : Str) : List Str := splitStrFuel t s.length s

/-- ASCII letters in lower case, everything else as it is. -/
def toAsciiLowercase (s : Str) : Str := s.map Char.toLower

/-- Equality up to the case of ASCII letters. -/
def eqIgnoreAsciiCase (s t : Str) : Bool := toAsciiLowercase s == toAsciiLowercase t

/-- Whether `t` begins with `s`. -/
def startsWith (t s : Str) : Bool := s.isPrefixOf t

/-- What follows `s` at the start of `t`, if `t` begins with it. -/
def stripStart (t s : Str) : Option Str := if s.isPrefixOf t then some (t.drop s.length) else none

/-- Whether `t` occurs in `s` as a run of consecutive characters. -/
def containsStr (s t : Str) : Bool := s.tails.any (fun r => t.isPrefixOf r)

/-- The string without one carriage return at its end. -/
def stripCr (s : Str) : Str := if s.getLast? = some '\r' then s.dropLast else s

/-- The lines of a text after the characters `cur` of the line at hand. A line ends at `\n` or `\r\n`; the last one may lack
its end, and is then not there if it is empty. -/
def linesFrom : Str → Str → List Str
  | cur, [] => if cur = [] then [] else [cur]
  | cur, c :: s => if c = '\n' then stripCr cur :: linesFrom [] s else linesFrom (cur ++ [c]) s

/-- The lines of a text: `str::lines`. -/
def lines (s : Str) : List Str := linesFrom [] s

/-! ## Trimming -/

/-- Text with no white space at either end is left alone by `trim`. -/
theorem trim_eq_self (hs : trimStart s = s) (he : trimEnd s = s) : trim s = s := by
  rw [trim, hs, he]

theorem trimStart_cons_of_not (h : isWhitespace c = false) : trimStart (c :: s) = c :: s := by
  simp [trimStart, h]

theorem trimEnd_append_of_not (h : isWhitespace c = false) : trimEnd (s ++ [c]) = s ++ [c] := by
  simp [trimEnd, h]

theorem trimEnd_trim : trimEnd (trim s) = trim s := rdropWhile_idempotent _ _

theorem trimStart_trim : trimStart (trim s) = trim s := by
  have hpre : trim s <+: trimStart s := rdropWhile_prefix _ _
  refine dropWhile_eq_self_iff.mpr (fun hl => ?_)
  have hl' : 0 < (trimStart s).length := Nat.lt_of_lt_of_le hl hpre.length_le
  have hhead := dropWhile_eq_self_iff.mp (dropWhile_idempotent isWhitespace s) hl'
  rwa [hpre.getElem]

theorem dropWhile_filter {p q : Char → Bool} (hq : ∀ c, q c = false → p c = true) (h : l.dropWhile p = l) :
    (l.filter q).dropWhile p = l.filter q := by
  rcases l with _ | ⟨c, l⟩
  · rfl
  · have hc : p c = false := (Bool.not_eq_true _).mp (dropWhile_eq_self_iff.mp h (Nat.zero_lt_succ _))
    have hqc : q c = true := (Bool.not_eq_false _).mp (fun hf => by rw [hq c hf] at hc; cases hc)
    rw [filter_cons_of_pos hqc, dropWhile_cons_of_neg ((Bool.not_eq_true _).mpr hc)]

/-- What goes at the end of the second part, and of the first if nothing is left of the second. -/
theorem rdropWhile_append (p : Char → Bool) (s t : Str) :
    (s ++ t).rdropWhile p = if t.rdropWhile p = [] then s.rdropWhile p else s ++ t.rdropWhile p := by
  unfold rdropWhile
  rw [reverse_append, dropWhile_append]
  by_cases ht : (t.reverse.dropWhile p) = []
  · simp [ht]
  · simp [ht]

theorem trimEnd_append (s t : Str) : trimEnd (s ++ t) = if trimEnd t = [] then trimEnd s else s ++ trimEnd t :=
  rdropWhile_append _ s t

theorem trimEnd_cons_of_not (h : isWhitespace c = false) (s : Str) : trimEnd (c :: s) = c :: trimEnd s := by
  have happ := trimEnd_append [c] s
  have hone : trimEnd [c] = [c] := trimEnd_append_of_not (s := []) h
  rw [hone, singleton_append] at happ
  rw [happ]
  split
  case isTrue hs => rw [hs]
  case isFalse => rfl

theorem trim_cons_of_not (h : isWhitespace c = false) : trim (c :: s) = c :: trimEnd s := by
  rw [trim, trimStart_cons_of_not h, trimEnd_cons_of_not h]

/-- Text without white space is left alone by `trim`. -/
theorem trim_of_forall_not (h : ∀ c ∈ s, isWhitespace c = false) : trim s = s := by
  refine trim_eq_self (dropWhile_eq_self_iff.mpr (fun hl => ?_)) (rdropWhile_eq_self_iff.mpr (fun hne => ?_))
  · simp [h _ (getElem_mem hl)]
  · simp [h _ (getLast_mem hne)]

/-- Leaving out characters that are white space changes nothing at the ends of trimmed text. -/
theorem trim_filter_trim {q : Char → Bool} (hq : ∀ c, q c = false → isWhitespace c = true) :
    trim ((trim s).filter q) = (trim s).filter q := by
  refine trim_eq_self (dropWhile_filter hq trimStart_trim) ?_
  have hend : (trim s).reverse.dropWhile isWhitespace = (trim s).reverse := by
    rw [← reverse_inj, reverse_reverse]
    exact trimEnd_trim
  unfold trimEnd rdropWhile
  rw [← filter_reverse, dropWhile_filter hq hend, filter_reverse, reverse_reverse]

theorem mem_of_mem_trim (h : c ∈ trim s) : c ∈ s :=
  (dropWhile_suffix isWhitespace).subset ((List.rdropWhile_prefix isWhitespace _).subset h)

/-- A line without its end. -/
theorem trimEndCrlf_append (h : ∀ c ∈ s, (c == '\r' || c == '\n') = false) : trimEndCrlf (s ++ "\r\n".toList) = s := by
  have hsplit : s ++ "\r\n".toList = (s ++ ['\r']) ++ ['\n'] := by simp
  unfold trimEndCrlf
  rw [hsplit, rdropWhile_concat_pos _ _ _ (by decide), rdropWhile_concat_pos _ _ _ (by decide), rdropWhile_eq_self_iff]
  intro hne
  rw [h _ (getLast_mem hne)]
  exact Bool.false_ne_true

theorem trimEnd_eq_nil_iff : trimEnd t = [] ↔ ∀ c ∈ t, isWhitespace c = true := rdropWhile_eq_nil_iff

/-- White space at the end goes with a trim. -/
theorem trim_append_space (s : Str) (ht : trimEnd t = []) : trim (s ++ t) = trim s := by
  unfold trim trimStart
  rw [dropWhile_append]
  split
  · next hs =>
    rw [isEmpty_iff.mp hs, dropWhile_eq_nil_iff.mpr (trimEnd_eq_nil_iff.mp ht)]
  · rw [trimEnd_append, if_pos ht]

/-- Text is what a trim leaves of it, between white space. -/
theorem trim_spec (s : Str) : ∃ before after, s = before ++ trim s ++ after ∧ (∀ c ∈ before, isWhitespace c = true) ∧
      ∀ c ∈ after, isWhitespace c = true := by
  refine ⟨s.takeWhile isWhitespace, (trimStart s).rtakeWhile isWhitespace, ?_, fun c => mem_takeWhile_imp, fun c => mem_rtakeWhile_imp⟩
  rw [append_assoc, trim, trimEnd, rdropWhile_append_rtakeWhile, trimStart, takeWhile_append_dropWhile]

theorem trim_between {before after : Str} (hbefore : ∀ c ∈ before, isWhitespace c = true) (hafter : ∀ c ∈ after, isWhitespace c = true) :
    trim (before ++ s ++ after) = trim s := by
  rw [trim_append_space _ (trimEnd_eq_nil_iff.mpr hafter), trim, trimStart, dropWhile_append_of_pos hbefore]
  rfl

/-- One line end more at the end of a line. -/
theorem trimEndCrlf_newline : trimEndCrlf (s ++ ['\n']) = trimEndCrlf s := rdropWhile_concat_pos _ _ _ (by decide)

/-- A line is what is left without its end, and line ends. -/
theorem trimEndCrlf_spec (s : Str) : ∃ t, s = trimEndCrlf s ++ t ∧ ∀ c ∈ t, c = '\r' ∨ c = '\n' := by
  refine ⟨s.rtakeWhile (fun c => c == '\r' || c == '\n'), ?_, fun c hc => ?_⟩
  · exact rdropWhile_append_rtakeWhile.symm
  · have hcrlf := mem_rtakeWhile_imp hc
    rwa [Bool.or_eq_true, beq_iff_eq, beq_iff_eq] at hcrlf

/-- What a trim leaves does not depend on the end of a line. -/
theorem trim_trimEndCrlf (s : Str) : trim (trimEndCrlf s) = trim s := by
  obtain ⟨t, hs, ht⟩ := trimEndCrlf_spec s
  conv_rhs => rw [hs]
  refine (trim_append_space _ (trimEnd_eq_nil_iff.mpr (fun c hc => ?_))).symm
  rcases ht c hc with rfl | rfl <;> rfl

theorem mem_trimEndCrlf (hr : c ≠ '\r') (hn : c ≠ '\n') : c ∈ trimEndCrlf s ↔ c ∈ s := by
  obtain ⟨t, hs, ht⟩ := trimEndCrlf_spec s
  conv_rhs => rw [hs]
  refine ⟨mem_append_left _, fun hc => ?_⟩
  rcases mem_append.mp hc with hc | hc
  · exact hc
  · exact absurd (ht c hc) (by simp [hr, hn])

/-! ## Lines -/

theorem linesFrom_append {cur : Str} (h : '\n' ∉ l) : linesFrom cur (l ++ '\n' :: s) = stripCr (cur ++ l) :: lines s := by
  induction l generalizing cur with
  | nil => simp [linesFrom, lines]
  | cons c l ih =>
    rw [mem_cons, not_or] at h
    rw [cons_append, linesFrom, if_neg (Ne.symm h.1), ih h.2, append_assoc, singleton_append]

/-- The first line of a text, and the rest. -/
theorem lines_append (h : '\n' ∉ l) : lines (l ++ '\n' :: s) = stripCr l :: lines s := by
  rw [lines, linesFrom_append h, nil_append]

theorem stripCr_eq_self (h : s.getLast? ≠ some '\r') : stripCr s = s := if_neg h

/-! ## Case -/

theorem toLower_eq_self (h : ¬(65 ≤ c.toNat ∧ c.toNat ≤ 90)) : c.toLower = c := by
  unfold Char.toLower
  split
  · next hu => exact absurd ⟨UInt32.le_iff_toNat_le.mp hu.1, UInt32.le_iff_toNat_le.mp hu.2⟩ h
  · rfl

/-! ## Splitting -/

theorem split_append (h : c ∉ s) (t : Str) : split c (s ++ c :: t) = s :: split c t := by
  refine splitOnP_append_cons_of_forall_mem (fun d hd => ?_) c (by simp) t
  rw [beq_eq_false_iff_ne]
  exact fun he => h (he ▸ hd)

theorem split_eq_singleton (h : c ∉ s) : split c s = [s] := by
  refine splitOnP_eq_singleton (fun d hd => ?_)
  rw [beq_eq_false_iff_ne]
  exact fun he => h (he ▸ hd)

/-- The pieces of a split: one if the character does not occur, else the part before it and the pieces of the rest. -/
theorem split_ind {P : Str → List Str → Prop} (one : ∀ s, c ∉ s → P s [s])
    (more : ∀ s t, c ∉ s → P t (split c t) → P (s ++ c :: t) (s :: split c t)) (s : Str) : P s (split c s) := by
  induction hn : s.length using Nat.strong_induction_on generalizing s with
  | _ n ih =>
    by_cases hc : c ∈ s
    · obtain ⟨a, b, rfl, ha⟩ := eq_append_cons_of_mem hc
      rw [split_append ha]
      exact more a b ha (ih b.length (by rw [← hn]; simp; omega) b rfl)
    · rw [split_eq_singleton hc]
      exact one s hc

/-- Each piece with the character after it makes the string with the character after it. -/
theorem flatMap_split (c : Char) (s : Str) : (split c s).flatMap (fun l => l ++ [c]) = s ++ [c] := by
  refine split_ind (P := fun s ls => ls.flatMap (fun l => l ++ [c]) = s ++ [c]) (fun s _ => by simp) (fun s t _ ih => ?_) s
  rw [flatMap_cons, ih]
  simp

theorem not_mem_of_mem_split (h : l ∈ split c s) : c ∉ l := by
  revert h
  refine split_ind (P := fun _ ls => l ∈ ls → c ∉ l) (fun s hs hl => ?_) (fun s t hs ih hl => ?_) s
  · rw [mem_singleton.mp hl]
    exact hs
  · rcases mem_cons.mp hl with rfl | hl
    · exact hs
    · exact ih hl

theorem mem_of_mem_split {d : Char} (h : l ∈ split c s) (hd : d ∈ l) : d ∈ s := by
  revert h
  refine split_ind (P := fun s ls => l ∈ ls → d ∈ s) (fun s _ hl => ?_) (fun s t _ ih hl => ?_) s
  · rw [← mem_singleton.mp hl]
    exact hd
  · rcases mem_cons.mp hl with rfl | hl
    · exact mem_append_left _ hd
    · exact mem_append_right _ (mem_cons_of_mem _ (ih hl))

/-- Text without the character goes into the first piece. -/
theorem split_append_left {p : Str} (hp : c ∉ p) (s : Str) :
    ∃ first more, split c s = first :: more ∧ split c (p ++ s) = (p ++ first) :: more := by
  by_cases hc : c ∈ s
  · obtain ⟨a, b, rfl, ha⟩ := eq_append_cons_of_mem hc
    refine ⟨a, split c b, split_append ha b, ?_⟩
    rw [← append_assoc, split_append (by simp [hp, ha])]
  · exact ⟨s, [], split_eq_singleton hc, split_eq_singleton (by simp [hp, hc])⟩

/-- White space at the ends of a text does not count for its first piece. -/
theorem trim_head_split (hc : isWhitespace c = false) (s : Str) :
    trim ((split c (trim s)).headD []) = trim ((split c s).headD []) := by
  by_cases hmem : c ∈ s
  · obtain ⟨a, b, rfl, ha⟩ := eq_append_cons_of_mem hmem
    have hstart : trimStart (a ++ c :: b) = trimStart a ++ c :: b := by
      rw [trimStart, dropWhile_append]
      split
      · next h => rw [← trimStart, trimStart_cons_of_not hc, trimStart, isEmpty_iff.mp h, nil_append]
      · rfl
    have hend : trimEnd (trimStart a ++ c :: b) = trimStart a ++ c :: trimEnd b := by
      rw [trimEnd_append, trimEnd_cons_of_not hc, if_neg (cons_ne_nil _ _)]
    have ha' : c ∉ trimStart a := fun h => ha ((dropWhile_suffix _).subset h)
    have hidem : trimStart (trimStart a) = trimStart a := dropWhile_idempotent _ _
    rw [trim.eq_1 (a ++ c :: b), hstart, hend, split_append ha', split_append ha, headD_cons, headD_cons, trim, hidem, trim]
  · rw [split_eq_singleton (fun h => hmem (mem_of_mem_trim h)), split_eq_singleton hmem]
    exact trim_eq_self trimStart_trim trimEnd_trim

theorem splitOnce_append (h : c ∉ s) : splitOnce c (s ++ c :: t) = some (s, t) := by
  induction s with
  | nil => simp [splitOnce]
  | cons d s ih =>
    rw [mem_cons, not_or] at h
    simp only [cons_append, splitOnce, if_neg (Ne.symm h.1), ih h.2, map_some]

theorem splitOnce_of_mem (h : c ∈ s) : ∃ k v, splitOnce c s = some (k, v) := by
  obtain ⟨k, v, rfl, hk⟩ := eq_append_cons_of_mem h
  exact ⟨k, v, splitOnce_append hk⟩

theorem splitOnce_eq_some {k v : Str} (h : splitOnce c s = some (k, v)) : s = k ++ c :: v := by
  induction s generalizing k with
  | nil => cases h
  | cons d s ih =>
    rw [splitOnce] at h
    split at h
    · next hd =>
      cases h
      rw [hd, nil_append]
    · obtain ⟨⟨k', v'⟩, hs, hp⟩ := map_eq_some_iff.mp h
      cases hp
      rw [ih hs, cons_append]

theorem splitOnce_eq_none (h : c ∉ s) : splitOnce c s = none := by
  induction s with
  | nil => rfl
  | cons d s ih =>
    rw [mem_cons, not_or] at h
    simp only [splitOnce, if_neg (Ne.symm h.1), ih h.2, map_none]

theorem splitOnceStr_eq_none_iff (ht : t ≠ []) : splitOnceStr t s = none ↔ ¬ t <:+: s := by
  induction s with
  | nil => simp [splitOnceStr, ht]
  | cons c s ih =>
    rw [splitOnceStr, infix_cons_iff, not_or]
    split <;> simp_all

/-- The first occurrence: there is none that ends before it does. -/
theorem splitOnceStr_eq_some_iff {a r : Str} (ht : t ≠ []) :
    splitOnceStr t s = some (a, r) ↔ s = a ++ t ++ r ∧ ¬ t <:+: a ++ t.dropLast := by
  have hpart (u : Str) : u ++ t.dropLast <+: u ++ t ++ r := by
    rw [append_assoc]
    exact (prefix_append_right_inj u).mpr ((List.dropLast_prefix t).trans (prefix_append t r))
  induction s generalizing a with
  | nil => simp [splitOnceStr, ht]
  | cons c s ih =>
    rw [splitOnceStr]
    split
    next hpre =>
      obtain ⟨r', hr'⟩ := isPrefixOf_iff_prefix.mp hpre
      rw [← hr', drop_left]
      constructor
      · intro h
        cases h
        exact ⟨rfl, fun hin => absurd hin.length_le (by have := length_pos_iff.mpr ht; simp; omega)⟩
      · rintro ⟨heq, hfirst⟩
        rcases a with _ | ⟨d, a⟩
        · rw [nil_append, append_cancel_left_eq] at heq
          rw [heq]
        · refine absurd (prefix_of_prefix_length_le ⟨r', heq⟩ (hpart (d :: a)) ?_).isInfix hfirst
          simp
          omega
    next hpre =>
      rw [List.isPrefixOf_iff_prefix] at hpre
      rcases a with _ | ⟨d, a⟩
      · simp only [map_eq_some_iff, Prod.mk.injEq, cons_ne_nil, false_and, and_false, exists_false, false_iff, not_and]
        exact fun heq => absurd ⟨r, heq.symm⟩ hpre
      · simp only [cons_append, infix_cons_iff, not_or, cons.injEq, and_assoc]
        constructor
        · intro h
          obtain ⟨⟨a', r'⟩, hs, heq⟩ := map_eq_some_iff.mp h
          cases heq
          obtain ⟨rfl, hfirst⟩ := ih.mp hs
          exact ⟨rfl, rfl, fun hp => hpre (hp.trans (hpart (c :: a'))), hfirst⟩
        · rintro ⟨rfl, hs, -, hfirst⟩
          rw [ih.mpr ⟨hs, hfirst⟩, map_some]

theorem splitOnceStr_length {a r : Str} (ht : t ≠ []) (h : splitOnceStr t s = some (a, r)) :
    r.length + t.length ≤ s.length ∧ r <:+ s := by
  obtain ⟨rfl, -⟩ := (splitOnceStr_eq_some_iff ht).mp h
  exact ⟨by simp; omega, suffix_append _ _⟩

/-- What is added at the end goes to the part after the first occurrence. -/
theorem splitOnceStr_append {a r : Str} (ht : t ≠ []) (h : splitOnceStr t s = some (a, r)) (u : Str) :
    splitOnceStr t (s ++ u) = some (a, r ++ u) := by
  obtain ⟨rfl, hfirst⟩ := (splitOnceStr_eq_some_iff ht).mp h
  exact (splitOnceStr_eq_some_iff ht).mpr ⟨append_assoc _ _ _, hfirst⟩

end Ferroly
