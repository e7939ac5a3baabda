import Ferroly.Genai.Template
import Ferroly.Lemmas.JsonWrite

/-!
# Templates are rendered in one pass

The pieces of a template are found without looking at the variables, and what is filled in is not looked at again.
-/

namespace Ferroly.Genai

open List

/-! ## What is filled in -/

/-- The text of a value: nothing for null, a string as it is, JSON for a value of several parts. -/
def valueText (D : FloatDisplay binary64) : Value → Str
  | .null => []
  | .str s => s
  | .float f => D.toText f
  | v => Json.render D v

/-- What a piece becomes: a placeholder the text of the value that its keys lead to, or nothing if they lead to none. -/
def Fills (D : FloatDisplay binary64) (vars : Value) : Piece → Str → Prop
  | .literal c, text => text = [c]
  | .hole expr, text => ∃ keys, Names expr keys ∧
      ((∃ v, Leads vars keys v ∧ text = valueText D v) ∨ (¬∃ v, Leads vars keys v) ∧ text = [])

theorem pads_iff {s t : Str} : Pads s t ↔ trim s = t := by
  constructor
  · rintro ⟨w, w', rfl, hspace, hends⟩
    rw [forall_mem_append] at hspace
    rw [← append_assoc, trim_between hspace.1 hspace.2]
    refine trim_eq_self (dropWhile_eq_self_iff.mpr (fun hlt => ?_)) (rdropWhile_eq_self_iff.mpr (fun hne => ?_))
    · rw [hends _ (.inl (by rw [head?_eq_getElem?, getElem?_eq_getElem hlt]))]
      exact Bool.false_ne_true
    · rw [hends _ (.inr (getLast?_eq_some_getLast hne))]
      exact Bool.false_ne_true
  · rintro rfl
    obtain ⟨w, w', hs, hw, hw'⟩ := trim_spec s
    refine ⟨w, w', by rw [← append_assoc, ← hs], forall_mem_append.mpr ⟨hw, hw'⟩, ?_⟩
    rintro c (hc | hc)
    · have hhead := head?_dropWhile_not isWhitespace (trim s)
      rw [← trimStart, trimStart_trim, hc] at hhead
      exact hhead
    · have hlast := head?_dropWhile_not isWhitespace (trim s).reverse
      have hend : (trim s).reverse.dropWhile isWhitespace = (trim s).reverse := by
        rw [← reverse_inj, reverse_reverse]
        exact trimEnd_trim
      rw [hend, head?_reverse, hc] at hlast
      exact hlast

/-- The keys that a placeholder names are the parts of its path that are not empty. -/
theorem names_iff {expr : Str} {keys : List Str} :
    Names expr keys ↔ keys = (split '.' (exprPath expr)).filter (fun part => part ≠ []) := by
  constructor
  · rintro ⟨dots, rest, path, parts, hexpr, hdots, hrest, hpath, rfl, hparts, rfl⟩
    have hdrop : (dots ++ rest).dropWhile (· == '.') = rest := by
      rw [dropWhile_append, dropWhile_eq_nil_iff.mpr (fun c hc => beq_iff_eq.mpr (hdots c hc))]
      rcases rest with _ | ⟨c, rest⟩
      · rfl
      · have hc : ¬(c == '.') = true := fun hc => hrest (congrArg some (beq_iff_eq.mp hc))
        rw [isEmpty_nil, if_pos rfl, dropWhile_cons, if_neg hc]
    rw [exprPath, pads_iff.mp hexpr, hdrop, pads_iff.mp hpath, split]
    rcases parts with _ | ⟨part, parts⟩
    · rfl
    · rw [splitOn_intercalate '.' hparts (cons_ne_nil _ _)]
  · rintro rfl
    refine ⟨(trim expr).takeWhile (· == '.'), (trim expr).dropWhile (· == '.'), exprPath expr, split '.' (exprPath expr), ?_, ?_, ?_,
      pads_iff.mpr rfl, (intercalate_splitOn '.').symm, fun part hpart => not_mem_of_mem_split hpart, rfl⟩
    · rw [takeWhile_append_dropWhile]
      exact pads_iff.mpr rfl
    · intro c hc
      have hdot := mem_takeWhile_imp hc
      exact beq_iff_eq.mp hdot
    · intro hdot
      have hhead := head?_dropWhile_not (· == '.') (trim expr)
      rw [hdot] at hhead
      cases hhead

theorem get_eq_some_iff {v w : Value} {k : Str} :
    v.get k = some w ↔ ∃ before after, v = .object (before ++ (k, w) :: after) ∧ ∀ e ∈ after, e.1 ≠ k := by
  constructor
  · intro h
    obtain ⟨o, ho, h⟩ := Option.bind_eq_some_iff.mp h
    obtain rfl : v = .object o := by
      cases v <;> cases ho
      rfl
    obtain ⟨⟨k', _⟩, hfind, rfl⟩ := Option.map_eq_some_iff.mp h
    obtain ⟨hk, after, before, hsplit, hafter⟩ := find?_eq_some_iff_append.mp hfind
    obtain rfl : k' = k := beq_iff_eq.mp hk
    refine ⟨before.reverse, after.reverse, ?_, fun e he => by simpa using hafter e (mem_reverse.mp he)⟩
    rw [← reverse_reverse o, hsplit]
    simp
  · rintro ⟨before, after, rfl, hafter⟩
    have hfind : (before ++ (k, w) :: after).reverse.find? (fun e => e.1 == k) = some (k, w) := by
      refine find?_eq_some_iff_append.mpr ⟨beq_self_eq_true k, after.reverse, before.reverse, by simp, fun e he => ?_⟩
      simpa using hafter e (mem_reverse.mp he)
    exact congrArg (Option.map Prod.snd) hfind

/-- Following a path is following its keys. -/
theorem lookup_iff {v w : Value} {path : Str} :
    lookup v path = some w ↔ Leads v ((split '.' path).filter (fun part => part ≠ [])) w := by
  rw [lookup]
  induction split '.' path generalizing v with
  | nil =>
    constructor
    · intro h
      cases h
      exact .here _
    · intro h
      cases h
      rfl
  | cons part parts ih =>
    rw [foldlM_cons]
    by_cases hpart : part = []
    · rw [if_pos hpart, filter_cons_of_neg (by simpa using hpart)]
      exact ih
    · rw [if_neg hpart, filter_cons_of_pos (by simpa using hpart)]
      constructor
      · intro h
        obtain ⟨u, hu, hrest⟩ := Option.bind_eq_some_iff.mp h
        obtain ⟨before, after, rfl, hafter⟩ := get_eq_some_iff.mp hu
        exact .entry hafter (ih.mp hrest)
      · intro h
        cases h with
        | entry hafter hleads => exact Option.bind_eq_some_iff.mpr ⟨_, get_eq_some_iff.mpr ⟨_, _, rfl, hafter⟩, ih.mpr hleads⟩

theorem valueToString_some (D : FloatDisplay binary64) (v : Value) : valueToString D (some v) = valueText D v := by
  cases v with
  | int i => exact Fmt.writeI64_eq [] i
  | uint u => exact Fmt.writeU64_eq [] u
  | bytes | array | object => exact Json.toString_eq_render D
  | null | bool | float | str => rfl

theorem fills_hole {D : FloatDisplay binary64} {vars : Value} {expr text : Str} :
    Fills D vars (.hole expr) text ↔ text = valueToString D (lookup vars (exprPath expr)) := by
  have hleads : ∀ keys, Names expr keys → ∀ v, Leads vars keys v ↔ lookup vars (exprPath expr) = some v := by
    intro keys hkeys v
    rw [names_iff.mp hkeys, lookup_iff]
  constructor
  · rintro ⟨keys, hkeys, ⟨v, hv, rfl⟩ | ⟨hnone, rfl⟩⟩
    · rw [(hleads keys hkeys v).mp hv, valueToString_some]
    · simp only [hleads keys hkeys] at hnone
      rw [Option.eq_none_iff_forall_ne_some.mpr (fun v hv => hnone ⟨v, hv⟩)]
      rfl
  · rintro rfl
    have hkeys : Names expr _ := names_iff.mpr rfl
    refine ⟨_, hkeys, ?_⟩
    simp only [hleads _ hkeys]
    cases lookup vars (exprPath expr) with
    | none => exact .inr ⟨by simp, rfl⟩
    | some v => exact .inl ⟨v, rfl, valueToString_some D v⟩

/-! ## The scan -/

/-- A text is scanned to its end, or to opening braces that are not closed. -/
theorem exists_scan (s : Str) : ∃ ps r, Scan s ps r ∧ (r = [] ∨ ∃ t, r = "\x7b\x7b".toList ++ t ∧ ¬ "\x7d\x7d".toList <:+: t) := by
  induction hn : s.length using Nat.strong_induction_on generalizing s with
  | _ n ih =>
    rcases s with _ | ⟨c, s⟩
    · exact ⟨[], [], .stop [], .inl rfl⟩
    by_cases hopen : "\x7b\x7b".toList <+: c :: s
    · obtain ⟨t, ht⟩ := hopen
      rw [← ht] at hn ⊢
      rcases hsplit : splitOnceStr "\x7d\x7d".toList t with _ | ⟨expr, rest⟩
      · exact ⟨[], _, .stop _, .inr ⟨t, rfl, (splitOnceStr_eq_none_iff (by decide)).mp hsplit⟩⟩
      · obtain ⟨rfl, hfirst⟩ := (splitOnceStr_eq_some_iff (by decide)).mp hsplit
        obtain ⟨ps, r, hscan, hr⟩ := ih rest.length (by simp at hn; omega) rest rfl
        exact ⟨.hole expr :: ps, r, .hole hfirst hscan, hr⟩
    · obtain ⟨ps, r, hscan, hr⟩ := ih s.length (by simp at hn; omega) s rfl
      exact ⟨.literal c :: ps, r, .literal hopen hscan, hr⟩

section Render

variable {D : F64Display} {vars : Value} {s r : Str} {ps : List Piece}

theorem renderLoop_literal {c : Char} (h : ¬ "\x7b\x7b".toList <+: c :: s) (fuel : Nat) (out : Str) :
    renderLoop D vars (fuel + 1) (c :: s) out = renderLoop D vars fuel s (out ++ [c]) := by
  rw [renderLoop.eq_def]
  dsimp only
  split
  · contradiction
  next t heq => exact absurd ⟨t, heq.symm⟩ h
  next heq =>
    cases heq
    rfl

theorem renderLoop_open (fuel : Nat) (t out : Str) : renderLoop D vars (fuel + 1) ("\x7b\x7b".toList ++ t) out =
      match splitOnceStr "\x7d\x7d".toList t with
      | none => .error (.template "unclosed '\x7b\x7b' in template".toList)
      | some (expr, s) => renderLoop D vars fuel s (out ++ valueToString D (lookup vars (exprPath expr))) := rfl

/-- The loop follows a scan. -/
theorem renderLoop_scan {texts : List Str} (h : Scan s ps r) (htexts : Forall₂ (Fills D vars) ps texts) (fuel : Nat)
    (hfuel : s.length ≤ fuel) (out : Str) :
    ∃ fuel' ≥ r.length, renderLoop D vars fuel s out = renderLoop D vars fuel' r (out ++ texts.flatten) := by
  induction h generalizing fuel out texts with
  | stop s =>
    cases htexts
    exact ⟨fuel, hfuel, by simp⟩
  | @literal c s r ps hopen _ ih =>
    obtain ⟨_, texts, rfl, hrest, rfl⟩ := forall₂_cons_left_iff.mp htexts
    rcases fuel with _ | fuel
    · cases hfuel
    obtain ⟨fuel', hle, hrun⟩ := ih hrest fuel (Nat.le_of_succ_le_succ hfuel) (out ++ [c])
    refine ⟨fuel', hle, ?_⟩
    rw [renderLoop_literal hopen, hrun, append_assoc]
    rfl
  | @hole expr s r ps hfirst _ ih =>
    obtain ⟨text, texts, htext, hrest, rfl⟩ := forall₂_cons_left_iff.mp htexts
    rcases fuel with _ | fuel
    · cases hfuel
    obtain ⟨fuel', hle, hrun⟩ := ih hrest fuel (by simp at hfuel; omega) (out ++ text)
    refine ⟨fuel', hle, ?_⟩
    rw [renderLoop_open, (splitOnceStr_eq_some_iff (by decide)).mpr ⟨rfl, hfirst⟩]
    dsimp only
    rw [← fills_hole.mp htext, hrun, append_assoc]
    rfl

theorem exists_fills (ps : List Piece) : ∃ texts, Forall₂ (Fills D vars) ps texts := by
  induction ps with
  | nil => exact ⟨[], .nil⟩
  | cons piece ps ih =>
    obtain ⟨texts, htexts⟩ := ih
    cases piece with
    | literal c => exact ⟨[c] :: texts, .cons rfl htexts⟩
    | hole expr => exact ⟨_ :: texts, .cons (fills_hole.mpr rfl) htexts⟩

end Render

/-- For every template: if all placeholders are closed, then it has pieces that do not depend on the variables, and rendering it is
filling in the pieces, whatever the values contain; an undefined variable and null are empty. Otherwise rendering is an error. -/
theorem render_single_pass (D : FloatDisplay binary64) (template : Str) : (Closed template → ∃ ps, Scan template ps [] ∧
      ∀ vars, (∃ texts, Forall₂ (Fills D vars) ps texts) ∧
        ∀ texts, Forall₂ (Fills D vars) ps texts → renderValue D template vars = .ok texts.flatten) ∧
    (¬ Closed template → ∀ vars, renderValue D template vars = .error (.template "unclosed '\x7b\x7b' in template".toList)) := by
  constructor
  · intro hclosed
    obtain ⟨ps, r, hscan, rfl | ⟨t, rfl, ht⟩⟩ := exists_scan template
    · refine ⟨ps, hscan, fun vars => ⟨exists_fills ps, fun texts htexts => ?_⟩⟩
      obtain ⟨fuel, -, hrun⟩ := renderLoop_scan hscan htexts template.length (Nat.le_refl _) []
      rw [renderValue, hrun]
      rcases fuel with _ | fuel <;> rfl
    · exact absurd (hclosed ps t hscan) ht
  · intro hopen vars
    simp only [Closed, not_forall] at hopen
    obtain ⟨ps, t, hscan, ht⟩ := hopen
    obtain ⟨texts, htexts⟩ : ∃ texts, Forall₂ (Fills D vars) ps texts := exists_fills ps
    obtain ⟨fuel, hle, hrun⟩ := renderLoop_scan hscan htexts template.length (Nat.le_refl _) []
    rcases fuel with _ | fuel
    · cases hle
    rw [renderValue, hrun, renderLoop_open, (splitOnceStr_eq_none_iff (by decide)).mpr ht]

end Ferroly.Genai
