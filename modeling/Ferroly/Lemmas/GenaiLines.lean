import Ferroly.Genai.Lines

/-!
# Lines of provider streams: what the chunks change

While no line is dropped, the buffer yields the lines of the text that arrives; and that text has the lines of the stream exactly if no
cut goes through a character, since what a cut breaks gets longer and is no whitespace.
-/

namespace Ferroly.Genai

open List

/-! ## The buffer -/

/-- The beginning of a line is the beginning of the first line or of the rest. -/
theorem cutLines_open {s : Str} (h : '\n' ∉ s) (t : Str) :
    (∃ l ls r, cutLines '\n' (s ++ t) = (l :: ls, r) ∧ s <+: l) ∨ cutLines '\n' (s ++ t) = ([], s ++ t) := by
  by_cases ht : '\n' ∈ t
  · obtain ⟨a, b, rfl, ha⟩ := eq_append_cons_of_mem ht
    refine .inl ⟨s ++ a, (cutLines '\n' b).1, (cutLines '\n' b).2, ?_, prefix_append _ _⟩
    rw [← append_assoc]
    exact cutLines_line (fun hmem => (mem_append.mp hmem).elim h ha) b
  · exact .inr (cutLines_of_not_mem (fun hmem => (mem_append.mp hmem).elim h ht))

theorem length_utf8_le {s t : Str} (h : s <+: t) : (utf8 s).length ≤ (utf8 t).length := by
  obtain ⟨r, rfl⟩ := h
  rw [utf8_append, length_append]
  omega

/-- Where every line of what is there and what comes is within the limit, nothing is dropped. -/
theorem drainAll_eq {lb : LineBuffer} {chunks : List Bytes} (hbuf : '\n' ∉ lb.buf)
    (hlines : ∀ l ∈ (cutLines '\n' (lb.buf ++ arrived chunks)).1, (utf8 l).length ≤ MAX_BUFFERED_BYTES)
    (hrest : (cutLines '\n' (lb.buf ++ arrived chunks)).2 = []) :
    lb.drainAll chunks = ((cutLines '\n' (lb.buf ++ arrived chunks)).1.map (fun l => trimEnd (l ++ ['\n'])), ⟨[]⟩) := by
  induction chunks generalizing lb with
  | nil =>
    rw [arrived, flatMap_nil, append_nil, cutLines_of_not_mem hbuf] at hrest ⊢
    rw [← hrest]
    rfl
  | cons c cs ih =>
    have harrived : lb.buf ++ arrived (c :: cs) = (lb.buf ++ fromUtf8Lossy c) ++ arrived cs := by
      rw [arrived, append_assoc]
      rfl
    rw [harrived] at hlines hrest ⊢
    have hpush : lb.push c = ⟨lb.buf ++ fromUtf8Lossy c⟩ := by
      refine if_neg ?_
      rintro ⟨hlong, hmem⟩
      rcases cutLines_open hmem (arrived cs) with ⟨l, ls, r, hcut, hpre⟩ | hcut
      · rw [hcut] at hlines
        have hle := hlines l mem_cons_self
        have hle' := length_utf8_le hpre
        omega
      · rw [hcut] at hrest
        rw [(append_eq_nil_iff.mp hrest).1] at hlong
        exact absurd hlong (Nat.not_lt_zero _)
    rw [cutLines_append (lb.buf ++ fromUtf8Lossy c)] at hlines hrest ⊢
    rw [LineBuffer.drainAll, hpush]
    simp only [LineBuffer.drainLines]
    rw [ih (cutLines_spec '\n' (lb.buf ++ fromUtf8Lossy c)).2.2 (fun l hl => hlines l (mem_append_right _ hl)) hrest]
    simp only [map_append]

/-! ## Pumping -/

section

variable {β : Type} {parse : Str → Option β}

/-- What a sender has sent once some more has been offered to it. -/
def Sender.after (tx : Sender β) (xs : List β) : List β := tx.sent ++ firstOf tx.takes xs

theorem send_after (tx : Sender β) (x : β) (xs : List β) : ((tx.send x).2 = true → (tx.send x).1.after xs = tx.after (x :: xs)) ∧
      ((tx.send x).2 = false → (tx.send x).1.sent = tx.after (x :: xs)) ∧ (tx.send x).1.sent = tx.after [x] := by
  rcases tx with ⟨sent, takes⟩
  rcases takes with _ | _ | n
  · refine ⟨fun _ => ?_, nofun, rfl⟩
    simp [Sender.send, Sender.after, firstOf]
  · refine ⟨nofun, fun _ => ?_, ?_⟩ <;> simp [Sender.send, Sender.after, firstOf]
  · refine ⟨fun _ => ?_, nofun, ?_⟩ <;> simp [Sender.send, Sender.after, firstOf]

theorem forward_after (lines : List Str) (tx : Sender β) (xs : List β) :
    ((forward parse lines tx).2 = true → (forward parse lines tx).1.after xs = tx.after (lines.filterMap parse ++ xs)) ∧
      ((forward parse lines tx).2 = false → (forward parse lines tx).1.sent = tx.after (lines.filterMap parse ++ xs)) := by
  induction lines generalizing tx with
  | nil => exact ⟨fun _ => rfl, nofun⟩
  | cons line lines ih =>
    rw [forward]
    rcases hparse : parse line with _ | x
    · rw [filterMap_cons_none hparse]
      exact ih tx
    · rw [filterMap_cons_some hparse, cons_append]
      obtain ⟨hgo, hstop, -⟩ := send_after tx x (lines.filterMap parse ++ xs)
      simp only
      rcases hsend : tx.send x with ⟨tx', _ | _⟩
      · rw [hsend] at hstop
        exact ⟨nofun, fun _ => hstop rfl⟩
      · rw [hsend] at hgo
        rw [← hgo rfl]
        exact ih tx'

/-- What is sent for a response: what its lines say, the line without an end, and the error it fails with. -/
theorem pump_sent (transport : Str → β) (chunks : List Bytes) (failure : Option Str) (lb : LineBuffer) (tx : Sender β)
    (hrest : (lb.drainAll chunks).2.buf = []) :
    (pump parse transport failure chunks lb tx).sent =
      tx.after ((lb.drainAll chunks).1.filterMap parse ++ (failure.map transport).toList) := by
  induction chunks generalizing lb tx with
  | nil =>
    rw [LineBuffer.drainAll]
    rcases failure with _ | e
    · rw [pump]
      have hrem : lb.takeRemainder = [] := by
        rw [LineBuffer.takeRemainder, show lb.buf = [] from hrest]
        rfl
      rw [if_pos hrem, Sender.after, firstOf]
      rcases tx.takes with _ | n <;> simp
    · exact (send_after tx (transport e) []).2.2
  | cons c cs ih =>
    rw [LineBuffer.drainAll] at hrest ⊢
    rw [pump, filterMap_append, append_assoc]
    obtain ⟨hgo, hstop⟩ := @forward_after _ parse (lb.push c).drainLines.1 tx
      (((lb.push c).drainLines.2.drainAll cs).1.filterMap parse ++ (failure.map transport).toList)
    rcases hforward : forward parse (lb.push c).drainLines.1 tx with ⟨tx', _ | _⟩
    · rw [hforward] at hstop
      exact hstop rfl
    · rw [hforward] at hgo
      exact (ih _ _ hrest).trans (hgo rfl)

end

/-! ## What a cut changes -/

/-- The text of what has been decoded. -/
def textOf (w : List (Option Char)) : Str := w.map (·.getD replacement)

/-- One character before a text, and what is trimmed at the end. -/
theorem length_trimEnd_cons (c : Char) (s : Str) :
    (trimEnd (c :: s)).length = if trimEnd s = [] then (if isWhitespace c then 0 else 1) else (trimEnd s).length + 1 := by
  rw [← singleton_append, trimEnd_append]
  by_cases hs : trimEnd s = []
  · rw [if_pos hs, if_pos hs]
    rcases hc : isWhitespace c with _ | _
    · rw [trimEnd_cons_of_not hc]
      rfl
    · have htrim : trimEnd [c] = [] := by
        rw [trimEnd_eq_nil_iff]
        intro d hd
        rw [mem_singleton.mp hd]
        exact hc
      rw [htrim]
      rfl
  · rw [if_neg hs, if_neg hs, length_append, length_singleton]
    omega

theorem length_trimEnd_replicate (n : Nat) (s : Str) : (trimEnd (replicate n replacement ++ s)).length = n + (trimEnd s).length := by
  induction n with
  | zero => rw [replicate_zero, nil_append, Nat.zero_add]
  | succ n ih =>
    rw [replicate_succ, cons_append, trimEnd_cons_of_not (by decide), length_cons]
    omega

/-- A line that a cut breaks is longer, also without the whitespace at its end. -/
theorem Broken_trimEnd {w d : List (Option Char)} (h : Broken w d) :
    w = d ∨ (trimEnd (textOf w)).length < (trimEnd (textOf d)).length := by
  have hcons : ∀ (x : Option Char) (w : List (Option Char)), textOf (x :: w) = x.getD replacement :: textOf w := fun _ _ => rfl
  induction h with
  | nil => exact .inl rfl
  | @keep x w d h ih =>
    rcases ih with rfl | hlt
    · exact .inl rfl
    · refine .inr ?_
      have hne : trimEnd (textOf d) ≠ [] := by
        intro hnil
        rw [hnil] at hlt
        exact absurd hlt (Nat.not_lt_zero _)
      rw [hcons, hcons, length_trimEnd_cons, length_trimEnd_cons]
      split
      · split <;> omega
      · omega
  | @part x n w d hx h ih =>
    refine .inr ?_
    have hle : (trimEnd (textOf w)).length ≤ (trimEnd (textOf d)).length := by
      rcases ih with rfl | hlt
      · exact Nat.le_refl _
      · exact Nat.le_of_lt hlt
    have htext : textOf (replicate (n + 2) none ++ d) = replicate (n + 2) replacement ++ textOf d := by
      rw [textOf, map_append, map_replicate]
      rfl
    rw [htext, length_trimEnd_replicate, hcons, length_trimEnd_cons]
    split
    · split <;> omega
    · omega

theorem newline_not_mem_textOf {l : List (Option Char)} (h : some '\n' ∉ l) : '\n' ∉ textOf l := by
  intro hmem
  obtain ⟨x, hx, heq⟩ := mem_map.mp hmem
  rcases x with _ | c
  · exact absurd heq (by decide)
  · exact h (heq ▸ hx)

/-- Complete lines are the same, whitespace at their ends apart, only if no cut goes through a part. -/
theorem eq_of_trimmed_lines {ls : List (List (Option Char))} (hls : ∀ l ∈ ls, some '\n' ∉ l) {d : List (Option Char)}
    (h : Broken (ls.flatMap (fun l => l ++ [some '\n'])) d)
    (hlines : (cutLines '\n' (textOf d)).1.map trimEnd = ls.map (fun l => trimEnd (textOf l))) :
    ls.flatMap (fun l => l ++ [some '\n']) = d := by
  induction ls generalizing d with
  | nil =>
    cases h
    rfl
  | cons l ls ih =>
    rw [flatMap_cons, append_assoc, singleton_append] at h ⊢
    obtain ⟨m, e, rfl, hm, he⟩ := h.of_append (by decide)
    have hml : '\n' ∉ textOf m := newline_not_mem_textOf (hm.not_mem (hls l mem_cons_self))
    have htext : textOf (m ++ some '\n' :: e) = textOf m ++ '\n' :: textOf e := by
      rw [textOf, map_append]
      rfl
    rw [htext, cutLines_line hml, map_cons, map_cons, cons.injEq] at hlines
    rcases Broken_trimEnd hm with rfl | hlt
    · rw [ih (forall_mem_cons.mp hls).2 he hlines.2]
    · rw [hlines.1] at hlt
      exact absurd hlt (Nat.lt_irrefl _)

/-- A text that ends in a newline leaves nothing. -/
theorem cutLines_newline (s : Str) : (cutLines '\n' (s ++ ['\n'])).2 = [] := by
  rw [cutLines_append, cutLines_line (cutLines_spec '\n' s).2.2]
  rfl

/-- What ends in a newline, or is nothing, is made of lines. -/
theorem exists_lines {w : List (Option Char)} (h : w = [] ∨ w.getLast? = some (some '\n')) :
    ∃ ls : List (List (Option Char)), w = ls.flatMap (fun l => l ++ [some '\n']) ∧ ∀ l ∈ ls, some '\n' ∉ l := by
  obtain ⟨hw, hls, hrest⟩ := cutLines_spec (some '\n') w
  refine ⟨(cutLines (some '\n') w).1, ?_, hls⟩
  rcases hr : (cutLines (some '\n') w).2 with _ | ⟨x, r⟩
  · rw [hr, append_nil] at hw
    exact hw
  · -- the last of the rest would be a newline
    rw [hr] at hw hrest
    rcases h with rfl | h
    · cases hr
    · rw [hw, getLast?_append_of_ne_nil _ (cons_ne_nil x r)] at h
      exact absurd (mem_of_getLast? h) hrest

theorem decodeUtf8_newline (s : Bytes) : (decodeUtf8 (s ++ [byte '\n'])).getLast? = some (some '\n') :=
  (broken_append s [byte '\n']).getLast? (by
    rw [show decodeUtf8 [byte '\n'] = [some '\n'] from rfl, getLast?_concat])

/-- On complete lines none of which is too long when it arrives, the buffer yields the lines of the stream exactly if no cut goes through
a character or an ill-formed part; and nothing is left. -/
theorem drainAll_iff {chunks lines : List Bytes} (hstream : chunks.flatten = lines.flatMap (fun l => l ++ [byte '\n']))
    (hkeeps : keepsLines chunks = true) :
    ((LineBuffer.new.drainAll chunks).1 = linesOf chunks.flatten ↔ cutsBetween chunks = true) ∧
      (LineBuffer.new.drainAll chunks).2.buf = [] := by
  have hbroken := broken_pieces chunks
  have hlast : decodeUtf8 chunks.flatten = [] ∨ (decodeUtf8 chunks.flatten).getLast? = some (some '\n') := by
    rw [hstream]
    rcases eq_nil_or_concat lines with rfl | ⟨ls, l, rfl⟩
    · exact .inl rfl
    · refine .inr ?_
      rw [concat_eq_append, flatMap_append, flatMap_singleton, ← append_assoc]
      exact decodeUtf8_newline _
  obtain ⟨ls, hls, hnot⟩ := exists_lines hlast
  have hlinesOf : linesOf chunks.flatten = ls.map (fun l => trimEnd (textOf l)) := by
    have htext : fromUtf8Lossy chunks.flatten = (ls.map textOf).flatMap (fun l => l ++ ['\n']) ++ [] := by
      rw [fromUtf8Lossy, hls, map_flatMap, flatMap_map, append_nil]
      refine flatMap_congr (fun l _ => ?_)
      rw [map_append]
      rfl
    have hlines : ∀ l ∈ ls.map textOf, '\n' ∉ l := by
      intro l hl
      obtain ⟨m, hm, rfl⟩ := mem_map.mp hl
      exact newline_not_mem_textOf (hnot m hm)
    rw [linesOf, htext, cutLines_flatMap hlines not_mem_nil, map_map]
    rfl
  have harrived : arrived chunks = textOf (chunks.flatMap decodeUtf8) := by
    rw [textOf, map_flatMap]
    rfl
  have hrest : (cutLines '\n' (arrived chunks)).2 = [] := by
    rw [harrived]
    rcases hlast with hnil | hlast
    · rw [hnil] at hbroken
      generalize chunks.flatMap decodeUtf8 = d at hbroken
      cases hbroken
      rfl
    · obtain ⟨l, hl⟩ := getLast?_eq_some_iff.mp hlast
      rw [hl] at hbroken
      obtain ⟨m, d, hd, -, hnil⟩ := hbroken.of_append (by decide)
      cases hnil
      rw [hd, textOf, map_append]
      exact cutLines_newline _
  have hyield := @drainAll_eq .new chunks not_mem_nil (fun l hl => of_decide_eq_true (all_eq_true.mp hkeeps l hl)) hrest
  have htrim : ∀ l : Str, trimEnd (l ++ ['\n']) = trimEnd l := by
    intro l
    rw [trimEnd_append, if_pos (by decide)]
  rw [hyield]
  refine ⟨?_, rfl⟩
  simp only [htrim]
  rw [hlinesOf, cutsBetween, beq_iff_eq]
  constructor
  · intro h
    rw [hls] at hbroken
    rw [hls]
    refine (eq_of_trimmed_lines hnot hbroken ?_).symm
    rw [← harrived]
    exact h
  · intro h
    rw [← hlinesOf, linesOf, fromUtf8Lossy, ← h]
    rw [harrived]
    rfl

end Ferroly.Genai
