import Mathlib.Data.List.Basic
import Mathlib.Data.List.Flatten

/-!
# Cutting a list into lines

A list with a terminator is the lines that have ended and the beginning of the next one. A reader that keeps that beginning and goes on
with more input has read the same lines, however the input comes.
-/

namespace Ferroly

open List

variable {α : Type} [DecidableEq α] {e : α}

/-- The lines that have ended, without their terminators, and what follows the last terminator. -/
def cutLines (e : α) : List α → List (List α) × List α
  | [] => ([], [])
  | a :: s =>
    if a = e then ([] :: (cutLines e s).1, (cutLines e s).2)
    else
      match (cutLines e s).1 with
      | [] => ([], a :: (cutLines e s).2)
      | l :: ls => ((a :: l) :: ls, (cutLines e s).2)

theorem cutLines_of_not_mem {s : List α} (h : e ∉ s) : cutLines e s = ([], s) := by
  induction s with
  | nil => rfl
  | cons a s ih =>
    rw [mem_cons, not_or] at h
    rw [cutLines, if_neg (fun ha => h.1 ha.symm), ih h.2]

theorem cutLines_line {l : List α} (h : e ∉ l) (s : List α) :
    cutLines e (l ++ e :: s) = (l :: (cutLines e s).1, (cutLines e s).2) := by
  induction l with
  | nil => rw [nil_append, cutLines, if_pos rfl]
  | cons a l ih =>
    rw [mem_cons, not_or] at h
    rw [cons_append, cutLines, if_neg (fun ha => h.1 ha.symm), ih h.2]

/-- Lines put end to end are cut into the same lines. -/
theorem cutLines_flatMap {ls : List (List α)} {r : List α} (hls : ∀ l ∈ ls, e ∉ l) (hr : e ∉ r) :
    cutLines e (ls.flatMap (fun l => l ++ [e]) ++ r) = (ls, r) := by
  induction ls with
  | nil => exact cutLines_of_not_mem hr
  | cons l ls ih =>
    rw [flatMap_cons, append_assoc, append_assoc, singleton_append, cutLines_line (hls l mem_cons_self),
      ih (forall_mem_cons.mp hls).2]

/-- Every list is its lines and the rest, none of which has the terminator in it. -/
theorem cutLines_spec (e : α) (s : List α) :
    s = (cutLines e s).1.flatMap (fun l => l ++ [e]) ++ (cutLines e s).2 ∧ (∀ l ∈ (cutLines e s).1, e ∉ l) ∧ e ∉ (cutLines e s).2 := by
  induction s with
  | nil => exact ⟨rfl, nofun, not_mem_nil⟩
  | cons a s ih =>
    obtain ⟨hs, hlines, hrest⟩ := ih
    rw [cutLines]
    by_cases ha : a = e
    · rw [if_pos ha]
      refine ⟨?_, ?_, hrest⟩
      · rw [flatMap_cons, nil_append, singleton_append, cons_append, ← hs, ha]
      · intro l hl
        rcases mem_cons.mp hl with rfl | hl
        · exact not_mem_nil
        · exact hlines l hl
    · rw [if_neg ha]
      generalize hcut : cutLines e s = cut at *
      rcases cut with ⟨_ | ⟨l, ls⟩, r⟩
      · refine ⟨?_, nofun, ?_⟩
        · rw [flatMap_nil, nil_append] at hs ⊢
          rw [hs]
        · rw [mem_cons, not_or]
          exact ⟨fun h => ha h.symm, hrest⟩
      · refine ⟨?_, ?_, hrest⟩
        · rw [flatMap_cons] at hs ⊢
          rw [cons_append, cons_append, cons_append, ← hs]
        · intro m hm
          rcases mem_cons.mp hm with rfl | hm
          · rw [mem_cons, not_or]
            exact ⟨fun h => ha h.symm, hlines l mem_cons_self⟩
          · exact hlines m (mem_cons_of_mem _ hm)

/-- More input is read as if it came with the rest. -/
theorem cutLines_append (s t : List α) :
    cutLines e (s ++ t) = ((cutLines e s).1 ++ (cutLines e ((cutLines e s).2 ++ t)).1, (cutLines e ((cutLines e s).2 ++ t)).2) := by
  obtain ⟨hs, hlines, -⟩ := cutLines_spec e s
  obtain ⟨ht, hmore, hrest⟩ := cutLines_spec e ((cutLines e s).2 ++ t)
  have happend : s ++ t = ((cutLines e s).1 ++ (cutLines e ((cutLines e s).2 ++ t)).1).flatMap (fun l => l ++ [e]) ++
      (cutLines e ((cutLines e s).2 ++ t)).2 := by
    rw [flatMap_append, append_assoc, ← ht, ← append_assoc, ← hs]
  conv_lhs => rw [happend]
  refine cutLines_flatMap ?_ hrest
  intro l hl
  exact (mem_append.mp hl).elim (hlines l) (hmore l)

end Ferroly
