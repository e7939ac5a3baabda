import Mathlib.Data.List.Basic

/-!
# Entry lists that may repeat a key

A list of entries in order, in which a key may stand several times. What a reader sees of a key is one of its `occurrences`; where
the last one counts, the entries are the `effective` ones and those that a later entry has `overridden`. An update (`upsert`) changes
the first entry of the key in place or adds one at the end. Laying entries over others (`overlay`) is one
update after the other: what it makes of a key is found from the values of the key alone (`fuse`).
-/

namespace Ferroly

open List

variable {κ ν : Type} [DecidableEq κ]

/-- The values of a key, in order. -/
def occurrences (k : κ) (l : List (κ × ν)) : List ν := (l.filter (fun e => e.1 == k)).map Prod.snd

/-- The entries with the first value of a key changed, or a value of the key added at the end if it has none. -/
def upsert (k : κ) (change : ν → ν) (new : ν) : List (κ × ν) → List (κ × ν)
  | [] => [(k, new)]
  | (k', v) :: l => if k' = k then (k', change v) :: l else (k', v) :: upsert k change new l

/-- Update entries with others one after the other, `f` combining an old value with a new one. -/
def overlay (f : ν → ν → ν) (b o : List (κ × ν)) : List (κ × ν) :=
  o.foldl (fun b e => upsert e.1 (fun old => f old e.2) e.2 b) b

/-- The values of a key after new ones have been combined with the first of them, or with each other if there was none. -/
def fuse (f : ν → ν → ν) : List ν → List ν → List ν
  | [], [] => []
  | [], v :: vs => [vs.foldl f v]
  | u :: us, vs => vs.foldl f u :: us

variable {k : κ}

@[simp] theorem occurrences_nil : occurrences k ([] : List (κ × ν)) = [] := rfl

variable {l : List (κ × ν)} {v : ν}

@[simp] theorem occurrences_cons_self : occurrences k ((k, v) :: l) = v :: occurrences k l := by
  simp [occurrences]

theorem occurrences_cons_ne {k' : κ} (h : k' ≠ k) : occurrences k ((k', v) :: l) = occurrences k l := by
  simp [occurrences, h]

theorem mem_occurrences : v ∈ occurrences k l ↔ (k, v) ∈ l := by
  simp [occurrences]

/-- The last entry of a key, found from the end of the list. -/
theorem find_reverse_eq : (l.reverse.find? (fun e => e.1 == k)).map Prod.snd = (occurrences k l).getLast? := by
  rw [← head?_filter, filter_reverse, head?_reverse, occurrences, getLast?_map]

variable {change : ν → ν} {new : ν}

/-- An update of a key changes the first of its values, or gives it one. -/
theorem occurrences_upsert_self : occurrences k (upsert k change new l) = match occurrences k l with
      | [] => [new]
      | v :: vs => change v :: vs := by
  induction l with
  | nil => simp [upsert]
  | cons e l ih =>
    obtain ⟨k', v⟩ := e
    by_cases h : k' = k
    · subst h
      rw [upsert, if_pos rfl, occurrences_cons_self, occurrences_cons_self]
    · rw [upsert, if_neg h, occurrences_cons_ne h, occurrences_cons_ne h, ih]

/-- An update of a key leaves the values of the others alone. -/
theorem occurrences_upsert_ne {k' : κ} (h : k' ≠ k) : occurrences k' (upsert k change new l) = occurrences k' l := by
  induction l with
  | nil => rw [upsert, occurrences_cons_ne (Ne.symm h)]
  | cons e l ih =>
    obtain ⟨j, v⟩ := e
    by_cases hj : j = k
    · subst hj
      rw [upsert, if_pos rfl, occurrences_cons_ne (Ne.symm h), occurrences_cons_ne (Ne.symm h)]
    · rw [upsert, if_neg hj]
      by_cases hk : j = k'
      · subst hk
        rw [occurrences_cons_self, occurrences_cons_self, ih]
      · rw [occurrences_cons_ne hk, occurrences_cons_ne hk, ih]

/-! ## Overlays -/

variable {f : ν → ν → ν}

@[simp] theorem fuse_nil (us : List ν) : fuse f us [] = us := by
  cases us <;> rfl

theorem fuse_fuse (us vs ws : List ν) : fuse f (fuse f us vs) ws = fuse f us (vs ++ ws) := by
  cases us with
  | nil =>
    cases vs with
    | nil => rfl
    | cons v vs => simp [fuse]
  | cons u us => simp [fuse]

/-- The values of a key after an overlay. -/
theorem occurrences_overlay (b o : List (κ × ν)) : occurrences k (overlay f b o) = fuse f (occurrences k b) (occurrences k o) := by
  induction o generalizing b with
  | nil => exact (fuse_nil _).symm
  | cons e o ih =>
    obtain ⟨j, v⟩ := e
    have hstep : occurrences k (overlay f b ((j, v) :: o)) =
        fuse f (occurrences k (upsert j (fun old => f old v) v b)) (occurrences k o) := ih _
    by_cases h : j = k
    · subst h
      rw [hstep, occurrences_upsert_self, occurrences_cons_self]
      cases occurrences j b <;> rfl
    · rw [hstep, occurrences_upsert_ne (Ne.symm h), occurrences_cons_ne h]

end Ferroly
