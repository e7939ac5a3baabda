import Mathlib.Data.List.AList
import Mathlib.Data.List.Nodup

/-!
# Hash maps and sets

A hash map is an association list with distinct keys, a hash set a list without duplicates; the order of the list is the order in
which the map or set is iterated.
-/

namespace Ferroly

open List

/-- A hash map, its entries in the order of iteration. -/
abbrev HashMap (κ ν : Type) : Type := AList (fun _ : κ => ν)

namespace HashMap

variable {κ ν μ : Type} [DecidableEq κ]

/-- The value of a key, made with a default if there is none, is changed in place. -/
def entry (m : HashMap κ ν) (k : κ) (default : ν) (f : ν → ν) : HashMap κ ν := m.insert k (f ((m.lookup k).getD default))

/-- Change all values. -/
def mapValues (m : HashMap κ ν) (f : ν → μ) : HashMap κ μ where
  entries := m.entries.map (fun e => ⟨e.1, f e.2⟩)
  nodupKeys := by
    have hkeys : (m.entries.map (fun e => (⟨e.1, f e.2⟩ : Sigma (fun _ : κ => μ)))).keys = m.entries.keys := by
      simp [keys, Function.comp_def]
    rw [List.NodupKeys, hkeys]
    exact m.nodupKeys

/-- Keep the entries that pass a test. -/
def retain (m : HashMap κ ν) (p : κ → ν → Bool) : HashMap κ ν where
  entries := m.entries.filter (fun e => p e.1 e.2)
  nodupKeys := m.nodupKeys.sublist filter_sublist

variable (m : HashMap κ ν)

theorem lookup_entry (k k' : κ) (default : ν) (f : ν → ν) :
    (m.entry k default f).lookup k' = if k' = k then some (f ((m.lookup k).getD default)) else m.lookup k' := by
  by_cases h : k' = k
  · subst h
    rw [entry, AList.lookup_insert, if_pos rfl]
  · rw [entry, AList.lookup_insert_ne h, if_neg h]

theorem lookup_mapValues (f : ν → μ) (k : κ) : (m.mapValues f).lookup k = (m.lookup k).map f := by
  rw [Option.ext_iff]
  intro v
  rw [← Option.mem_def, AList.mem_lookup_iff, Option.map_eq_some_iff]
  simp only [mapValues, mem_map, Sigma.mk.injEq, heq_eq_eq]
  constructor
  · rintro ⟨⟨k', w⟩, hmem, rfl, rfl⟩
    exact ⟨w, AList.mem_lookup_iff.mpr hmem, rfl⟩
  · rintro ⟨w, hw, rfl⟩
    exact ⟨⟨k, w⟩, AList.mem_lookup_iff.mp hw, rfl, rfl⟩

theorem lookup_retain (p : κ → ν → Bool) (k : κ) : (m.retain p).lookup k = (m.lookup k).filter (p k) := by
  rw [Option.ext_iff]
  intro v
  rw [← Option.mem_def, ← Option.mem_def, AList.mem_lookup_iff, Option.mem_filter_iff, AList.mem_lookup_iff, retain, mem_filter]

end HashMap

/-- A hash set, its items in the order of iteration. -/
structure HashSet (α : Type) where
  items : List α
  nodup : items.Nodup

namespace HashSet

variable {α : Type} [DecidableEq α]

instance : Membership α (HashSet α) := ⟨fun s a => a ∈ s.items⟩

instance (a : α) (s : HashSet α) : Decidable (a ∈ s) := inferInstanceAs (Decidable (a ∈ s.items))

def empty : HashSet α := ⟨[], nodup_nil⟩

def insert (s : HashSet α) (a : α) : HashSet α := ⟨s.items.insert a, s.nodup.insert⟩

def remove (s : HashSet α) (a : α) : HashSet α := ⟨s.items.erase a, s.nodup.erase a⟩

variable {s : HashSet α}

omit [DecidableEq α] in
theorem mem_items {a : α} : a ∈ s ↔ a ∈ s.items := Iff.rfl

omit [DecidableEq α] in
@[simp] theorem not_mem_empty (a : α) : a ∉ (empty : HashSet α) := not_mem_nil

@[simp] theorem mem_insert {a b : α} : b ∈ s.insert a ↔ b = a ∨ b ∈ s := mem_insert_iff

@[simp] theorem mem_remove {a b : α} : b ∈ s.remove a ↔ b ≠ a ∧ b ∈ s := s.nodup.mem_erase_iff

end HashSet

end Ferroly
