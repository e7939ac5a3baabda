import Ferroly.Lemmas.TopoOrder

/-!
# One order for every order of iteration

Kahn's algorithm goes over hash maps and sets. Only the seed and the ids that become ready in one turn are sorted; that is enough for
the order to depend on nothing but the dependencies.
-/

namespace Ferroly.Lifecycle

open List

/-- The same dependencies, in maps and sets that may be iterated in another order. -/
structure SameDeps (deps deps' : Deps) : Prop where
  keys : ∀ a, a ∈ deps ↔ a ∈ deps'
  edges : ∀ a b, DependsOn deps a b ↔ DependsOn deps' a b

variable {deps deps' : Deps} {inDegree inDegree' : HashMap Id Nat} {queue ready ready' order : List Id}
  {iter : HashMap Id Nat → List (Sigma fun _ : Id => Nat)}

theorem SameDeps.done_iff (hsame : SameDeps deps deps') (m : Id) :
    (Mentioned deps m ∧ missing deps order m = []) ↔ Mentioned deps' m ∧ missing deps' order m = [] := by
  simp only [Mentioned, eq_nil_iff_forall_not_mem, mem_missing, hsame.keys, hsame.edges]

/-- What is in order at the end of the queue is the same in two runs that have done the same ids. -/
theorem ready_eq (queue : List Id) (hsame : SameDeps deps deps') (hready : ready.Pairwise (· ≤ ·))
    (hready' : ready'.Pairwise (· ≤ ·)) (h : KahnInv deps inDegree (queue ++ ready) order)
    (h' : KahnInv deps' inDegree' (queue ++ ready') order) : ready = ready' := by
  have hperm := (perm_ext_iff_of_nodup h.nodup h'.nodup).mpr (fun m => by rw [h.mem, h'.mem, hsame.done_iff])
  have hperm' := (perm_append_left_iff _).mp ((perm_append_left_iff _).mp hperm)
  exact hperm'.eq_of_pairwise (fun a b _ _ => le_antisymm) hready hready'

/-- Two runs of the loop that have done the same ids and have the same queue. -/
theorem KahnInv.agree {fuel fuel' : Nat} (hsame : SameDeps deps deps') (h : KahnInv deps inDegree queue order)
    (h' : KahnInv deps' inDegree' queue order) (hfuel : inDegree.entries.length ≤ order.length + fuel)
    (hfuel' : inDegree'.entries.length ≤ order.length + fuel') :
    (kahn (degrees deps).dependents fuel inDegree queue order).map Prod.snd =
      (kahn (degrees deps').dependents fuel' inDegree' queue order).map Prod.snd := by
  induction fuel generalizing fuel' inDegree inDegree' queue order with
  | zero =>
    have hle := h.length_le
    obtain rfl : queue = [] := length_eq_zero_iff.mp (by omega)
    cases fuel' <;> rfl
  | succ fuel ih =>
    rcases queue with _ | ⟨n, queue⟩
    · cases fuel' <;> rfl
    have hle := h'.length_le
    rw [length_cons] at hle
    obtain ⟨fuel', rfl⟩ : ∃ k, fuel' = k + 1 := ⟨fuel' - 1, by omega⟩
    obtain ⟨next, ready, hstep, hsorted, hinv, hlen⟩ := h.step fuel
    obtain ⟨next', ready', hstep', hsorted', hinv', hlen'⟩ := h'.step fuel'
    obtain rfl := ready_eq queue hsame hsorted hsorted' hinv hinv'
    rw [hstep, hstep']
    exact ih hinv hinv' (by rw [length_append, length_singleton]; omega) (by rw [length_append, length_singleton]; omega)

/-- An order that is returned is what the loop leaves. -/
theorem topoOrderBy_ok (h : topoOrderBy iter deps = .ok order) :
    (kahn (degrees deps).dependents (degrees deps).inDegree.entries.length (degrees deps).inDegree
      ((((iter (degrees deps).inDegree).filter (fun e => e.2 = 0)).map (fun e => e.1)).insertionSort (· ≤ ·)) []).map Prod.snd =
      .ok order := by
  simp only [topoOrderBy] at h
  split at h
  · cases h
  next hkahn =>
  rw [hkahn]
  split at h
  · cases h
  · exact h

/-- An acyclic relation gives one list for every order of iteration: all ids mentioned, each once and after its dependencies. A cyclic
one gives the error. No counter is taken below zero and no lookup fails, as nothing panics. -/
theorem topo_order_unique (deps : Deps) :
    (Graph.Acyclic (DependsOn deps) → ∃ order : List Id, order.Nodup ∧ (∀ m, m ∈ order ↔ Mentioned deps m) ∧
      (∀ before a after, order = before ++ a :: after → ∀ b, DependsOn deps a b → b ∈ before) ∧
      ∀ iter deps', (∀ counts, (iter counts).Perm counts.entries) → SameDeps deps deps' → topoOrderBy iter deps' = .ok order) ∧
    (¬Graph.Acyclic (DependsOn deps) →
      ∀ iter deps', (∀ counts, (iter counts).Perm counts.entries) → SameDeps deps deps' →
        ∃ ids, topoOrderBy iter deps' = .error (.error (.cyclicDependency ids))) := by
  have hrel : ∀ deps', SameDeps deps deps' → DependsOn deps' = DependsOn deps := fun deps' hsame =>
    funext₂ (fun a b => propext (hsame.edges a b).symm)
  refine ⟨fun hacyclic => ?_, fun hcyclic iter deps' hiter hsame => ?_⟩
  · rcases @topoOrderBy_spec deps AList.entries (fun _ => .refl _) with ⟨⟨order, hok, htopo, hmem⟩, -⟩ | ⟨-, hnot⟩
    · refine ⟨order, htopo.nodup, hmem, fun before a after h => (htopo before a after h).2, fun iter deps' hiter hsame => ?_⟩
      rcases @topoOrderBy_spec deps' iter hiter with ⟨⟨order', hok', -⟩, -⟩ | ⟨-, hnot⟩
      · have hstart := @kahnInv_start deps _ (.refl _)
        have hstart' := @kahnInv_start deps' _ (hiter _)
        have hagree := topoOrderBy_ok hok
        rw [ready_eq [] hsame (pairwise_insertionSort _ _) (pairwise_insertionSort _ _) hstart hstart'] at hagree hstart
        rw [hstart.agree hsame hstart' (Nat.le_add_left _ _) (Nat.le_add_left _ _), topoOrderBy_ok hok'] at hagree
        rw [hok', Except.ok.inj hagree]
      · exact absurd (hrel deps' hsame ▸ hacyclic) hnot
    · exact absurd hacyclic hnot
  · rcases @topoOrderBy_spec deps' iter hiter with ⟨-, hacyclic⟩ | ⟨herror, -⟩
    · exact absurd (hrel deps' hsame ▸ hacyclic) hcyclic
    · exact herror

end Ferroly.Lifecycle
