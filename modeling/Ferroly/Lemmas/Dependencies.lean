import Ferroly.Lemmas.TopoOrder

/-!
# Changes of the dependency relation

What each operation does to the dependency relation, and that it keeps a manager valid.
-/

namespace Ferroly.Lifecycle

open Relation AList

variable {deps : Deps} {a b id : Id}

theorem dependsOn_insert {set : HashSet Id} :
    DependsOn (deps.insert id set) a b ↔ if a = id then b ∈ set else DependsOn deps a b := by
  rw [dependsOn_iff, dependsOn_iff]
  by_cases ha : a = id
  · subst ha
    simp
  · simp [ha]

/-- A new key without dependencies changes nothing. -/
theorem dependsOn_register : DependsOn (deps.entry id HashSet.empty (fun set => set)) a b ↔ DependsOn deps a b := by
  rw [HashMap.entry, dependsOn_insert]
  by_cases ha : a = id
  · subst ha
    rw [dependsOn_iff]
    rcases deps.lookup a with _ | set <;> simp
  · rw [if_neg ha]

theorem dependsOn_unregister :
    DependsOn (HashMap.mapValues (deps.erase id) (fun set => set.remove id)) a b ↔ DependsOn deps a b ∧ a ≠ id ∧ b ≠ id := by
  simp only [dependsOn_iff, HashMap.lookup_mapValues]
  by_cases ha : a = id
  · subst ha
    simp
  · rw [lookup_erase_ne ha]
    rcases deps.lookup a with _ | set
    · simp
    · simp [ha, and_comm]

theorem dependsOn_add {d : Id} :
    DependsOn (deps.entry id HashSet.empty (fun set => set.insert d)) a b ↔ DependsOn deps a b ∨ a = id ∧ b = d := by
  rw [HashMap.entry, dependsOn_insert]
  by_cases ha : a = id
  · subst ha
    rw [dependsOn_iff]
    rcases deps.lookup a with _ | set <;> simp [or_comm]
  · simp [ha]

namespace Inner

variable {s : Inner}

theorem valid_new : new.Valid where
  deps a := by simp [new]
  watchers a := by simp [new]
  registered a b h := by
    obtain ⟨set, hset, -⟩ := dependsOn_iff.mp h
    cases hset
  acyclic a h := by
    obtain ⟨b, hab, -⟩ := TransGen.head'_iff.mp h
    obtain ⟨set, hset, -⟩ := dependsOn_iff.mp hab
    cases hset

/-- The first of two ids that depend on one another is a component too. -/
theorem Valid.registered_left (h : s.Valid) (hab : DependsOn s.deps a b) : a ∈ s.components := by
  obtain ⟨set, hset, -⟩ := dependsOn_iff.mp hab
  exact (h.deps a).mp (lookup_isSome.mp (by rw [hset]; rfl))

/-- In a valid manager the components are the ids that are mentioned. -/
theorem Valid.mentioned_iff (h : s.Valid) : Mentioned s.deps a ↔ a ∈ s.components := by
  constructor
  · rintro (ha | ⟨b, hb⟩)
    · exact (h.deps a).mp ha
    · exact h.registered b a hb
  · exact fun ha => .inl ((h.deps a).mpr ha)

theorem Valid.register (h : s.Valid) (id : Id) : (s.register id).Valid := by
  have hrel : DependsOn (s.register id).deps = DependsOn s.deps := by
    funext a b
    exact propext dependsOn_register
  refine ⟨fun a => ?_, fun a => ?_, fun a b hab => ?_, ?_⟩
  · simp [Inner.register, HashMap.entry, h.deps]
  · simp [Inner.register, h.watchers]
  · rw [hrel] at hab
    exact HashSet.mem_insert.mpr (.inr (h.registered a b hab))
  · rw [hrel]
    exact h.acyclic

theorem Valid.unregister (h : s.Valid) (id : Id) : (s.unregister id).Valid := by
  refine ⟨fun a => ?_, fun a => ?_, fun a b hab => ?_, fun a ha => ?_⟩
  · rw [← lookup_isSome]
    simp only [Inner.unregister, HashMap.lookup_mapValues, Option.isSome_map, HashSet.mem_remove, ← h.deps]
    rw [lookup_isSome, mem_erase]
  · simp [Inner.unregister, h.watchers]
  · obtain ⟨hab, -, hb⟩ := dependsOn_unregister.mp hab
    exact HashSet.mem_remove.mpr ⟨hb, h.registered a b hab⟩
  · exact h.acyclic a (TransGen.mono (fun x y hxy => (dependsOn_unregister.mp hxy).1) _ _ ha)

/-- What adding a dependency does to a valid manager. -/
theorem Valid.addDependency (h : s.Valid) (a b : Id) :
    (a ∉ s.components ∧ Inner.addDependency a b s = (.error (.error (.componentNotFound a)), s)) ∨
    (a ∈ s.components ∧ b ∉ s.components ∧ Inner.addDependency a b s = (.error (.error (.componentNotFound b)), s)) ∨
    (a ∈ s.components ∧ b ∈ s.components ∧ ReflTransGen (DependsOn s.deps) b a ∧
      ∃ s', Inner.addDependency a b s = (.error (.error (.cyclicDependency (a ++ " -> ".toList ++ b))), s') ∧ s'.Valid ∧
        s'.components = s.components ∧ s'.watchers = s.watchers ∧ ∀ x y, DependsOn s'.deps x y ↔ DependsOn s.deps x y) ∨
    (a ∈ s.components ∧ b ∈ s.components ∧ ¬ReflTransGen (DependsOn s.deps) b a ∧
      ∃ s', Inner.addDependency a b s = (.ok (), s') ∧ s'.Valid ∧ s'.components = s.components ∧ s'.watchers = s.watchers ∧
        ∀ x y, DependsOn s'.deps x y ↔ DependsOn s.deps x y ∨ x = a ∧ y = b) := by
  unfold Inner.addDependency
  by_cases ha : a ∈ s.components
  swap
  · exact .inl ⟨ha, by simp [ha]⟩
  by_cases hb : b ∈ s.components
  swap
  · exact .inr (.inl ⟨ha, hb, by simp [ha, hb]⟩)
  rw [if_neg (not_not.mpr ha), if_neg (not_not.mpr hb)]
  simp only
  have hrel : DependsOn (s.deps.entry a HashSet.empty (fun set => set.insert b)) =
      fun x y => DependsOn s.deps x y ∨ x = a ∧ y = b := by
    funext x y
    exact propext dependsOn_add
  have hkeys : ∀ set x, x ∈ s.deps.insert a set ↔ x ∈ s.components := by
    intro set x
    rw [mem_insert, h.deps]
    exact or_iff_right_of_imp (fun hx => hx ▸ ha)
  rcases topoOrder_spec with ⟨⟨order, horder, -⟩, hacyclic⟩ | ⟨⟨ids, hids⟩, hcyclic⟩
  · have hacyclic' := hacyclic
    rw [hrel, Graph.acyclic_add_iff h.acyclic] at hacyclic'
    rw [horder]
    refine .inr (.inr (.inr ⟨ha, hb, hacyclic', _, rfl, ?_, rfl, rfl, fun x y => dependsOn_add⟩))
    refine ⟨fun x => hkeys _ x, h.watchers, fun x y hxy => ?_, hacyclic⟩
    rcases dependsOn_add.mp hxy with hxy | ⟨-, rfl⟩
    · exact h.registered x y hxy
    · exact hb
  · rw [hrel, Graph.acyclic_add_iff h.acyclic, not_not] at hcyclic
    have hlookup : (s.deps.entry a HashSet.empty (fun set => set.insert b)).lookup a =
        some (((s.deps.lookup a).getD HashSet.empty).insert b) := by rw [HashMap.lookup_entry, if_pos rfl]
    -- the edge was not there before: it would have closed a cycle
    have hnew : ¬DependsOn s.deps a b := fun hab => h.acyclic a (TransGen.head' hab hcyclic)
    have hsame : ∀ x y, DependsOn ((s.deps.entry a HashSet.empty (fun set => set.insert b)).insert a
        ((((s.deps.lookup a).getD HashSet.empty).insert b).remove b)) x y ↔ DependsOn s.deps x y := by
      intro x y
      rw [dependsOn_insert]
      by_cases hx : x = a
      · subst hx
        rw [if_pos rfl, HashSet.mem_remove, HashSet.mem_insert]
        have hold : y ∈ (s.deps.lookup x).getD HashSet.empty ↔ DependsOn s.deps x y := by
          rw [dependsOn_iff]
          rcases s.deps.lookup x with _ | set <;> simp
        rw [hold]
        constructor
        · rintro ⟨hne, rfl | hxy⟩
          · exact absurd rfl hne
          · exact hxy
        · exact fun hxy => ⟨fun hy => hnew (hy ▸ hxy), .inr hxy⟩
      · rw [dependsOn_add]
        simp [hx]
    rw [hids]
    simp only [hlookup]
    refine .inr (.inr (.inl ⟨ha, hb, hcyclic, _, rfl, ?_, rfl, rfl, hsame⟩))
    refine ⟨fun x => ?_, h.watchers, fun x y hxy => h.registered x y ((hsame x y).mp hxy), fun x hx => ?_⟩
    · rw [HashMap.entry, insert_insert]
      exact hkeys _ x
    · exact h.acyclic x (TransGen.mono (fun u v huv => (hsame u v).mp huv) _ _ hx)

theorem Valid.addDependency_keeps (h : s.Valid) (a b : Id) :
    (Inner.addDependency a b s).2.Valid ∧ (Inner.addDependency a b s).2.watchers = s.watchers := by
  obtain ⟨-, heq⟩ | ⟨-, -, heq⟩ | ⟨-, -, -, s', heq, hs', -, hw, -⟩ | ⟨-, -, -, s', heq, hs', -, hw, -⟩ := h.addDependency a b
  all_goals rw [heq]
  · exact ⟨h, rfl⟩
  · exact ⟨h, rfl⟩
  · exact ⟨hs', hw⟩
  · exact ⟨hs', hw⟩

theorem Valid.edit (h : s.Valid) (e : Edit) : (s.edit e).Valid := by
  cases e with
  | register id => exact h.register id
  | unregister id => exact h.unregister id
  | addDependency a b => exact (h.addDependency_keeps a b).1

/-- An operation starts and stops nothing: it keeps the state of a component or makes it unknown. -/
theorem Valid.getState_edit (h : s.Valid) (e : Edit) {n : Id} {state : ComponentState}
    (hstate : (s.edit e).getState n = some state) : state = .unknown ∨ s.getState n = some state := by
  cases e with
  | register id =>
    change (s.watchers.insert id .unknown).lookup n = some state at hstate
    by_cases hn : n = id
    · subst hn
      rw [lookup_insert] at hstate
      exact .inl (Option.some.inj hstate).symm
    · rw [lookup_insert_ne hn] at hstate
      exact .inr hstate
  | unregister id =>
    change (s.watchers.erase id).lookup n = some state at hstate
    by_cases hn : n = id
    · subst hn
      rw [lookup_erase] at hstate
      cases hstate
    · rw [lookup_erase_ne hn] at hstate
      exact .inr hstate
  | addDependency a b =>
    refine .inr ?_
    rw [← hstate]
    exact congrArg (fun m => AList.lookup n m) (h.addDependency_keeps a b).2.symm

/-- Every manager built by its own operations is valid, and all its components are unknown. -/
theorem valid_edits (es : List Edit) : (edits es).Valid ∧ ∀ n state, (edits es).getState n = some state → state = .unknown := by
  induction es using List.reverseRecOn with
  | nil => exact ⟨valid_new, fun n state h => nomatch h⟩
  | append_singleton es e ih =>
    obtain ⟨hvalid, hunknown⟩ := ih
    rw [edits, List.foldl_append]
    refine ⟨hvalid.edit e, fun n state hstate => ?_⟩
    rcases hvalid.getState_edit e hstate with h | h
    · exact h
    · exact hunknown n state h

end Inner

end Ferroly.Lifecycle
