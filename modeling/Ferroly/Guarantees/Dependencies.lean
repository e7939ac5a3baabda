import Ferroly.Lemmas.Dependencies

/-!
# The dependency graph

Whatever is registered, unregistered and declared, the dependency relation stays acyclic and one between components; a dependency is
refused exactly if it would close a cycle or is not one between components.
-/

namespace Ferroly.Lifecycle

open Relation

/-- After any operations the dependency relation is acyclic and one between components. A dependency is then refused as cyclic
exactly if its end leads to its start, as unknown exactly if one of the ids is not registered, and otherwise accepted; a refusal
leaves the relation as it was. -/
theorem dependency_graph_integrity (es : List Edit) : Graph.Acyclic (DependsOn (Inner.edits es).deps) ∧
    (∀ a b, DependsOn (Inner.edits es).deps a b → a ∈ (Inner.edits es).components ∧ b ∈ (Inner.edits es).components) ∧
    ∀ a b, ((∃ ids, (Inner.addDependency a b (Inner.edits es)).1 = .error (.error (.cyclicDependency ids))) ↔
        a ∈ (Inner.edits es).components ∧ b ∈ (Inner.edits es).components ∧ ReflTransGen (DependsOn (Inner.edits es).deps) b a) ∧
      ((∃ id, (Inner.addDependency a b (Inner.edits es)).1 = .error (.error (.componentNotFound id))) ↔
        a ∉ (Inner.edits es).components ∨ b ∉ (Inner.edits es).components) ∧
      ((Inner.addDependency a b (Inner.edits es)).1 = .ok () ↔
        a ∈ (Inner.edits es).components ∧ b ∈ (Inner.edits es).components ∧ ¬ReflTransGen (DependsOn (Inner.edits es).deps) b a) ∧
      ((Inner.addDependency a b (Inner.edits es)).1 ≠ .ok () →
        ∀ x y, DependsOn (Inner.addDependency a b (Inner.edits es)).2.deps x y ↔ DependsOn (Inner.edits es).deps x y) := by
  have h := (Inner.valid_edits es).1
  refine ⟨h.acyclic, fun a b hab => ⟨h.registered_left hab, h.registered a b hab⟩, fun a b => ?_⟩
  rcases h.addDependency a b with ⟨ha, heq⟩ | ⟨ha, hb, heq⟩ | ⟨ha, hb, hreach, s', heq, -, -, -, hsame⟩ | ⟨ha, hb, hreach, s', heq, -⟩
  · simp [heq, ha]
  · simp [heq, hb]
  · simp [heq, ha, hb, hreach, hsame]
  · simp [heq, ha, hb, hreach]

end Ferroly.Lifecycle
