import Ferroly.Lemmas.YamlLines

/-!
# YAML documents are read completely

A document that parses is read to its end exactly when its lines are connected: the parser stops at the first line that belongs to none
of the blocks before it, and returns what it has.
-/

namespace Ferroly.Yaml

/-- Every significant line was looked at, and contributes a key, an item or a scalar. -/
structure ReadCompletely (input : Str) (v : Value) : Prop where
  consumed : leftover input = []
  yields : Yields (preprocess input) v

/-- A document that parses is read completely if and only if every line belongs to the lines before it. -/
theorem read_completely_iff {input : Str} {v : Value} (h : fromStr input = .ok v) :
    ReadCompletely input v ↔ Connected (preprocess input) := by
  obtain ⟨cs, hlines, hyields, hconnected, hnil, hstops⟩ := fromStr_takes h
  constructor
  · rintro ⟨hconsumed, -⟩
    rw [hlines, hconsumed, List.append_nil]
    exact hconnected
  · intro hall
    have hconsumed : leftover input = [] := by
      cases hleft : leftover input with
      | nil => rfl
      | cons l rest =>
        have hne : cs ≠ [] := by
          intro hcs
          rw [hnil hcs] at hleft
          cases hleft
        rw [hleft] at hlines hstops
        exact absurd (hall cs l rest hlines hne) (hstops l rfl)
    refine ⟨hconsumed, ?_⟩
    rw [hlines, hconsumed, List.append_nil]
    exact hyields

theorem fromStr_first_scalar (input content : Str) {indent : Nat} {rest : List Line} (hlines : preprocess input = (indent, content) :: rest)
    (hdash : isDash content = false) (hkey : mappingKey content = none) :
    fromStr input = .ok (parseScalar content) ∧ leftover input = rest := by
  have hblock : parseBlockFuel (MAX_DEPTH + 2) indent 0 ((indent, content) :: rest) = .ok (parseScalar content, rest) := by
    rw [parseBlockFuel_cons (Nat.zero_le _), if_neg (by simp [hdash]), if_neg (by simp [hkey])]
  rw [fromStr, leftover, hlines]
  simp only [hblock, and_self]

/-- One scalar. -/
theorem read_completely_scalar : ReadCompletely "hello\n".toList (.str "hello".toList) ↔ Connected (preprocess "hello\n".toList) :=
  read_completely_iff (fromStr_first_scalar "hello\n".toList "hello".toList rfl rfl rfl).1

/-- A second line at the indentation of a scalar is dropped. -/
theorem read_drops_lines : fromStr "hello\nworld\n".toList = .ok (.str "hello".toList) ∧
    leftover "hello\nworld\n".toList = [(0, "world".toList)] ∧ ¬ReadCompletely "hello\nworld\n".toList (.str "hello".toList) := by
  obtain ⟨hparse, hleft⟩ := fromStr_first_scalar "hello\nworld\n".toList "hello".toList rfl rfl rfl
  refine ⟨hparse, hleft, fun h => ?_⟩
  have hconsumed := h.consumed
  rw [hleft] at hconsumed
  cases hconsumed

end Ferroly.Yaml
