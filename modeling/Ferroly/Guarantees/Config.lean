import Ferroly.Lemmas.Merge

/-!
# Layers of a configuration

The last layer that has a value at a path decides what is seen there, unless an object of an earlier layer repeats a key of the
path: a merge changes the first of the repeated entries, a lookup takes the last. A file keeps what it does not mention, unless it
says nothing at all: an empty YAML file replaces the configuration.
-/

namespace Ferroly.Config

open Value

/-- The last layer with a value at a key is the one that is seen, exactly if nothing shadows it. -/
theorem last_layer_wins_iff (C : CaseMap) (b : ConfigBuilder) (sources : List Source) (before after : List Value) (l v : Value)
    (key : Str) (hlayers : List.Forall₂ (fun s x => s.layer C = .ok x) sources (before ++ l :: after))
    (hlast : navigate l key = some v) (hv : v.isObject = false) (hafter : ∀ x ∈ after, x.Leaves (path key)) :
    (∃ b', b.addAll C sources = .ok b' ∧ b'.build.Sees key v) ↔
      unshadowed v (path key) (b.value :: (before ++ l :: after)) = true := by
  rw [navigate_eq] at hlast
  rw [← List.cons_append, ← lookup_merged_iff hlast hv hafter, ConfigBuilder.addAll_of_layers hlayers]
  constructor
  · rintro ⟨b', hb', hsees⟩
    cases hb'
    exact sees_iff.mp hsees
  · intro hseen
    exact ⟨_, rfl, sees_iff.mpr hseen⟩

/-- Defaults, and a flag over them. -/
def sampleSources : List Source :=
  [.value (.object [("db".toList, .object [("port".toList, .str "1".toList)])]), .args ["--db.port=3".toList]]

theorem last_layer_wins_flag :
    ∃ b', Config.builder.addAll asciiCaseMap sampleSources = .ok b' ∧ b'.build.Sees "db.port".toList (.str "3".toList) :=
  (last_layer_wins_iff asciiCaseMap Config.builder sampleSources
    [.object [("db".toList, .object [("port".toList, .str "1".toList)])]] []
    (.object [("db".toList, .object [("port".toList, .str "3".toList)])]) (.str "3".toList) "db.port".toList
    (.cons rfl (.cons rfl .nil)) rfl rfl (fun _ h => nomatch h)).mpr rfl

/-- A YAML file that repeats a key below another one, and a flag over it. -/
def repeatedSources : List Source :=
  [.file "c.yaml".toList (.ok (utf8 "db:\n  port: 1\n  port: 2\n".toList)), .args ["--db.port=3".toList]]

/-- What the file says. -/
def repeatedLayer : Value :=
  .object [("db".toList, .object [("port".toList, .int ⟨1, by decide⟩), ("port".toList, .int ⟨2, by decide⟩)])]

/-- The flag is not seen: the second of the repeated entries is. -/
theorem repeated_key_shadows_flag : ∃ l₁ l₂, List.Forall₂ (fun s x => s.layer asciiCaseMap = .ok x) repeatedSources [l₁, l₂] ∧
      l₁.isObject = true ∧ l₂.isObject = true ∧ navigate l₂ "db.port".toList = some (.str "3".toList) ∧
      ¬∃ b', Config.builder.addAll asciiCaseMap repeatedSources = .ok b' ∧ b'.build.Sees "db.port".toList (.str "3".toList) := by
  obtain ⟨hfile, hseen⟩ :
      (Source.file "c.yaml".toList (.ok (utf8 "db:\n  port: 1\n  port: 2\n".toList))).layer asciiCaseMap = .ok repeatedLayer ∧
        (Config.builder.addAll asciiCaseMap repeatedSources).toOption.bind (fun b => b.value.lookup (path "db.port".toList)) =
          some (.int ⟨2, by decide⟩) := by decide +kernel
  refine ⟨repeatedLayer, _, .cons hfile (.cons rfl .nil), rfl, rfl, rfl, ?_⟩
  rintro ⟨b', hb', hsees⟩
  rw [hb'] at hseen
  cases hseen.symm.trans (sees_iff.mp hsees)

/-! ## Files -/

/-- A file keeps what is seen at a key that it leaves alone, exactly if it says something, or if there was nothing to keep. -/
theorem unmentioned_kept_iff (b b' : ConfigBuilder) (file : Str) (bytes : Bytes) (key : Str) (w : Value)
    (hload : b.mergeFile file (.ok bytes) = .ok b') (hread : b.build.Sees key w)
    (hleaves : ∀ layer, document file bytes = some layer → layer.Leaves (path key)) :
    b'.build.Sees key w ↔ isBlankFile file bytes = false ∨ b.value = .null := by
  have hb : b.value.lookup (path key) = some w := sees_iff.mp hread
  rcases loads_of_mergeFile hload with ⟨hblank, rfl⟩ | ⟨hblank, layer, hdoc, rfl⟩
  · rw [hblank, sees_iff]
    constructor
    · intro hnull
      refine .inr ?_
      rw [lookup_null hnull] at hb hnull
      exact (Option.some.inj hb).trans (Option.some.inj hnull).symm
    · rintro (hsome | hnull)
      · cases hsome
      · rw [← hnull]
        exact hb
  · exact ⟨fun _ => .inl hblank, fun _ => sees_iff.mpr (lookup_merge_of_leaves (hleaves layer hdoc) hb)⟩

/-- A configuration with one key. -/
def sampleBuilder : ConfigBuilder := ⟨.object [("a".toList, .bool true)]⟩

theorem unmentioned_kept_yaml :
    ∃ b', sampleBuilder.mergeFile "c.yaml".toList (.ok (utf8 "b: 1\n".toList)) = .ok b' ∧ b'.build.Sees "a".toList (.bool true) := by
  refine ⟨_, rfl, (unmentioned_kept_iff sampleBuilder _ "c.yaml".toList (utf8 "b: 1\n".toList) "a".toList (.bool true) rfl
    (sees_iff.mpr rfl) ?_).mpr (.inl rfl)⟩
  intro layer hlayer
  cases hlayer
  exact Leaves.of_absent rfl rfl

/-- A YAML file with nothing but a comment erases it. -/
theorem comment_erases : ∃ b', sampleBuilder.mergeFile "c.yaml".toList (.ok (utf8 "# nothing\n".toList)) = .ok b' ∧
      sampleBuilder.build.Sees "a".toList (.bool true) ∧ ¬b'.build.Sees "a".toList (.bool true) := by
  refine ⟨_, rfl, sees_iff.mpr rfl, ?_⟩
  intro hsees
  cases sees_iff.mp hsees

end Ferroly.Config
