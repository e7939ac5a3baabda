import Ferroly.Lemmas.JsonDecode
import Ferroly.Lemmas.TypedRoundTrip

/-!
# The JSON codec

Documents and typed values survive the trip through JSON text, and the streaming paths do what the paths over trees do.
-/

namespace Ferroly.Json

/-! ## Documents -/

/-- A document is read back from its text exactly when it nests at most `MAX_DEPTH` deep, with the unsigned integers that fit an
`i64` as signed ones. -/
theorem fromStr_toString (D : FloatDisplay binary64) (v : Value) (hv : v.isPlain = true) :
    ((∃ w, fromStr (toString D v) = .ok w) ↔ v.depth ≤ 128) ∧ (v.depth ≤ 128 → fromStr (toString D v) = .ok v.norm) := by
  have h := fromStr_render D hv
  rw [← toString_eq_render, MAX_DEPTH] at h
  by_cases hd : v.depth ≤ 128
  · rw [if_pos hd] at h
    exact ⟨⟨fun _ => hd, fun _ => ⟨_, h⟩⟩, fun _ => h⟩
  · rw [if_neg hd] at h
    refine ⟨⟨?_, fun h' => absurd h' hd⟩, fun h' => absurd h' hd⟩
    rintro ⟨w, hw⟩
    rw [h] at hw
    cases hw

/-- A document with a repeated key, an astral character, a control character and all kinds of numbers. -/
def sampleDocument : Value :=
  .object [("k\x01\"".toList, .array [.int ⟨-7, by decide⟩, .uint ⟨7, byte_fits 7⟩, .uint ⟨2 ^ 63, by decide⟩, .null]),
    ("k\x01\"".toList, .array [.float (.ofCode binary64 true (1022 * 2 ^ 52)), .bool true, .str "a\\😀".toList, .object []])]

theorem fromStr_toString_sampleDocument : sampleDocument.isPlain = true ∧ sampleDocument.depth ≤ 128 ∧
      fromStr (toString exactDisplay sampleDocument) = .ok sampleDocument.norm := by
  have hp : sampleDocument.isPlain = true := by decide
  have hd : sampleDocument.depth ≤ 128 := by decide
  exact ⟨hp, hd, (fromStr_toString exactDisplay sampleDocument hp).2 hd⟩

/-! ## Streaming -/

/-- Streaming a value of any type writes what writing its tree does. -/
theorem encode_eq_toString (D : FloatDisplay binary64) (Γ : Env) (x : Data) : encode D Γ x = toString D (x.encode Γ) := by
  rw [encode_eq_render, toString_eq_render]

/-- What the streaming decoder accepts, the parser and the tree decoder accept with the same result; where no `Vec` is involved,
the converse holds too. -/
theorem decode_agrees_with_tree (Γ : Env) (t : Ty) (s : Str) :
    (∀ x, decode Γ t s = .ok x → ∃ v, fromStr s = .ok v ∧ Ferroly.decode Γ t v = .ok x) ∧ ((∀ u, ¬t.Reaches Γ (.vec u)) →
        ∀ v x, fromStr s = .ok v → Ferroly.decode Γ t v = .ok x → decode Γ t s = .ok x) := by
  constructor
  · intro x h
    obtain ⟨v, hv, hx⟩ := decode_eq_ok.mp h
    exact ⟨v, hv, decodeFuel_imp (.inr (.inl rfl)) (Nat.lt_succ_self _) hx⟩
  · intro hno v x hv hx
    have hd := depth_le_of_fromStr hv
    exact decode_eq_ok.mpr ⟨v, hv, decodeFuel_imp (.inr (.inr hno)) (Nat.lt_succ_of_le hd) hx⟩

theorem decode_agrees_with_tree_repeatedKey : (∃ v, fromStr "\x7b\"a\":1,\"a\":2\x7d".toList = .ok v ∧
      Ferroly.decode ⟨asciiCaseMap, fun _ => ⟨none, []⟩, fun _ => ⟨none, []⟩⟩ (.map (.scalar (.uint .u8))) v =
        .ok (.map [("a".toList, .uint ⟨2, by decide⟩)])) ∧
      decode ⟨asciiCaseMap, fun _ => ⟨none, []⟩, fun _ => ⟨none, []⟩⟩ (.map (.scalar (.uint .u8)))
        "\x7b\"a\":1,\"a\":2\x7d".toList = .ok (.map [("a".toList, .uint ⟨2, by decide⟩)]) := by
  have h := decode_agrees_with_tree ⟨asciiCaseMap, fun _ => ⟨none, []⟩, fun _ => ⟨none, []⟩⟩ (.map (.scalar (.uint .u8)))
    "\x7b\"a\":1,\"a\":2\x7d".toList
  have hno : ∀ u, ¬Ty.Reaches ⟨asciiCaseMap, fun _ => ⟨none, []⟩, fun _ => ⟨none, []⟩⟩ (.map (.scalar (.uint .u8))) (.vec u) := by
    intro u hu
    cases hu with
    | map hu => cases hu
  obtain ⟨hstream, hread, htree⟩ : decode ⟨asciiCaseMap, fun _ => ⟨none, []⟩, fun _ => ⟨none, []⟩⟩ (.map (.scalar (.uint .u8)))
          "\x7b\"a\":1,\"a\":2\x7d".toList = .ok (.map [("a".toList, .uint ⟨2, by decide⟩)]) ∧
        fromStr "\x7b\"a\":1,\"a\":2\x7d".toList =
          .ok (.object [("a".toList, .int ⟨1, by decide⟩), ("a".toList, .int ⟨2, by decide⟩)]) ∧
        Ferroly.decode ⟨asciiCaseMap, fun _ => ⟨none, []⟩, fun _ => ⟨none, []⟩⟩ (.map (.scalar (.uint .u8)))
          (.object [("a".toList, .int ⟨1, by decide⟩), ("a".toList, .int ⟨2, by decide⟩)]) =
          .ok (.map [("a".toList, .uint ⟨2, by decide⟩)]) := by decide +kernel
  exact ⟨h.1 _ hstream, h.2 hno _ _ hread htree⟩

/-! ## Typed values -/

/-- A value of a readable type is decoded from its own JSON text. -/
theorem decode_encode (D : FloatDisplay binary64) (Γ : Env) (t : Ty) (x : Data) (hx : HasType Γ t x)
    (ht : ∀ u, t.Reaches Γ u → u.IsReadable Γ) (hf : x.isFinite = true) (hd : x.depth ≤ 128) :
    decode Γ t (encode D Γ x) = .ok x := by
  have hdepth : (x.encode Γ).depth ≤ MAX_DEPTH := Nat.le_trans (x.depth_encode_le Γ) hd
  have hdoc := fromStr_render D (isPlain_encode hx ht hf)
  rw [if_pos hdepth] at hdoc
  rw [encode_eq_render]
  exact decode_eq_ok.mpr ⟨_, hdoc, decodeFuel_norm_encode hx ht (Nat.lt_succ_of_le hdepth)⟩

/-- A struct that contains itself, with a renamed field and an option that is left out, and an enum. -/
def sampleEnv : Env where
  cases := asciiCaseMap
  structs name :=
    if name = "Node" then
      ⟨some "camelCase", [⟨"node_name".toList, ⟨none, false⟩, .string, by decide⟩,
        ⟨"next".toList, ⟨none, true⟩, .option (.box (.struct "Node")), by decide⟩,
        ⟨"weights".toList, ⟨some "w".toList, false⟩, .map (.vec (.scalar .f32)), by decide⟩,
        ⟨"level".toList, ⟨none, false⟩, .enum "Level", by decide⟩]⟩
    else ⟨none, []⟩
  enums _ := ⟨some "lowercase", [⟨"High".toList, ⟨none, false⟩⟩, ⟨"Low".toList, ⟨none, false⟩⟩]⟩

/-- The types inside of `Node`. -/
def sampleTypes : List Ty :=
  [.struct "Node", .string, .option (.box (.struct "Node")), .box (.struct "Node"), .map (.vec (.scalar .f32)),
    .vec (.scalar .f32), .scalar .f32, .enum "Level"]

theorem sampleTypes_closed : ∀ t ∈ sampleTypes, ∀ u ∈ t.children sampleEnv, u ∈ sampleTypes := by
  decide

/-- The end of a chain of nodes. -/
def sampleLeaf : Data :=
  .struct "Node" [.str "leaf".toList, .none, .map [("x".toList, .vec [.f32 (.ofCode binary32 false (127 * 2 ^ 23)), .f32 (.ofCode binary32 true 1)])],
    .enum "Level" 1]

/-- A node that points to it. -/
def sampleNode : Data := .struct "Node" [.str "root".toList, .some (.boxed sampleLeaf), .map [], .enum "Level" 0]

theorem hasType_sampleLeaf : HasType sampleEnv (.struct "Node") sampleLeaf :=
  .struct_of (.cons (.string _) (.cons (.none _) (.cons (.map (by decide) (List.forall_mem_singleton.mpr
      (.vec (List.forall_mem_cons.mpr ⟨.f32 _, List.forall_mem_singleton.mpr (.f32 _)⟩))))
    (.cons (.enum (by decide)) .nil))))

theorem hasType_sampleNode : HasType sampleEnv (.struct "Node") sampleNode :=
  .struct_of (.cons (.string _) (.cons (.some (.boxed hasType_sampleLeaf))
    (.cons (.map (by decide) nofun) (.cons (.enum (by decide)) .nil))))

theorem decode_encode_sampleNode : decode sampleEnv (.struct "Node") (encode exactDisplay sampleEnv sampleNode) = .ok sampleNode := by
  have hread : ∀ u ∈ sampleTypes, u.IsReadable sampleEnv := by decide
  exact decode_encode exactDisplay sampleEnv (.struct "Node") sampleNode hasType_sampleNode
    (fun u hu => hread u (hu.mem_of_closed sampleTypes_closed (by decide))) (by decide) (by decide)

end Ferroly.Json
