import Ferroly.Lemmas.XmlProlog
import Ferroly.Lemmas.XmlTyped

/-!
# The XML codec

Which texts the parser returns on, and what it makes of the documents that the encoder writes.
-/

namespace Ferroly.Xml

open List

/-! ## Panics -/

/-- The parser returns a value or an error exactly on the texts in which every declaration and comment before the root element ends. -/
theorem fromStr_returns_iff (input : Str) :
    ((∃ v, fromStr input = .ok v) ∨ ∃ e, fromStr input = .error (.error e)) ↔ ¬OpenProlog input := by
  rcases fromStr_ends with ⟨hopen, hpanic⟩ | ⟨hclosed, hreturns⟩
  · rw [hpanic]
    refine ⟨fun h => ?_, fun h => absurd hopen h⟩
    rcases h with ⟨v, h⟩ | ⟨e, h⟩ <;> cases h
  · exact ⟨fun _ => hclosed, fun _ => hreturns⟩

/-- A declaration and a comment that do not end. -/
theorem open_prolog_panics : fromStr "<?".toList = .error .panic ∧ fromStr "<?xml version=\"1.0\"?>\n<!-- ".toList = .error .panic := by
  decide

/-! ## What is written and read back -/

/-- A struct is decoded from its document exactly if XML keeps its value. -/
theorem decode_encode_iff_isKept (D : FloatDisplay binary64) (Γ : Env) (name : String) (x : Data) (hx : Holds Γ (.struct name) x)
    (hheight : height (x.encode Γ) ≤ 128 + 1) : decode Γ (.struct name) (encode D Γ x) = .ok x ↔ isKept Γ x = true := by
  have hnames := keysAreNames_encode hx
  have hkept := decodeTy_read_iff D hx (Nat.le_refl (read D Γ x).depth)
  cases hx with
  | @struct name ds hne hk hn hl h =>
    rw [← hkept, decode, encode, Data.encode, fromStr_project D hnames (Nat.le_of_succ_le_succ hheight)]
    rfl

/-- A struct with a string, an option, a vector and a vector of vectors. -/
def configEnv : Env where
  cases := asciiCaseMap
  structs _ :=
    ⟨none, [⟨"name".toList, ⟨none, false⟩, .string, (by decide : false = true → _)⟩, ⟨"note".toList, ⟨none, true⟩, .option .string, by decide⟩,
      ⟨"tags".toList, ⟨none, false⟩, .vec .string, by decide⟩,
      ⟨"grid".toList, ⟨none, false⟩, .vec (.vec (.scalar (.int .i32))), by decide⟩]⟩
  enums _ := ⟨none, []⟩

/-- A value of it. -/
def config (name : Str) (note : Option Str) (tags : List Str) (grid : List (List I64)) : Data :=
  .struct "Config" [.str name, note.elim .none (fun s => .some (.str s)), .vec (tags.map .str),
    .vec (grid.map (fun row => .vec (row.map .int)))]

theorem holds_config (name : Str) (note : Option Str) (tags : List Str) {grid : List (List I64)}
    (h : ∀ row ∈ grid, ∀ i ∈ row, IntTy.i32.inRange i = true) : Holds configEnv (.struct "Config") (config name note tags grid) := by
  have hnote : Holds configEnv (.option .string) (note.elim .none (fun s => .some (.str s))) := by
    cases note with
    | none => exact .none _
    | some s => exact .some (.string s)
  have htags : Holds configEnv (.vec .string) (.vec (tags.map .str)) := .vec (forall_mem_map.mpr (fun s _ => .string s))
  have hgrid : Holds configEnv (.vec (.vec (.scalar (.int .i32)))) (.vec (grid.map (fun row => .vec (row.map .int)))) :=
    .vec (forall_mem_map.mpr (fun row hrow => .vec (forall_mem_map.mpr (fun i hi => .int (h row hrow i hi)))))
  refine .struct (cons_ne_nil _ _) (by decide) (by decide) rfl ?_
  intro p hp
  rcases mem_cons.mp hp with rfl | hp
  · exact .string name
  rcases mem_cons.mp hp with rfl | hp
  · exact hnote
  rcases mem_cons.mp hp with rfl | hp
  · exact htags
  rcases mem_cons.mp hp with rfl | hp
  · exact hgrid
  · exact absurd hp not_mem_nil

theorem decode_encode_config : decode configEnv (.struct "Config") (encode exactDisplay configEnv
    (config "api".toList none ["solo".toList] [[⟨1, by decide⟩], [⟨-2, by decide⟩]])) =
      .ok (config "api".toList none ["solo".toList] [[⟨1, by decide⟩], [⟨-2, by decide⟩]]) :=
  (decode_encode_iff_isKept exactDisplay configEnv "Config" _ (holds_config _ _ _ (by decide)) (by decide)).mpr (by decide)

/-- What XML does not keep: white space at the ends of a string, an empty string, an option of one, a vector of one, and where one
vector in a vector ends. -/
theorem decode_encode_config_loses : (∀ name note tags, ∀ grid ∈ [[], [[⟨1, by decide⟩, ⟨2, by decide⟩]]],
      Holds configEnv (.struct "Config") (config name note tags grid)) ∧
    decode configEnv (.struct "Config") (encode exactDisplay configEnv (config " api ".toList none [] [])) =
      .ok (config "api".toList none [] []) ∧
    decode configEnv (.struct "Config") (encode exactDisplay configEnv (config [] none [] [])) =
      .error (.error (.expected "string")) ∧
    decode configEnv (.struct "Config") (encode exactDisplay configEnv (config "api".toList (some []) [[]] [])) =
      .ok (config "api".toList none [] []) ∧
    decode configEnv (.struct "Config")
        (encode exactDisplay configEnv (config "api".toList none [] [[⟨1, by decide⟩, ⟨2, by decide⟩]])) =
      .ok (config "api".toList none [] [[⟨1, by decide⟩], [⟨2, by decide⟩]]) := by
  refine ⟨fun name note tags grid hgrid => holds_config name note tags ?_, by decide +kernel⟩
  have hrange : ∀ grid ∈ [[], [[⟨1, by decide⟩, ⟨2, by decide⟩]]], ∀ row ∈ grid, ∀ i ∈ row, IntTy.i32.inRange i = true := by decide
  exact hrange grid hgrid

end Ferroly.Xml
