import Ferroly.Lemmas.TomlTable
import Mathlib.Logic.Relation

/-!
# TOML documents read back

A table is written over lines, headers and inline values, and reading rebuilds it by walking the document along the headers. What
comes back is the table without its null entries, with integers in canonical form and, within each object, the entries that stand
on lines before the subtables.
-/

namespace Ferroly.Toml

open List

/-- The text of a table is read back to the end. -/
theorem fromStr_tableText (D : F64Display) {o : Table} (h : TableRuns D o) :
    fromStr (tableText D o []) = .ok (.object (tableForm o)) := by
  obtain ⟨cur, hrun⟩ := h []
  exact hrun.fromStr

/-- A document of any table without bytes, NaN and null elements, with distinct keys and inline values nested at most `MAX_DEPTH`
deep reads back as that table: without null entries, with integers in canonical form, up to the order of keys. -/
theorem fromStr_encode_table (D : FloatDisplay binary64) (o : Table) (henc : isEncodable (.object o) = true)
    (hdeep : inlineShallow o = true) :
    ∃ w, fromStr (encode D (.object o)) = .ok w ∧ SameUpToKeyOrder (canonical (.object o)) w := by
  refine ⟨.object (tableForm o), ?_, sameUpToKeyOrder_tableForm⟩
  rw [encode_object]
  exact fromStr_tableText D (tableRuns D o henc hdeep)

/-- A table with a subtable before a line, an array of tables with a subtable of its own, a null, quoted keys and inline values. -/
def sampleTable : Table :=
  [("owner".toList, .object [("na.me".toList, .str "a\"\n".toList), ("gone".toList, .null)]), ("n".toList, .uint ⟨5, byte_fits 5⟩),
    ("items".toList, .array [.object [("id".toList, .int ⟨-1, by decide⟩), ("sub".toList, .object [([], .bool true)])],
      .object [("at".toList, .float (Flt.infinity binary64))]]),
    ("mixed".toList, .array [.array [], .object [("x".toList, .null), ("y".toList, .object [])], .float (Flt.ofInt binary64 3)])]

theorem fromStr_encode_sampleTable : isEncodable (.object sampleTable) = true ∧ inlineShallow sampleTable = true ∧
    ∃ w, fromStr (encode exactDisplay (.object sampleTable)) = .ok w ∧ SameUpToKeyOrder (canonical (.object sampleTable)) w :=
  ⟨by decide, by decide, fromStr_encode_table exactDisplay sampleTable (by decide) (by decide)⟩

/-! ## The current table -/

variable {n : Nat} {x y z : Doc × Parser}

/-- After every header and any lines, the path of the header leads to the place of the table that it designated: what is done to the
table that `resolve` returns is done there, and no error comes from the way to it. -/
theorem current_table (hn : n ≠ 0) (hheader : Turn n x y) (hlines : Relation.ReflTransGen (Turn 0) y z) :
    ∃ sp t u, Designates n x.1.root sp t ∧ y.1 = ⟨fill sp t, pathOf sp⟩ ∧ z.1 = ⟨fill sp u, pathOf sp⟩ ∧
      ∀ f, resolve f z.1.current z.1.root = (f u).map (fill sp) := by
  obtain ⟨sp, t, hsp, hy⟩ := hheader.header hn
  have hz : ∃ u, z.1 = ⟨fill sp u, pathOf sp⟩ := by
    induction hlines with
    | refl => exact ⟨t, hy⟩
    | tail _ hline ih =>
      obtain ⟨u, hu⟩ := ih
      exact hline.line hu
  obtain ⟨u, hu⟩ := hz
  refine ⟨sp, t, u, hsp, hy, hu, fun f => ?_⟩
  rw [hu]
  exact resolve_fill f sp u

theorem current_table_line : ∃ x y z, Turn 1 x y ∧ Turn 0 y z ∧ ∃ sp u, z.1 = ⟨fill sp u, pathOf sp⟩ := by
  have hy : Turn 1 (⟨[], []⟩, Parser.new "[a]\nb = true".toList) (⟨[("a".toList, .object [])], ["a".toList]⟩, ⟨utf8 "b = true".toList, 4⟩) :=
    ⟨_, rfl, rfl, rfl⟩
  have hz : Turn 0 (⟨[("a".toList, .object [])], ["a".toList]⟩, ⟨utf8 "b = true".toList, 4⟩)
      (⟨[("a".toList, .object [("b".toList, .bool true)])], ["a".toList]⟩, ⟨[], 12⟩) :=
    ⟨_, rfl, rfl, rfl⟩
  obtain ⟨sp, t, u, -, -, hu, -⟩ := current_table (by decide) hy (.single hz)
  exact ⟨_, _, _, hy, hz, sp, u, hu⟩

end Ferroly.Toml
