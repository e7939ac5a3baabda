import Ferroly.Lemmas.TomlTree

/-!
# The current table of a TOML document

A document is read with the path of its last header. That path stands for a place in the tree: the entries on the way to a table, with
what comes before and after each. A header comes to a place, and a line changes the table there and nothing around it.
-/

namespace Ferroly.Toml

open List Run

variable {path : List Str} {k : Str} {t u root : Table} {v : Value} {f : Table → Except CodecError Table}

/-! ## Places -/

/-- The document with a table at a place. -/
def fill (sp : List Spot) (t : Table) : Table := sp.foldr Spot.plug t

/-- The path of a place. -/
def pathOf (sp : List Spot) : List Str := sp.map (fun s => s.key)

/-- The path of a place leads to the table there. -/
theorem resolve_fill (f : Table → Except CodecError Table) (sp : List Spot) (t : Table) :
    resolve f (pathOf sp) (fill sp t) = (f t).map (fill sp) := by
  induction sp with
  | nil => cases hf : f t <;> exact hf
  | cons s sp ih =>
    refine (resolve_spot f s (pathOf sp) (fill sp t)).trans ?_
    rw [ih, exceptMap_map]
    rfl

/-- The first entry of a table with a key. -/
theorem exists_entry (h : k ∈ t.map Prod.fst) : ∃ before v after, t = before ++ (k, v) :: after ∧ k ∉ before.map Prod.fst := by
  obtain ⟨as, bs, hmap, hnot⟩ := eq_append_cons_of_mem h
  obtain ⟨before, rest, rfl, rfl, hrest⟩ := map_eq_append_iff.mp hmap
  obtain ⟨⟨_, v⟩, after, rfl, rfl, rfl⟩ := map_eq_cons_iff.mp hrest
  exact ⟨before, v, after, rfl, hnot⟩

/-- A value that is descended into holds a table, itself or last in an array. -/
theorem descend_ok {seg : Str} {w : Value} (h : descend f v seg = .ok w) :
    ∃ items o, ∀ fr : Frame, fr.items = items → v = fr.value o := by
  unfold descend at h
  split at h
  · next o => exact ⟨none, o, fun fr hfr => by rw [Frame.value, hfr]⟩
  · next a =>
    split at h
    · next o hlast =>
      refine ⟨some a.dropLast, o, fun fr hfr => ?_⟩
      rw [Frame.value, hfr]
      exact congrArg Value.array (dropLast_append_getLast? _ hlast).symm
    · cases h
  · cases h

/-- A segment of a path leads to a spot, of an entry that is there or of a new table. -/
theorem getOrCreate_cons (h : getOrCreate f (k :: path) root = .ok t) :
    ∃ (s : Spot) (o : Table), s.key = k ∧ ∀ g, getOrCreate g (k :: path) root = (getOrCreate g path o).map s.plug := by
  by_cases hmem : k ∈ root.map Prod.fst
  · obtain ⟨before, v, after, rfl, hfresh⟩ := exists_entry hmem
    rw [getOrCreate, position_at hfresh] at h
    simp only [modifyEntry_at] at h
    obtain ⟨w, hw, -⟩ := map_eq_ok.mp h
    obtain ⟨items, o, hv⟩ := descend_ok hw
    refine ⟨⟨⟨before, k, items, hfresh⟩, after⟩, o, rfl, fun g => ?_⟩
    rw [hv ⟨before, k, items, hfresh⟩ rfl]
    exact getOrCreate_spot g ⟨⟨before, k, items, hfresh⟩, after⟩ path o
  · exact ⟨⟨Frame.table root k hmem, []⟩, [], rfl, fun g => getOrCreate_new g hmem⟩

/-- The path of a place leads from the root to a table, by way of the tables that are there and of new ones. -/
def Leads (root : Table) (sp : List Spot) (t : Table) : Prop := ∀ f, getOrCreate f (pathOf sp) root = (f t).map (fill sp)

/-- A path that can be followed leads to a place. -/
theorem exists_leads (h : getOrCreate f path root = .ok t) : ∃ sp o, pathOf sp = path ∧ Leads root sp o := by
  induction path generalizing root t with
  | nil => exact ⟨[], root, rfl, fun f => by cases hf : f root <;> exact hf⟩
  | cons k path ih =>
    obtain ⟨s, o, rfl, hs⟩ := getOrCreate_cons h
    rw [hs] at h
    obtain ⟨t, ht, -⟩ := map_eq_ok.mp h
    obtain ⟨sp, o, rfl, hsp⟩ := ih ht
    refine ⟨s :: sp, o, rfl, fun g => ?_⟩
    refine (hs g).trans ?_
    rw [hsp, exceptMap_map]
    rfl

/-- A new table is the last element of the array of its key. -/
theorem pushTable_ok (h : pushTable k t = .ok u) : ∃ s : Spot, s.key = k ∧ s.items.isSome = true ∧ u = s.plug [] := by
  by_cases hmem : k ∈ t.map Prod.fst
  · obtain ⟨before, v, after, rfl, hfresh⟩ := exists_entry hmem
    cases v with
    | array a => exact ⟨⟨Frame.element before k a hfresh, after⟩, rfl, rfl, Except.ok.inj (h.symm.trans (pushTable_next hfresh))⟩
    | _ =>
      rw [pushTable, position_at hfresh] at h
      simp only [getElem?_append_right (Nat.le_refl _), Nat.sub_self, modifyEntry_at] at h
      cases h
  · exact ⟨⟨Frame.element t k [] hmem, []⟩, rfl, rfl, Except.ok.inj (h.symm.trans (pushTable_first hmem))⟩

/-! ## Turns of the loop -/

/-- How many brackets a statement opens with: none for a line, one for a table, two for an element of an array of tables. -/
def brackets (bs : Bytes) : Nat :=
  if bs.head? = some (byte '[') then if (bs.drop 1).head? = some (byte '[') then 2 else 1 else 0

/-- What a statement with so many brackets does to the document. -/
def Effect (doc doc' : Doc) : Nat → Prop
  | 0 => doc'.current = doc.current ∧ ∃ keypath val, resolve (setNested keypath val) doc.current doc.root = .ok doc'.root
  | 1 => getOrCreate .ok doc'.current doc.root = .ok doc'.root
  | _ => appendArrayTable doc'.current doc.root = .ok doc'.root

theorem statement_effect {doc doc' : Doc} {p q : Parser} (h : statement doc p = .ok (doc', q)) : Effect doc doc' (brackets p.rest) := by
  unfold brackets
  obtain ⟨_, _, ⟨⟩, h⟩ := Run.bind_eq_ok.mp h
  rw [Run.ite_apply] at h
  split at h
  · rw [if_pos ‹_›]
    obtain ⟨_, _, ⟨⟩, h⟩ := bind_eq_ok.mp h
    obtain ⟨_, _, ⟨⟩, h⟩ := bind_eq_ok.mp h
    rw [Run.ite_apply] at h
    split at h
    · rw [if_pos ‹_›]
      simp only [bind_eq_ok, lift_eq_ok] at h
      obtain ⟨_, _, -, _, _, -, _, _, -, _, _, -, _, _, ⟨hroot, -⟩, _, _, -, ⟨⟩⟩ := h
      exact hroot
    · rw [if_neg ‹_›]
      simp only [bind_eq_ok, lift_eq_ok] at h
      obtain ⟨_, _, -, _, _, -, _, _, ⟨hroot, -⟩, _, _, -, ⟨⟩⟩ := h
      exact hroot
  · rw [if_neg ‹_›]
    simp only [bind_eq_ok, lift_eq_ok] at h
    obtain ⟨_, _, -, _, _, -, _, _, -, _, _, -, _, _, -, _, _, ⟨hroot, -⟩, _, _, -, ⟨⟩⟩ := h
    exact ⟨rfl, _, _, hroot⟩

/-- One turn of the loop of `parse`, over a statement with `n` brackets. -/
def Turn (n : Nat) (x y : Doc × Parser) : Prop :=
  ∃ p, skipWsNlComments x.2 = .ok ((), p) ∧ brackets p.rest = n ∧ statement x.1 p = .ok y

variable {n : Nat} {x y : Doc × Parser} {sp : List Spot}

theorem Turn.effect (h : Turn n x y) : Effect x.1 y.1 n := by
  obtain ⟨p, -, rfl, h⟩ := h
  exact statement_effect h

/-- The table that a header designates: the one that its path leads to, or a new last element of an array of tables in that one. -/
def Designates (n : Nat) (root : Table) (sp : List Spot) (t : Table) : Prop :=
  match n with
  | 1 => Leads root sp t
  | _ => t = [] ∧ ∃ outer s o, sp = outer ++ [s] ∧ Leads root outer o ∧ s.items.isSome = true ∧ pushTable s.key o = .ok (s.plug t)

/-- A header comes to the place of the table that it designates. -/
theorem Turn.header (hn : n ≠ 0) (h : Turn n x y) : ∃ sp t, Designates n x.1.root sp t ∧ y.1 = ⟨fill sp t, pathOf sp⟩ := by
  rcases n with _ | _ | n
  · exact absurd rfl hn
  · have h : getOrCreate .ok y.1.current x.1.root = .ok y.1.root := h.effect
    obtain ⟨sp, t, hpath, hsp⟩ := exists_leads h
    refine ⟨sp, t, hsp, ?_⟩
    rw [← hpath, hsp] at h
    exact congrArg₂ Doc.mk (Except.ok.inj h).symm hpath.symm
  · have h : appendArrayTable y.1.current x.1.root = .ok y.1.root := h.effect
    rcases eq_nil_or_concat' y.1.current with hnil | ⟨path, k, hpath⟩
    · rw [hnil] at h
      cases h
    rw [hpath, appendArrayTable_snoc] at h
    obtain ⟨sp, o, rfl, hsp⟩ := exists_leads h
    rw [hsp] at h
    obtain ⟨u, hu, hroot⟩ := map_eq_ok.mp h
    obtain ⟨s, rfl, hs, rfl⟩ := pushTable_ok hu
    refine ⟨sp ++ [s], [], ⟨rfl, sp, s, o, rfl, hsp, hs, hu⟩, ?_⟩
    rw [fill, foldr_append, pathOf, map_append]
    exact congrArg₂ Doc.mk hroot.symm hpath

/-- A line changes only the table at the current place. -/
theorem Turn.line (h : Turn 0 x y) (hx : x.1 = ⟨fill sp t, pathOf sp⟩) : ∃ u, y.1 = ⟨fill sp u, pathOf sp⟩ := by
  obtain ⟨hcurrent, keypath, val, h⟩ := h.effect
  rw [hx] at hcurrent h
  rw [resolve_fill] at h
  obtain ⟨u, -, hu⟩ := map_eq_ok.mp h
  exact ⟨u, congrArg₂ Doc.mk hu.symm hcurrent⟩

end Ferroly.Toml
