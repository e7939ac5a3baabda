import Ferroly.Codec.YamlLines
import Ferroly.Lemmas.YamlRead

/-!
# The lines that a block takes

A block takes connected lines, each of which contributes to its value, and stops at a line that does not belong to them.
-/

namespace Ferroly.Yaml

open List Run

variable {a l : Line} {ds rest st : List Line} {indent : Nat} {block : Nat → Nat → P Value} {v : Value}

/-! ## Connected lines -/

theorem Follows.append_left {ys : List Line} (xs : List Line) (hne : ys ≠ []) (h : Follows ys l) : Follows (xs ++ ys) l := by
  rcases h with ⟨a, ha, hbare⟩ | ⟨us, a, vs, rfl, hcont, hvs⟩
  · refine .inl ⟨a, ?_, hbare⟩
    rw [getLast?_append_of_ne_nil _ hne]
    exact ha
  · exact .inr ⟨xs ++ us, a, vs, by simp, hcont, hvs⟩

theorem connected_singleton : Connected [l] := by
  intro ys m zs h hne
  obtain ⟨a, ys, rfl⟩ := exists_cons_of_ne_nil hne
  simp at h

/-- Lines after lines that the first of them belongs to. -/
theorem Connected.append {xs ys : List Line} (hxs : Connected xs) (hfollows : Follows xs l) (hys : Connected (l :: ys)) :
    Connected (xs ++ l :: ys) := by
  intro us m vs h hne
  rcases append_eq_append_iff.mp h with ⟨ws, rfl, hws⟩ | ⟨ws, rfl, hws⟩
  · cases ws with
    | nil =>
      cases hws
      rwa [append_nil]
    | cons w ws =>
      exact (hys (w :: ws) m vs hws (by simp)).append_left xs (by simp)
  · cases ws with
    | nil =>
      cases hws
      simpa using hfollows
    | cons w ws =>
      cases hws
      exact hxs us m ws rfl hne

/-- Nothing in the lines takes the line but, perhaps, the first of them. -/
theorem follows_cons (h : Follows (a :: ds) l) (hds : ds ≠ []) : Follows ds l ∨ Continues a l := by
  rcases h with ⟨b, hb, hbare⟩ | ⟨ys, b, zs, heq, hcont, hzs⟩
  · refine .inl (.inl ⟨b, ?_, hbare⟩)
    rwa [getLast?_cons_of_ne_nil hds] at hb
  · cases ys with
    | nil =>
      cases heq
      exact .inr hcont
    | cons y ys =>
      cases heq
      exact .inl (.inr ⟨ys, b, zs, rfl, hcont, hzs⟩)

theorem follows_singleton (h : Follows [a] l) : isBare a = true ∧ a.1 < l.1 ∨ Continues a l := by
  rcases h with ⟨b, hb, hbare⟩ | ⟨ys, b, zs, heq, hcont, hzs⟩
  · cases hb
    exact .inl hbare
  · cases ys with
    | nil =>
      cases heq
      exact .inr hcont
    | cons y ys => simp at heq

/-! ## Blocks -/

/-- The lines a block at an indentation takes off the front. -/
structure TakesBlock (indent : Nat) (cs rest : List Line) (v : Value) : Prop where
  nonempty : cs ≠ []
  yields : Yields cs v
  connected : Connected cs
  indented : ∀ b ∈ cs, indent ≤ b.1
  stops : ∀ l ∈ rest.head?, ¬Follows cs l

/-- A parser of blocks that start at their indentation. -/
def BlockParser (block : Nat → Nat → P Value) : Prop := ∀ indent depth content st v rest,
  block indent depth ((indent, content) :: st) = .ok (v, rest) → ∃ cs, (indent, content) :: st = cs ++ rest ∧ TakesBlock indent cs rest v

/-- What is below a line: nothing, or a block that is indented more. -/
structure TakesBelow (a : Line) (ds rest : List Line) : Prop where
  connected : Connected (a :: ds)
  indented : ∀ b ∈ ds, a.1 < b.1
  stops : ∀ l ∈ rest.head?, Follows (a :: ds) l → Continues a l

theorem TakesBelow.nil (h : ∀ l ∈ rest.head?, isBare a = true → l.1 ≤ a.1) : TakesBelow a [] rest where
  connected := connected_singleton
  indented b hb := absurd hb not_mem_nil
  stops l hl hfollows := by
    rcases follows_singleton hfollows with ⟨hbare, hlt⟩ | hcont
    · exact absurd hlt (Nat.not_lt.mpr (h l hl hbare))
    · exact hcont

theorem TakesBlock.below (h : TakesBlock indent (l :: ds) rest v) (hbare : isBare a = true) (hlt : a.1 < indent) :
    TakesBelow a (l :: ds) rest where
  connected := by
    refine connected_singleton.append (.inl ⟨a, rfl, hbare, ?_⟩) h.connected
    exact hlt.trans_le (h.indented l mem_cons_self)
  indented b hb := hlt.trans_le (h.indented b hb)
  stops m hm hfollows := by
    rcases follows_cons hfollows (cons_ne_nil l ds) with hfollows | hcont
    · exact absurd hfollows (h.stops m hm)
    · exact hcont

/-- The value below a bare line. -/
theorem parseChild_takes (hblock : BlockParser block) (hbare : isBare a = true) {depth : Nat}
    (h : parseChild block a.1 depth st = .ok (v, rest)) : ∃ ds, st = ds ++ rest ∧ Yields ds v ∧ TakesBelow a ds rest := by
  cases st with
  | nil =>
    cases h
    exact ⟨[], rfl, .nothing, .nil (by simp)⟩
  | cons l st =>
    obtain ⟨n, content⟩ := l
    have hstep : parseChild block a.1 depth ((n, content) :: st) =
        (if n > a.1 then block n (depth + 1) else pure .null : P Value) ((n, content) :: st) := rfl
    rw [hstep] at h
    by_cases hlt : n > a.1
    · rw [if_pos hlt] at h
      obtain ⟨cs, hcs, htakes⟩ := hblock _ _ _ _ _ _ h
      obtain ⟨l, ds, rfl⟩ := exists_cons_of_ne_nil htakes.nonempty
      exact ⟨l :: ds, hcs, htakes.yields, htakes.below hbare hlt⟩
    · rw [if_neg hlt] at h
      cases h
      refine ⟨[], rfl, .nothing, .nil ?_⟩
      intro l hl _
      cases hl
      exact Nat.not_lt.mp hlt

/-! ## Lines of a block -/

/-- A line that a block of a kind takes as one of its own. -/
def IsOwn (dash : Bool) (indent : Nat) (l : Line) : Prop := l.1 = indent ∧ isDash l.2 = dash ∧ (dash = true ∨ (mappingKey l.2).isSome = true)

theorem IsOwn.continues_iff {dash : Bool} (h : IsOwn dash indent a) : Continues a l ↔ indent ≤ l.1 ∧ isDash l.2 = dash := by
  obtain ⟨rfl, rfl, hkey⟩ := h
  rw [Continues]
  cases hdash : isDash a.2 with
  | true => rw [if_pos rfl]
  | false =>
    rw [hdash] at hkey
    rw [if_neg Bool.false_ne_true]
    simp only [Bool.false_eq_true, false_or] at hkey
    rw [and_iff_right hkey]

/-- A parser of the lines of one kind at an indentation: it reads one element off a line and those below it. -/
def LineParser {α : Type} (dash : Bool) (indent : Nat) (line : Str → P α) (Q : List Line → List α → Prop) : Prop :=
  ∀ content st x rest, isDash content = dash → line content ((indent, content) :: st) = .ok (x, rest) →
    IsOwn dash indent (indent, content) ∧ ∃ ds, st = ds ++ rest ∧ TakesBelow (indent, content) ds rest ∧
      ∀ ms xs, Q ms xs → Q ((indent, content) :: (ds ++ ms)) (x :: xs)

theorem parseEntry_takes (hblock : BlockParser block) (indent depth : Nat) :
    LineParser false indent (parseEntry block indent depth) YieldsEntries := by
  intro content st e rest hdash h
  rw [parseEntry] at h
  cases hkey : mappingKey content with
  | none =>
    rw [hkey] at h
    cases h
  | some p =>
    obtain ⟨key, text⟩ := p
    rw [hkey] at h
    have hstep : (do
        advance
        if text = [] then
          let v ← parseChild block indent depth
          pure (key, v)
        else pure (key, parseScalar text) : P (Str × Value)) ((indent, content) :: st) =
        (if text = [] then parseChild block indent depth >>= fun v => pure (key, v) else pure (key, parseScalar text) : P (Str × Value)) st := rfl
    replace h := hstep.symm.trans h
    refine ⟨⟨rfl, hdash, .inr (by rw [hkey]; rfl)⟩, ?_⟩
    by_cases htext : text = []
    · rw [if_pos htext] at h
      obtain ⟨v, st', hchild, h⟩ := bind_eq_ok.mp h
      cases h
      have hbare : isBare (indent, content) = true := by
        rw [isBare, if_neg (by simp [hdash]), hkey, htext]
        rfl
      obtain ⟨ds, hds, hyields, htakes⟩ := parseChild_takes hblock (a := (indent, content)) hbare hchild
      refine ⟨ds, hds, htakes, ?_⟩
      intro ms es hes
      exact .nested (htext ▸ hkey) hyields hes
    · rw [if_neg htext] at h
      cases h
      refine ⟨[], rfl, .nil ?_, fun ms es hes => .inline hkey htext hes⟩
      intro l _ hbare
      rw [isBare, if_neg (by simp [hdash]), hkey] at hbare
      simp at hbare
      exact absurd hbare htext

theorem parseItem_takes (hblock : BlockParser block) (indent depth : Nat) :
    LineParser true indent (parseItem block indent depth) YieldsItems := by
  intro content st v rest hdash h
  refine ⟨⟨rfl, hdash, .inl rfl⟩, ?_⟩
  by_cases hafter : trimStart content.tail = []
  · have hstep : parseItem block indent depth content ((indent, content) :: st) = parseChild block indent depth st := by
      rw [parseItem]
      simp only [if_pos hafter]
      rfl
    rw [hstep] at h
    have hbare : isBare (indent, content) = true := by
      rw [isBare, if_pos hdash]
      exact decide_eq_true hafter
    obtain ⟨ds, hds, hyields, htakes⟩ := parseChild_takes hblock (a := (indent, content)) hbare h
    refine ⟨ds, hds, htakes, ?_⟩
    intro ms vs hvs
    exact .nested hdash hafter hyields hvs
  · have hnotBare : isBare (indent, content) = false := by
      rw [isBare, if_pos hdash]
      exact decide_eq_false hafter
    have hbelow : TakesBelow (indent, content) [] st := .nil (fun l _ hbare => by
      rw [hnotBare] at hbare
      cases hbare)
    rw [parseItem] at h
    simp only [if_neg hafter] at h
    cases hkey : mappingKey (trimStart content.tail) with
    | none =>
      rw [hkey] at h
      cases h
      exact ⟨[], rfl, hbelow, fun ms vs hvs => .inline hdash hvs⟩
    | some p =>
      obtain ⟨key, text⟩ := p
      rw [hkey] at h
      cases h
      exact ⟨[], rfl, hbelow, fun ms vs hvs => .entry hdash hkey hvs⟩

/-! ## The loop over the lines of a block -/

/-- The lines a block has taken so far, before a line. -/
structure Within (dash : Bool) (indent : Nat) (ds rest : List Line) : Prop where
  connected : Connected ds
  first : ∃ a es, ds = a :: es ∧ IsOwn dash indent a
  inside : ∀ b ∈ ds, indent < b.1 ∨ IsOwn dash indent b
  stops : ∀ l ∈ rest.head?, Follows ds l → indent ≤ l.1 ∧ isDash l.2 = dash

section Loop

variable {α : Type} {dash : Bool}

theorem Within.indented (h : Within dash indent ds rest) : ∀ b ∈ ds, indent ≤ b.1 := by
  intro b hb
  rcases h.inside b hb with hlt | hown
  · exact hlt.le
  · exact hown.1.ge

/-- The first line of a block, with what is below it. -/
theorem Within.of_below {es : List Line} (hown : IsOwn dash indent a) (h : TakesBelow a es rest) :
    Within dash indent (a :: es) rest where
  connected := h.connected
  first := ⟨a, es, rfl, hown⟩
  inside b hb := by
    rcases mem_cons.mp hb with rfl | hb
    · exact .inr hown
    · exact .inl (hown.1 ▸ h.indented b hb)
  stops l hl hfollows := hown.continues_iff.mp (h.stops l hl hfollows)

/-- The next line of a block, with what is below it. -/
theorem Within.append {es : List Line} (h : Within dash indent ds st) (hown : IsOwn dash indent a) (hbelow : TakesBelow a es rest) :
    Within dash indent (ds ++ a :: es) rest where
  connected := by
    obtain ⟨b, bs, rfl, hb⟩ := h.first
    refine h.connected.append (.inr ⟨[], b, bs, rfl, hb.continues_iff.mpr ⟨hown.1.ge, hown.2.1⟩, ?_⟩) hbelow.connected
    intro c hc
    rw [hb.1]
    exact h.indented c (mem_cons_of_mem b hc)
  first := by
    obtain ⟨b, bs, rfl, hb⟩ := h.first
    exact ⟨b, bs ++ a :: es, rfl, hb⟩
  inside b hb := by
    rcases mem_append.mp hb with hb | hb
    · exact h.inside b hb
    · exact (Within.of_below hown hbelow).inside b hb
  stops l hl hfollows := by
    have hlast := (Within.of_below hown hbelow).stops l hl
    rcases hfollows with ⟨c, hc, hbare⟩ | ⟨ys, c, zs, heq, hcont, hzs⟩
    · refine hlast (.inl ⟨c, ?_, hbare⟩)
      rwa [getLast?_append_of_ne_nil _ (cons_ne_nil a es)] at hc
    · rcases append_eq_append_iff.mp heq with ⟨ws, rfl, hws⟩ | ⟨ws, rfl, hws⟩
      · exact hlast (.inr ⟨ws, c, zs, hws, hcont, hzs⟩)
      · cases ws with
        | nil => exact hlast (.inr ⟨[], c, zs, hws.symm, hcont, hzs⟩)
        | cons w ws =>
          -- the line that takes it is an earlier one, which stands at the indentation of the block
          cases hws
          have hle : c.1 ≤ a.1 := hzs a (by simp)
          rcases h.inside c (by simp) with hlt | hc
          · rw [hown.1] at hle
            omega
          · exact hc.continues_iff.mp hcont

variable {line : Str → P α} {Q : List Line → List α → Prop}

theorem linesLoop_takes {message : String} (hline : LineParser dash indent line Q) (hnil : Q [] []) {fuel : Nat} {acc xs : List α}
    (hds : Within dash indent ds st) (h : linesLoop dash message line indent fuel acc st = .ok (xs, rest)) :
    ∃ cs ys, st = cs ++ rest ∧ xs = acc ++ ys ∧ Q cs ys ∧ Within dash indent (ds ++ cs) rest ∧ ∀ l ∈ rest.head?, ¬Follows (ds ++ cs) l := by
  induction fuel generalizing acc ds st with
  | zero => cases h
  | succ fuel ih =>
    rw [linesLoop_succ] at h
    cases st with
    | nil =>
      cases h
      exact ⟨[], [], rfl, by simp, hnil, by simpa using hds, by simp⟩
    | cons l st =>
      obtain ⟨ind, content⟩ := l
      simp only at h
      split_ifs at h with hstop hdeep
      · cases h
        refine ⟨[], [], rfl, by simp, hnil, by simpa using hds, ?_⟩
        intro l hl hfollows
        cases hl
        rw [append_nil] at hfollows
        obtain ⟨hle, hdash⟩ := hds.stops _ rfl hfollows
        rcases hstop with hlt | hne
        · exact absurd hlt (Nat.not_lt.mpr hle)
        · exact hne hdash
      · obtain ⟨hge, hdash⟩ := not_or.mp hstop
        obtain rfl : ind = indent := by omega
        obtain ⟨x, st₁, hx, hloop⟩ := bind_eq_ok.mp h
        obtain ⟨hown, es, rfl, hbelow, hQ⟩ := hline content st x st₁ (not_not.mp hdash) hx
        obtain ⟨cs, ys, rfl, rfl, hcs, hwithin, hstops⟩ := ih (hds.append hown hbelow) hloop
        refine ⟨(ind, content) :: (es ++ cs), x :: ys, by simp, by simp, hQ cs ys hcs, ?_, ?_⟩
        · simpa using hwithin
        · simpa using hstops

/-- A block that starts with a line of its kind. -/
theorem linesLoop_block {message : String} (hline : LineParser dash indent line Q) (hnil : Q [] []) {fuel : Nat} {xs : List α}
    {content : Str} (hdash : isDash content = dash)
    (h : linesLoop dash message line indent (fuel + 1) [] ((indent, content) :: st) = .ok (xs, rest)) :
    ∃ cs, (indent, content) :: st = cs ++ rest ∧ Q cs xs ∧ Within dash indent cs rest ∧ ∀ l ∈ rest.head?, ¬Follows cs l := by
  rw [linesLoop_succ] at h
  simp only [Nat.lt_irrefl, hdash, ne_eq] at h
  obtain ⟨x, st₁, hx, hloop⟩ := bind_eq_ok.mp h
  obtain ⟨hown, es, rfl, hbelow, hQ⟩ := hline content st x st₁ hdash hx
  obtain ⟨cs, ys, rfl, rfl, hcs, hwithin, hstops⟩ := linesLoop_takes hline hnil (.of_below hown hbelow) hloop
  exact ⟨(indent, content) :: (es ++ cs), by simp, hQ cs ys hcs, hwithin, hstops⟩

end Loop

/-! ## Blocks of every kind -/

theorem Within.takesBlock {dash : Bool} {cs : List Line} (h : Within dash indent cs rest) (hyields : Yields cs v)
    (hstops : ∀ l ∈ rest.head?, ¬Follows cs l) : TakesBlock indent cs rest v where
  nonempty := by
    obtain ⟨a, es, rfl, -⟩ := h.first
    exact cons_ne_nil a es
  yields := hyields
  connected := h.connected
  indented := h.indented
  stops := hstops

theorem takesBlock_scalar {content : Str} (hdash : isDash content = false) (hkey : mappingKey content = none) :
    TakesBlock indent [(indent, content)] rest (parseScalar content) where
  nonempty := cons_ne_nil _ _
  yields := .scalar indent content
  connected := connected_singleton
  indented b hb := by
    rw [mem_singleton.mp hb]
  stops l _ hfollows := by
    rcases follows_singleton hfollows with ⟨hbare, -⟩ | ⟨-, hcont⟩
    · simp [isBare, hdash, hkey] at hbare
    · simp [hdash, hkey] at hcont

theorem parseBlockFuel_takes (fuel : Nat) : BlockParser (parseBlockFuel fuel) := by
  induction fuel with
  | zero =>
    intro indent depth content st v rest h
    cases h
  | succ fuel ih =>
    intro indent depth content st v rest h
    by_cases hdepth : depth ≤ MAX_DEPTH
    · rw [parseBlockFuel_cons hdepth] at h
      split_ifs at h with hdash hkey
      · obtain ⟨vs, st', hloop, h⟩ := bind_eq_ok.mp (parseSequence_eq ▸ h)
        cases h
        obtain ⟨cs, hcs, hQ, hwithin, hstops⟩ := linesLoop_block (parseItem_takes ih indent depth) .nil hdash hloop
        exact ⟨cs, hcs, hwithin.takesBlock (.sequence hQ) hstops⟩
      · obtain ⟨es, st', hloop, h⟩ := bind_eq_ok.mp (parseMapping_eq ▸ h)
        cases h
        have hnot : isDash content = false := Bool.not_eq_true _ ▸ hdash
        obtain ⟨cs, hcs, hQ, hwithin, hstops⟩ := linesLoop_block (parseEntry_takes ih indent depth) .nil hnot hloop
        exact ⟨cs, hcs, hwithin.takesBlock (.mapping hQ) hstops⟩
      · cases h
        refine ⟨[(indent, content)], rfl, takesBlock_scalar (Bool.not_eq_true _ ▸ hdash) ?_⟩
        exact Option.not_isSome_iff_eq_none.mp hkey
    · rw [parseBlockFuel, if_pos (by omega)] at h
      cases h

/-- What the parser has taken when it returns, and what is left. -/
theorem fromStr_takes {input : Str} (h : fromStr input = .ok v) :
    ∃ cs, preprocess input = cs ++ leftover input ∧ Yields cs v ∧ Connected cs ∧ (cs = [] → leftover input = []) ∧
      ∀ l ∈ (leftover input).head?, ¬Follows cs l := by
  rw [fromStr] at h
  rw [leftover]
  cases hlines : preprocess input with
  | nil =>
    rw [hlines] at h
    cases h
    refine ⟨[], rfl, .nothing, ?_, fun _ => rfl, by simp⟩
    intro ys l zs heq
    simp at heq
  | cons l ls =>
    obtain ⟨base, content⟩ := l
    rw [hlines] at h
    dsimp only at h ⊢
    cases hparse : parseBlockFuel (MAX_DEPTH + 2) base 0 ((base, content) :: ls) with
    | error e =>
      rw [hparse] at h
      cases h
    | ok p =>
      obtain ⟨w, rest⟩ := p
      rw [hparse] at h
      cases h
      obtain ⟨cs, hcs, htakes⟩ := parseBlockFuel_takes _ base 0 content ls v rest hparse
      exact ⟨cs, hcs, htakes.yields, htakes.connected, fun hnil => absurd hnil htakes.nonempty, htakes.stops⟩

end Ferroly.Yaml
