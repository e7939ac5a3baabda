import Ferroly.Codec.XmlSpec
import Ferroly.Lib.Utf8Scan

/-!
# Reading the elements of an XML document

A document as a tree: an element has a tag, text and children after the text. The parser reads the text of a tree as what the tree
stands for. The loop over the content of an element is followed piece by piece, each piece leaving the loop where the rest begins
and with fuel for it.
-/

namespace Ferroly

open List Run

namespace Xml

/-! ## Elements as a tree -/

/-- An element: its tag, its text and its children. -/
inductive Node where
  | node (tag text : Str) (children : List Node)

namespace Node

def tag : Node → Str
  | .node tag _ _ => tag

/-- Induction over a tree: an element from its children. -/
@[elab_as_elim] theorem ind {P : Node → Prop} (node : ∀ tag text children, (∀ n ∈ children, P n) → P (.node tag text children))
    (n : Node) : P n :=
  @Node.rec P (fun ns => ∀ n ∈ ns, P n) (fun tag text children ih => node tag text children ih) nofun
    (fun _ _ hn hns _ hm => (mem_cons.mp hm).elim (fun e => e ▸ hn) (hns _)) n

end Node

/-- The text of a character in an element. -/
def escapeChar (c : Char) : Str := (escapeOf c).getD [c]

mutual

/-- The text of an element. -/
def Node.render : Node → Str
  | .node tag text children =>
    '<' :: (tag ++ '>' :: (text.flatMap escapeChar ++ (renderAll children ++ '<' :: '/' :: (tag ++ ['>']))))

def renderAll : List Node → Str
  | [] => []
  | n :: ns => n.render ++ renderAll ns

end

mutual

/-- What an element stands for. -/
def Node.value : Node → Value
  | .node _ text children => content ((childValues children).foldl (fun acc e => pushChild acc e.1 e.2) []) text

/-- The children of an element with their tags. -/
def childValues : List Node → List (Str × Value)
  | [] => []
  | n :: ns => (n.tag, n.value) :: childValues ns

end

mutual

/-- The levels of an element. -/
def Node.levels : Node → Nat
  | .node _ _ children => childLevels children + 1

def childLevels : List Node → Nat
  | [] => 0
  | n :: ns => max n.levels (childLevels ns)

end

mutual

/-- All tags are names. -/
def Node.named : Node → Bool
  | .node tag _ children => isName tag && allNamed children

def allNamed : List Node → Bool
  | [] => true
  | n :: ns => n.named && allNamed ns

end

theorem childLevels_le {ns : List Node} {k : Nat} : childLevels ns ≤ k ↔ ∀ n ∈ ns, n.levels ≤ k := by
  induction ns with
  | nil => simp [childLevels]
  | cons n ns ih => simp [childLevels, ih]

theorem allNamed_iff {ns : List Node} : allNamed ns = true ↔ ∀ n ∈ ns, n.named = true := by
  induction ns with
  | nil => simp [allNamed]
  | cons n ns ih => simp [allNamed, ih]

theorem Node.levels_pos (n : Node) : 0 < n.levels := by
  cases n
  exact Nat.succ_pos _

/-! ## Tokens -/

theorem isNameByte_of_isName {k : Str} (h : isName k = true) : ∀ b ∈ utf8 k, isNameByte b = true := by
  simp only [isName, Bool.and_eq_true, all_eq_true] at h
  exact h.2

theorem isName_cons {k : Str} (h : isName k = true) : ∃ b r, utf8 k = b :: r ∧ isNameByte b = true := by
  have hall := isNameByte_of_isName h
  cases k with
  | nil => cases h
  | cons c k =>
    obtain ⟨x, l, hx⟩ := exists_cons_of_ne_nil (String.utf8EncodeChar_ne_nil (c := c))
    have hbytes : utf8 (c :: k) = x :: (l ++ utf8 k) := by rw [utf8_cons, hx, cons_append]
    exact ⟨x, _, hbytes, hall x (by rw [hbytes]; exact mem_cons_self)⟩

theorem readName_apply {k : Str} (hk : isName k = true) {b : UInt8} (hb : isNameByte b = false) (r : Bytes) (d : Nat) :
    readName ⟨utf8 k ++ b :: r, false, d⟩ = .ok (k, ⟨b :: r, false, d⟩) := by
  have hall := isNameByte_of_isName hk
  obtain ⟨x, l, hx, -⟩ := isName_cons hk
  have htake : takeWhile isNameByte ⟨utf8 k ++ b :: r, false, d⟩ = .ok (utf8 k, ⟨b :: r, false, d⟩) := by
    rw [takeWhile, takeWhile_append_of_pos hall, dropWhile_append_of_pos hall,
      takeWhile_cons_of_neg (by simp [hb]), dropWhile_cons_of_neg (by simp [hb]), append_nil]
  rw [readName, bind_of_ok htake, if_neg (by rw [hx]; exact cons_ne_nil _ _), slice, fromUtf8_utf8]
  rfl

/-- At the start tag of an element there is nothing but that. -/
theorem startsWith_tag {x : UInt8} (hx : isNameByte x = true) {c : Char} (hc : c.toNat < 0x80) (hname : isNameByte (byte c) = false)
    {s t : Str} (hs : s = '<' :: c :: t) (r : Bytes) (d : Nat) :
    startsWith s ⟨byte '<' :: x :: r, false, d⟩ = .ok (false, ⟨byte '<' :: x :: r, false, d⟩) := by
  have hne : (byte c == x) = false := by
    refine beq_eq_false_iff_ne.mpr ?_
    rintro rfl
    exact absurd (hx.symm.trans hname) Bool.noConfusion
  rw [startsWith, if_neg Bool.false_ne_true, hs, utf8_cons_ascii (by decide), utf8_cons_ascii hc, isPrefixOf_cons_cons,
    isPrefixOf_cons_cons, hne, Bool.false_and, Bool.and_false]

/-- The start tag of an element. -/
theorem parseElementFuel_open {tag : Str} (htag : isName tag = true) (fuel : Nat) (r : Bytes) (d : Nat) :
    parseElementFuel (fuel + 1) ⟨byte '<' :: (utf8 tag ++ byte '>' :: r), false, d⟩ = (do
        let value ← parseContent (parseElementFuel fuel) tag
        pure (tag, value) : P (Str × Value)) ⟨r, false, d⟩ := by
  have hname := readName_apply htag (b := byte '>') (by decide) r d
  show (readName >>= _) ⟨utf8 tag ++ byte '>' :: r, false, d⟩ = _
  rw [bind_of_ok hname]
  rfl

/-- The text of an element starts with a bracket and a byte of a name. -/
theorem utf8_render {n : Node} (hn : n.named = true) : ∃ x b, isNameByte x = true ∧ utf8 n.render = byte '<' :: x :: b := by
  obtain ⟨tag, t, ns⟩ := n
  simp only [Node.named, Bool.and_eq_true] at hn
  obtain ⟨x, l, hx, hxname⟩ := isName_cons hn.1
  rw [Node.render, utf8_cons_ascii (by decide), utf8_append, hx]
  exact ⟨x, _, hxname, rfl⟩

/-! ## The loop over the content -/

section Loop

variable {element : P (Str × Value)} {tag : Str}

/-- The loop at one place goes on as the loop at another, with fuel left for what is there. -/
def GoesOn (element : P (Str × Value)) (tag : Str) (d : Nat) (children : List (Str × Value)) (text : Str) (run b : Bytes)
    (children' : List (Str × Value)) (text' : Str) (run' b' : Bytes) : Prop :=
  ∀ fuel, b.length < fuel → ∃ fuel', b'.length < fuel' ∧ parseContentLoop element tag fuel children text run ⟨b, false, d⟩ =
      parseContentLoop element tag fuel' children' text' run' ⟨b', false, d⟩

theorem GoesOn.refl {d : Nat} {children : Object} {text : Str} {run b : Bytes} :
    GoesOn element tag d children text run b children text run b := fun fuel hf => ⟨fuel, hf, rfl⟩

theorem GoesOn.trans {d : Nat} {c₁ c₂ c₃ : Object} {t₁ t₂ t₃ : Str} {r₁ r₂ r₃ b₁ b₂ b₃ : Bytes}
    (h : GoesOn element tag d c₁ t₁ r₁ b₁ c₂ t₂ r₂ b₂) (h' : GoesOn element tag d c₂ t₂ r₂ b₂ c₃ t₃ r₃ b₃) :
    GoesOn element tag d c₁ t₁ r₁ b₁ c₃ t₃ r₃ b₃ := by
  intro fuel hf
  obtain ⟨fuel₁, hf₁, h₁⟩ := h fuel hf
  obtain ⟨fuel₂, hf₂, h₂⟩ := h' fuel₁ hf₁
  exact ⟨fuel₂, hf₂, h₁.trans h₂⟩

theorem peek_cons (b : UInt8) (r : Bytes) (d : Nat) : peek ⟨b :: r, false, d⟩ = .ok (some b, ⟨b :: r, false, d⟩) := rfl

variable {children : Object} {d : Nat}

/-- Bytes that are neither an opening bracket nor an ampersand join the run. -/
theorem goesOn_bytes {a : Bytes} (ha : ∀ b ∈ a, b ≠ byte '<' ∧ b ≠ byte '&') (text : Str) (run r : Bytes)
    : GoesOn element tag d children text run (a ++ r) children text (run ++ a) r := by
  induction a generalizing run with
  | nil =>
    rw [append_nil]
    exact GoesOn.refl
  | cons b a ih =>
    have hb := ha b mem_cons_self
    have hstep : GoesOn element tag d children text run (b :: (a ++ r)) children text (run ++ [b]) (a ++ r) := by
      intro fuel hf
      rcases fuel with _ | fuel
      · rw [length_cons] at hf
        omega
      refine ⟨fuel, Nat.lt_of_succ_lt_succ hf, ?_⟩
      rw [parseContentLoop, bind_of_ok (peek_cons _ _ _)]
      simp only [if_neg hb.1, if_neg hb.2]
      rfl
    have hrest := ih (forall_mem_cons.mp ha).2 (run ++ [b])
    rw [append_assoc] at hrest
    exact hstep.trans hrest

theorem slice_apply (u : Str) (st : Parser) : slice (utf8 u) st = .ok (u, st) := by
  rw [slice, fromUtf8_utf8]
  rfl

variable {r : Bytes}

/-- An escape is read as its character. -/
theorem goesOn_escape {c : Char} {esc : Str} (h : escapeOf c = some esc) (d : Nat) (children : Object) (text u : Str)
    (r : Bytes) : GoesOn element tag d children text (utf8 u) (utf8 esc ++ r) children (text ++ u ++ [c]) [] r := by
  obtain ⟨body, hesc, hentity⟩ : ∃ body, esc = '&' :: body ∧ readEntity ⟨utf8 body ++ r, false, d⟩ = .ok (c, ⟨r, false, d⟩) := by
    rw [escapeOf] at h
    split at h
    next hc =>
      cases h
      exact ⟨"lt;".toList, rfl, by rw [hc]; rfl⟩
    split at h
    next hc =>
      cases h
      exact ⟨"gt;".toList, rfl, by rw [hc]; rfl⟩
    split at h
    next hc =>
      cases h
      exact ⟨"amp;".toList, rfl, by rw [hc]; rfl⟩
    · cases h
  subst hesc
  intro fuel hf
  rw [utf8_cons_ascii (by decide), cons_append] at hf ⊢
  rw [length_cons, length_append] at hf
  rcases fuel with _ | fuel
  · omega
  refine ⟨fuel, by omega, ?_⟩
  rw [parseContentLoop, bind_of_ok (peek_cons _ _ _)]
  dsimp only
  rw [if_neg (by decide), if_pos rfl, bind_of_ok (slice_apply _ _),
    bind_of_ok (show advance 1 ⟨byte '&' :: (utf8 body ++ r), false, d⟩ = .ok ((), ⟨utf8 body ++ r, false, d⟩) from rfl),
    bind_of_ok hentity]

/-- The text of an element is read back, some of it as the run at hand. -/
theorem goesOn_text (s : Str) (d : Nat) (children : Object) (text u : Str) (r : Bytes) :
    ∃ text' u', text' ++ u' = text ++ u ++ s ∧
      GoesOn element tag d children text (utf8 u) (utf8 (s.flatMap escapeChar) ++ r) children text' (utf8 u') r := by
  induction s generalizing text u with
  | nil => exact ⟨text, u, by rw [append_nil], GoesOn.refl⟩
  | cons c s ih =>
    have hbytes : utf8 ((c :: s).flatMap escapeChar) ++ r = utf8 ((escapeOf c).getD [c]) ++ (utf8 (s.flatMap escapeChar) ++ r) := by
      rw [flatMap_cons, utf8_append, append_assoc, escapeChar]
    rw [hbytes]
    cases hesc : escapeOf c with
    | some esc =>
      obtain ⟨text', u', heq, hgoes⟩ := ih (text ++ u ++ [c]) []
      refine ⟨text', u', by rw [heq]; simp, ?_⟩
      exact (goesOn_escape hesc d children text u _).trans hgoes
    | none =>
      obtain ⟨text', u', heq, hgoes⟩ := ih text (u ++ [c])
      refine ⟨text', u', by rw [heq]; simp, ?_⟩
      have hclean : ∀ b ∈ utf8 [c], b ≠ byte '<' ∧ b ≠ byte '&' := by
        intro b hb
        rw [utf8_cons, utf8_nil, append_nil] at hb
        refine ⟨ne_byte_of_mem hb (by decide) ?_, ne_byte_of_mem hb (by decide) ?_⟩
        · rintro rfl
          cases hesc
        · rintro rfl
          cases hesc
      refine (goesOn_bytes hclean text (utf8 u) _).trans ?_
      rw [← utf8_append]
      exact hgoes

/-- A child is read and joins the children. -/
theorem goesOn_child {n : Node} (hn : n.named = true) (hd : d + 1 ≤ MAX_DEPTH)
    (helement : element ⟨utf8 n.render ++ r, false, d + 1⟩ = .ok ((n.tag, n.value), ⟨r, false, d + 1⟩))
    (children : Object) (text u : Str) :
    GoesOn element tag d children text (utf8 u) (utf8 n.render ++ r) (pushChild children n.tag n.value) (text ++ u) [] r := by
  obtain ⟨x, b, hxname, hbytes⟩ := utf8_render hn
  rw [hbytes, cons_append, cons_append] at helement ⊢
  intro fuel hf
  rw [length_cons, length_cons, length_append] at hf
  rcases fuel with _ | fuel
  · omega
  refine ⟨fuel, by omega, ?_⟩
  have hcomment := startsWith_tag hxname (c := '!') (by decide) rfl (s := "<!--".toList) rfl (b ++ r) d
  have hclose := startsWith_tag hxname (c := '/') (by decide) rfl (s := "</".toList) rfl (b ++ r) d
  have henter : enter ⟨byte '<' :: x :: (b ++ r), false, d⟩ = .ok ((), ⟨byte '<' :: x :: (b ++ r), false, d + 1⟩) := by
    rw [enter, if_neg (not_lt.mpr hd)]
  rw [parseContentLoop, bind_of_ok (peek_cons _ _ _)]
  dsimp only
  rw [if_pos rfl, bind_of_ok (slice_apply _ _), bind_of_ok hcomment, if_neg Bool.false_ne_true,
    bind_of_ok hclose, if_neg Bool.false_ne_true, bind_of_ok henter, bind_of_ok helement]
  rfl

/-- The children are read and join those before them, in order. -/
theorem goesOn_children {ns : List Node} (hns : allNamed ns = true) (hd : ns ≠ [] → d + 1 ≤ MAX_DEPTH)
    (helement : ∀ n ∈ ns, ∀ r, element ⟨utf8 n.render ++ r, false, d + 1⟩ = .ok ((n.tag, n.value), ⟨r, false, d + 1⟩))
    (children : Object) (text u : Str) (r : Bytes) :
    ∃ text' u', text' ++ u' = text ++ u ∧ GoesOn element tag d children text (utf8 u) (utf8 (renderAll ns) ++ r)
      ((childValues ns).foldl (fun acc e => pushChild acc e.1 e.2) children) text' (utf8 u') r := by
  induction ns generalizing children text u with
  | nil => exact ⟨text, u, rfl, GoesOn.refl⟩
  | cons n ns ih =>
    simp only [allNamed, Bool.and_eq_true] at hns
    have hlevel := hd (cons_ne_nil _ _)
    obtain ⟨text', u', heq, hgoes⟩ := ih hns.2 (fun _ => hlevel) (forall_mem_cons.mp helement).2
      (pushChild children n.tag n.value) (text ++ u) []
    refine ⟨text', u', by rw [heq, append_nil], ?_⟩
    have hbytes : utf8 (renderAll (n :: ns)) ++ r = utf8 n.render ++ (utf8 (renderAll ns) ++ r) := by
      rw [renderAll, utf8_append, append_assoc]
    rw [hbytes]
    exact (goesOn_child hns.1 hlevel (helement n mem_cons_self _) children text u).trans hgoes

/-- The close tag ends the content. -/
theorem loop_close (htag : isName tag = true) (d fuel : Nat) (children : Object) (text u : Str) (r : Bytes) :
    parseContentLoop element tag (fuel + 1) children text (utf8 u) ⟨byte '<' :: byte '/' :: (utf8 tag ++ byte '>' :: r), false, d⟩ =
      .ok (content children (text ++ u), ⟨r, false, d⟩) := by
  have hname := readName_apply htag (b := byte '>') (by decide) r d
  rw [parseContentLoop, bind_of_ok (peek_cons _ _ _)]
  dsimp only
  rw [if_pos rfl, bind_of_ok (slice_apply _ _)]
  show (readName >>= _) ⟨utf8 tag ++ byte '>' :: r, false, d⟩ = _
  rw [bind_of_ok hname]
  rw [if_neg (not_not_intro rfl)]
  rfl

/-- The content of an element: its text, its children and its close tag. -/
theorem parseContent_apply (htag : isName tag = true) (t : Str) {ns : List Node} (hns : allNamed ns = true)
    (hd : ns ≠ [] → d + 1 ≤ MAX_DEPTH)
    (helement : ∀ n ∈ ns, ∀ r, element ⟨utf8 n.render ++ r, false, d + 1⟩ = .ok ((n.tag, n.value), ⟨r, false, d + 1⟩)) :
    parseContent element tag
        ⟨utf8 (t.flatMap escapeChar) ++ (utf8 (renderAll ns) ++ byte '<' :: byte '/' :: (utf8 tag ++ byte '>' :: r)), false, d⟩ =
      .ok ((Node.node tag t ns).value, ⟨r, false, d⟩) := by
  obtain ⟨t₁, u₁, heq₁, htext⟩ := @goesOn_text element tag t d [] [] []
    (utf8 (renderAll ns) ++ byte '<' :: byte '/' :: (utf8 tag ++ byte '>' :: r))
  obtain ⟨t₂, u₂, heq₂, hchildren⟩ := @goesOn_children element tag d ns hns hd helement [] t₁ u₁
    (byte '<' :: byte '/' :: (utf8 tag ++ byte '>' :: r))
  obtain ⟨fuel, hfuel, hloop⟩ := htext.trans hchildren _ (Nat.lt_succ_self _)
  rcases fuel with _ | fuel
  · omega
  refine hloop.trans ?_
  rw [loop_close htag, heq₂, heq₁]
  rfl

end Loop

/-! ## Elements -/

/-- The parser reads the text of an element as what the element stands for. -/
theorem parseElementFuel_render (n : Node) : ∀ (fuel d : Nat) (r : Bytes), n.named = true → n.levels ≤ fuel →
    d + n.levels ≤ MAX_DEPTH + 1 →
    parseElementFuel fuel ⟨utf8 n.render ++ r, false, d⟩ = .ok ((n.tag, n.value), ⟨r, false, d⟩) := by
  induction n using Node.ind with
  | node tag t ns ih =>
    intro fuel d r hnamed hfuel hdepth
    simp only [Node.named, Bool.and_eq_true] at hnamed
    rw [Node.levels] at hfuel hdepth
    rcases fuel with _ | fuel
    · omega
    have hlevels := childLevels_le.mp (le_refl (childLevels ns))
    have hd : ns ≠ [] → d + 1 ≤ MAX_DEPTH := by
      intro hne
      obtain ⟨n, hn⟩ := exists_mem_of_ne_nil _ hne
      have := n.levels_pos
      have := hlevels n hn
      omega
    have helement : ∀ n ∈ ns, ∀ r,
        parseElementFuel fuel ⟨utf8 n.render ++ r, false, d + 1⟩ = .ok ((n.tag, n.value), ⟨r, false, d + 1⟩) := by
      intro n hn r
      have := hlevels n hn
      exact ih n hn fuel (d + 1) r (allNamed_iff.mp hnamed.2 n hn) (by omega) (by omega)
    have hbytes : utf8 (Node.node tag t ns).render ++ r = byte '<' :: (utf8 tag ++ byte '>' ::
        (utf8 (t.flatMap escapeChar) ++ (utf8 (renderAll ns) ++ byte '<' :: byte '/' :: (utf8 tag ++ byte '>' :: r)))) := by
      simp only [Node.render, utf8_append, utf8_cons_ascii (c := '<') (by decide), utf8_cons_ascii (c := '>') (by decide),
        utf8_cons_ascii (c := '/') (by decide), utf8_nil, append_assoc, cons_append, nil_append]
    rw [hbytes, parseElementFuel_open hnamed.1, bind_of_ok (parseContent_apply hnamed.1 t hnamed.2 hd helement)]
    rfl

/-- A document that is one element is read as what the element stands for. -/
theorem fromStr_render {n : Node} (hnamed : n.named = true) (hlevels : n.levels ≤ MAX_DEPTH + 1) :
    fromStr n.render = .ok n.value := by
  obtain ⟨x, b, hxname, hbytes⟩ := utf8_render hnamed
  have hprolog : skipProlog (.new n.render) = .ok ((), .new n.render) := by
    have hdeclaration := startsWith_tag hxname (c := '?') (by decide) rfl (s := "<?".toList) rfl b 0
    have hcomment := startsWith_tag hxname (c := '!') (by decide) rfl (s := "<!--".toList) rfl b 0
    rw [Parser.new, hbytes]
    show skipPrologLoop (b.length + 2 + 1) ⟨byte '<' :: x :: b, false, 0⟩ = _
    rw [skipPrologLoop, bind_of_ok (show skipWs ⟨byte '<' :: x :: b, false, 0⟩ = .ok ((), ⟨byte '<' :: x :: b, false, 0⟩) from rfl),
      bind_of_ok hdeclaration, if_neg Bool.false_ne_true, bind_of_ok hcomment]
    rfl
  have helement := parseElementFuel_render n (MAX_DEPTH + 2) 0 [] hnamed (by omega) (by omega)
  rw [append_nil] at helement
  rw [fromStr, bind_of_ok hprolog, parseElement, Parser.new, helement]

end Xml

end Ferroly
