import Ferroly.Lemmas.XmlRead

/-!
# What a value is read back as

The elements of a value as a tree. The encoder writes the text of that tree, and the tree stands for what the projection says: the
children join one after another what the projection groups at once.
-/

namespace Ferroly.Xml

open List

/-! ## Grouping -/

variable {k : Str} {l : List Str}

theorem eraseDups_snoc : (l ++ [k]).eraseDups = if k ∈ l then l.eraseDups else l.eraseDups ++ [k] := by
  rw [eraseDups_append]
  by_cases hk : k ∈ l
  · simp [removeAll, hk]
  · simp [removeAll, hk, eraseDups_cons]

theorem nodup_eraseDups : l.eraseDups.Nodup := by
  induction l using reverseRecOn with
  | nil => exact nodup_nil
  | append_singleton l k ih =>
    rw [eraseDups_snoc]
    split
    · exact ih
    next hk =>
      refine ih.append (nodup_singleton k) ?_
      rw [disjoint_singleton]
      exact fun h => hk (mem_eraseDups.mp h)

/-- The value is no array. -/
def isSingle : Value → Bool
  | .array _ => false
  | _ => true

variable {rest : Object}

theorem pushChild_of_ne {tag : Str} (h : k ≠ tag) (w v : Value) :
    pushChild ((k, w) :: rest) tag v = (k, w) :: pushChild rest tag v := by
  conv_lhs => unfold pushChild
  exact if_neg h

variable {v : Value}

/-- One more value of a tag makes an array of its values. -/
theorem pushChild_collapse {vs : List Value} (hne : vs ≠ []) (hvs : ∀ v ∈ vs, isSingle v = true)
    : pushChild ((k, collapse vs) :: rest) k v = (k, collapse (vs ++ [v])) :: rest := by
  match vs with
  | [] => exact absurd rfl hne
  | [w] =>
    have hw := hvs w mem_cons_self
    cases w with
    | array a => cases hw
    | _ => simp [collapse, pushChild]
  | w :: w' :: vs => simp [collapse, pushChild]

/-- A child joins the children of its tag. -/
theorem pushChild_map {ks : List Str} (hks : ks.Nodup) {f : Str → List Value} (hf : ∀ k ∈ ks, f k ≠ [])
    (hsingle : ∀ k, ∀ v ∈ f k, isSingle v = true) (hk : k ∉ ks → f k = []) :
    pushChild (ks.map (fun j => (j, collapse (f j)))) k v =
      (if k ∈ ks then ks else ks ++ [k]).map (fun j => (j, collapse (if j = k then f j ++ [v] else f j))) := by
  induction ks with
  | nil => simp [pushChild, collapse, hk not_mem_nil]
  | cons j ks ih =>
    obtain ⟨hj, hnd⟩ := nodup_cons.mp hks
    by_cases hjk : j = k
    · subst hjk
      have hrest : ∀ i ∈ ks, (i, collapse (f i)) = (i, collapse (if i = j then f i ++ [v] else f i)) := by
        intro i hi
        rw [if_neg (ne_of_mem_of_not_mem hi hj)]
      rw [if_pos mem_cons_self, map_cons, map_cons, if_pos rfl,
        pushChild_collapse (hf j mem_cons_self) (hsingle j), map_congr_left hrest]
    · have hmem : k ∈ j :: ks ↔ k ∈ ks := by rw [mem_cons, or_iff_right (Ne.symm hjk)]
      rw [map_cons, pushChild_of_ne hjk, ih hnd (forall_mem_cons.mp hf).2 (fun h => hk (mt hmem.mp h))]
      simp only [hmem]
      split
      · rw [map_cons, if_neg hjk]
      · rw [cons_append, map_cons, if_neg hjk]

variable {children : Object}

/-- Children that join one after another are grouped. -/
theorem foldl_pushChild (h : ∀ e ∈ children, isSingle e.2 = true) :
    children.foldl (fun acc e => pushChild acc e.1 e.2) [] = group children := by
  induction children using reverseRecOn with
  | nil => rfl
  | append_singleton l e ih =>
    obtain ⟨k, v⟩ := e
    have hl : ∀ e ∈ l, isSingle e.2 = true := fun e he => h e (mem_append_left _ he)
    have hmem : ∀ j, j ∈ (l.map Prod.fst).eraseDups ↔ ∃ e ∈ l, e.1 = j := by
      intro j
      rw [mem_eraseDups, mem_map]
    rw [foldl_append, foldl_cons, foldl_nil, ih hl, group, pushChild_map nodup_eraseDups]
    · have hvalues : ∀ j, ((l ++ [(k, v)]).filter (fun e => e.1 == j)).map Prod.snd =
          if j = k then (l.filter (fun e => e.1 == j)).map Prod.snd ++ [v] else (l.filter (fun e => e.1 == j)).map Prod.snd := by
        intro j
        by_cases hj : j = k
        · simp [hj]
        · simp [hj, Ne.symm hj]
      rw [group, map_append, map_singleton, eraseDups_snoc]
      simp only [hvalues, mem_eraseDups]
    · intro j hj
      obtain ⟨e, he, hej⟩ := (hmem j).mp hj
      exact ne_nil_of_mem (mem_map_of_mem (mem_filter.mpr ⟨he, beq_iff_eq.mpr hej⟩))
    · intro j w hw
      obtain ⟨e, he, rfl⟩ := mem_map.mp hw
      exact hl e (mem_filter.mp he).1
    · intro hk
      rw [map_eq_nil_iff, filter_eq_nil_iff]
      intro e he hek
      exact hk ((hmem k).mpr ⟨e, he, beq_iff_eq.mp hek⟩)

/-! ## The tree of a value -/

mutual

/-- The elements of a value under a tag. -/
def nodes (D : FloatDisplay binary64) (tag : Str) : Value → List Node
  | .array a => if a.isEmpty then [.node tag [] []] else itemNodes D tag a
  | .object o => [.node tag [] (entryNodes D o)]
  | v => [.node tag (scalarText D v) []]

def itemNodes (D : FloatDisplay binary64) (tag : Str) : List Value → List Node
  | [] => []
  | v :: a => nodes D tag v ++ itemNodes D tag a

def entryNodes (D : FloatDisplay binary64) : List (Str × Value) → List Node
  | [] => []
  | (k, v) :: o => nodes D k v ++ entryNodes D o

end

section Tree

variable (D : F64Display)

variable {ns ms : List Node}

theorem renderAll_append : renderAll (ns ++ ms) = renderAll ns ++ renderAll ms := by
  induction ns with
  | nil => rfl
  | cons n ns ih => rw [cons_append, renderAll, renderAll, ih, append_assoc]

theorem childValues_append : childValues (ns ++ ms) = childValues ns ++ childValues ms := by
  induction ns with
  | nil => rfl
  | cons n ns ih => rw [cons_append, childValues, childValues, ih, cons_append]

theorem childLevels_append : childLevels (ns ++ ms) = max (childLevels ns) (childLevels ms) := by
  induction ns with
  | nil => rw [nil_append, childLevels, Nat.zero_max]
  | cons n ns ih => rw [cons_append, childLevels, childLevels, ih, max_assoc]

theorem allNamed_append : allNamed (ns ++ ms) = (allNamed ns && allNamed ms) := by
  induction ns with
  | nil => rfl
  | cons n ns ih => rw [cons_append, allNamed, allNamed, ih, Bool.and_assoc]

/-! ## What the encoder writes -/

theorem escapeTextLoop_eq (out run s : Str) : escapeTextLoop out run s = out ++ run ++ s.flatMap escapeChar := by
  induction s generalizing out run with
  | nil => rw [escapeTextLoop, flatMap_nil, append_nil]
  | cons c s ih =>
    rw [escapeTextLoop, flatMap_cons, escapeChar]
    cases escapeOf c with
    | some esc | none => simp [ih]

/-- Text without the characters that are escaped stands as it is. -/
theorem flatMap_escapeChar {s : Str} (h : ∀ c ∈ s, escapeOf c = none) : s.flatMap escapeChar = s := by
  induction s with
  | nil => rfl
  | cons c s ih =>
    rw [flatMap_cons, ih (forall_mem_cons.mp h).2, escapeChar, h c mem_cons_self]
    rfl

theorem escapeOf_number {c : Char} (h : isNumberChar c = true) : escapeOf c = none := by
  rw [escapeOf, if_neg (isNumberChar_ne h (by decide)), if_neg (isNumberChar_ne h (by decide)),
    if_neg (isNumberChar_ne h (by decide))]

theorem writeBytesLoop_eq (i : Nat) (b : Bytes) :
    ∃ t : Str, (∀ out, writeBytesLoop out i b = out ++ t) ∧ ∀ c ∈ t, escapeOf c = none := by
  induction b generalizing i with
  | nil => exact ⟨[], fun out => (append_nil out).symm, by simp⟩
  | cons x b ih =>
    obtain ⟨t, ht, hc⟩ := ih (i + 1)
    refine ⟨(if i > 0 then [' '] else []) ++ Nat.toDigits 10 x.toNat ++ t, ?_, ?_⟩
    · intro out
      rw [writeBytesLoop, Fmt.writeU64_eq, ht]
      split
      · simp
      · simp
    · intro c hmem
      rw [mem_append, mem_append] at hmem
      rcases hmem with (hmem | hmem) | hmem
      · split at hmem
        · rw [mem_singleton.mp hmem]
          rfl
        · exact absurd hmem not_mem_nil
      · exact escapeOf_number (isNumberChar_of_isDigit (isDigit_toDigits _ c hmem))
      · exact hc c hmem

/-- A scalar that is no string has a text without the characters that are escaped. -/
theorem writeScalar_plain (hv : ∀ s, v ≠ .str s) :
    ∃ t : Str, (∀ out, writeScalar D out v = out ++ t) ∧ ∀ c ∈ t, escapeOf c = none := by
  cases v with
  | null | array _ | object _ => exact ⟨[], fun out => (append_nil out).symm, by simp⟩
  | str s => exact absurd rfl (hv s)
  | bool b =>
    refine ⟨if b then "true".toList else "false".toList, fun out => rfl, ?_⟩
    cases b with
    | true | false => exact forall_iff_forall_mem.mp (by decide)
  | int i =>
    refine ⟨_, fun out => Fmt.writeI64_eq out i, fun c hc => ?_⟩
    rw [signText_eq_plainText] at hc
    exact escapeOf_number (isNumberChar_plainText (isDigit_toDigits _) (by simp) c hc)
  | uint u =>
    refine ⟨_, fun out => Fmt.writeU64_eq out u, fun c hc => ?_⟩
    exact escapeOf_number (isNumberChar_of_isDigit (isDigit_toDigits _ c hc))
  | float f =>
    refine ⟨_, fun out => Fmt.writeF64_eq D out f, ?_⟩
    rw [Fmt.writeF64]
    split
    next hf =>
      obtain ⟨neg, whole, part, htext, -, hw, hp⟩ := D.plain f hf
      rw [htext]
      exact fun c hc => escapeOf_number (isNumberChar_plainText hw hp c hc)
    · exact forall_iff_forall_mem.mp (by decide)
  | bytes b => exact writeBytesLoop_eq 0 b

/-- A scalar is written as its text, escaped. -/
theorem writeScalar_eq (out : Str) (v : Value) : writeScalar D out v = out ++ (scalarText D v).flatMap escapeChar := by
  by_cases hv : ∃ s, v = .str s
  · obtain ⟨s, rfl⟩ := hv
    rw [writeScalar, escapeText, escapeTextLoop_eq, append_nil, scalarText]
  · obtain ⟨t, ht, hc⟩ := writeScalar_plain D (fun s hs => hv ⟨s, hs⟩)
    have htext : scalarText D v = t := by
      rw [scalarText, ht, nil_append]
      exact fun s hs => hv ⟨s, hs⟩
    rw [ht, htext, flatMap_escapeChar hc]

theorem render_node (tag text : Str) (ns : List Node) : renderAll [.node tag text ns] =
    '<' :: (tag ++ '>' :: (text.flatMap escapeChar ++ (renderAll ns ++ '<' :: '/' :: (tag ++ ['>'])))) := by
  rw [renderAll, renderAll, append_nil, Node.render]

/-- The encoder writes the elements of a value. -/
theorem writeElement_eq (v : Value) : ∀ tag out, writeElement D tag v out = out ++ renderAll (nodes D tag v) := by
  induction v using Value.ind with
  | array a ih =>
    intro tag out
    have hitems : ∀ out, writeItems D tag a out = out ++ renderAll (itemNodes D tag a) := by
      induction a with
      | nil => exact fun out => (append_nil out).symm
      | cons v a iha =>
        intro out
        rw [writeItems, ih v mem_cons_self, iha (forall_mem_cons.mp ih).2, itemNodes, renderAll_append, append_assoc]
    rw [writeElement, nodes]
    split
    · rw [render_node, renderAll]
      simp
    · exact hitems out
  | object o ih =>
    intro tag out
    have hentries : ∀ out, writeEntries D o out = out ++ renderAll (entryNodes D o) := by
      induction o with
      | nil => exact fun out => (append_nil out).symm
      | cons e o iho =>
        intro out
        rw [writeEntries, ih e mem_cons_self, iho (forall_mem_cons.mp ih).2, entryNodes, renderAll_append, append_assoc]
    rw [writeElement, nodes, hentries, render_node]
    simp
  | null =>
    intro tag out
    rw [writeElement, nodes, render_node, renderAll]
    · simp [scalarText, writeScalar]
    all_goals simp
  | _ =>
    intro tag out
    rw [writeElement, nodes, writeScalar_eq, render_node, renderAll]
    · simp
    all_goals simp

/-! ## What the elements stand for -/

/-- No element stands for an array. -/
theorem isSingle_elementValues (v : Value) : ∀ w ∈ elementValues D v, isSingle w = true := by
  have hchildren : ∀ children, isSingle (childrenValue children) = true := by
    intro children
    rw [childrenValue]
    split
    · rfl
    · rfl
  have htext : ∀ s, isSingle (textValue s) = true := by
    intro s
    rw [textValue]
    split
    · rfl
    · rfl
  induction v using Value.ind with
  | array a ih =>
    have hitems : ∀ w ∈ itemValues D a, isSingle w = true := by
      induction a with
      | nil => exact nofun
      | cons v a iha =>
        intro w hw
        rcases mem_append.mp hw with hw | hw
        · exact ih v mem_cons_self w hw
        · exact iha (forall_mem_cons.mp ih).2 w hw
    rw [elementValues]
    split
    · intro w hw
      rw [mem_singleton.mp hw]
      rfl
    · exact hitems
  | object o ih =>
    intro w hw
    rw [elementValues, mem_singleton] at hw
    rw [hw]
    exact hchildren _
  | _ =>
    intro w hw
    rw [mem_singleton.mp hw]
    exact htext _

variable (o : Object)

theorem isSingle_entryValues : ∀ e ∈ entryValues D o, isSingle e.2 = true := by
  induction o with
  | nil => exact nofun
  | cons e o ih =>
    intro e' he
    rcases mem_append.mp he with he | he
    · obtain ⟨w, hw, rfl⟩ := mem_map.mp he
      exact isSingle_elementValues D e.2 w hw
    · exact ih e' he

/-- An element with children and no text. -/
theorem content_group (h : ∀ e ∈ children, isSingle e.2 = true) :
    content (children.foldl (fun acc e => pushChild acc e.1 e.2) []) [] = childrenValue children := by
  rw [foldl_pushChild h, content, childrenValue]
  by_cases hc : children = []
  · subst hc
    rfl
  · have hgroup : group children ≠ [] := by
      obtain ⟨e, he⟩ := exists_mem_of_ne_nil _ hc
      exact ne_nil_of_mem (mem_map_of_mem (mem_eraseDups.mpr (mem_map_of_mem he)))
    rw [if_neg hgroup, if_neg hc]

/-- The elements of a value stand for what the projection says. -/
theorem childValues_nodes (v : Value) : ∀ tag, childValues (nodes D tag v) = (elementValues D v).map (fun w => (tag, w)) := by
  induction v using Value.ind with
  | array a ih =>
    intro tag
    have hitems : childValues (itemNodes D tag a) = (itemValues D a).map (fun w => (tag, w)) := by
      induction a with
      | nil => rfl
      | cons v a iha =>
        rw [itemNodes, childValues_append, ih v mem_cons_self, iha (forall_mem_cons.mp ih).2, itemValues, map_append]
    rw [nodes, elementValues]
    split
    · rfl
    · exact hitems
  | object o ih =>
    intro tag
    have hentries : childValues (entryNodes D o) = entryValues D o := by
      induction o with
      | nil => rfl
      | cons e o iho =>
        rw [entryNodes, childValues_append, ih e mem_cons_self, iho (forall_mem_cons.mp ih).2, entryValues]
    rw [nodes, childValues, Node.value, hentries, content_group (isSingle_entryValues D o)]
    rfl
  | _ =>
    intro tag
    rfl

/-- The elements of a value have no more levels than its height. -/
theorem childLevels_nodes (v : Value) : ∀ tag, childLevels (nodes D tag v) ≤ height v := by
  induction v using Value.ind with
  | array a ih =>
    intro tag
    have hitems : childLevels (itemNodes D tag a) ≤ itemsHeight a := by
      induction a with
      | nil => exact Nat.zero_le _
      | cons v a iha =>
        rw [itemNodes, childLevels_append]
        exact max_le_max (ih v mem_cons_self tag) (iha (forall_mem_cons.mp ih).2)
    rw [nodes]
    split
    · exact le_max_left _ _
    · exact hitems.trans (le_max_right _ _)
  | object o ih =>
    intro tag
    have hentries : childLevels (entryNodes D o) ≤ entriesHeight o := by
      induction o with
      | nil => exact Nat.zero_le _
      | cons e o iho =>
        rw [entryNodes, childLevels_append]
        exact max_le_max (ih e mem_cons_self e.1) (iho (forall_mem_cons.mp ih).2)
    exact Nat.succ_le_succ hentries
  | _ =>
    intro tag
    exact Nat.le_refl _

/-- The tags of the elements of a value are names if its keys are. -/
theorem allNamed_nodes (v : Value) : ∀ tag, isName tag = true → keysAreNames v = true → allNamed (nodes D tag v) = true := by
  induction v using Value.ind with
  | array a ih =>
    intro tag htag hv
    have hitems : itemsHaveNames a = true → allNamed (itemNodes D tag a) = true := by
      clear hv
      induction a with
      | nil => exact fun _ => rfl
      | cons v a iha =>
        intro ha
        rw [itemsHaveNames, Bool.and_eq_true] at ha
        rw [itemNodes, allNamed_append, ih v mem_cons_self tag htag ha.1, iha (forall_mem_cons.mp ih).2 ha.2, Bool.and_self]
    rw [nodes]
    split
    · simp [allNamed, Node.named, htag]
    · exact hitems hv
  | object o ih =>
    intro tag htag hv
    have hentries : entriesHaveNames o = true → allNamed (entryNodes D o) = true := by
      clear hv
      induction o with
      | nil => exact fun _ => rfl
      | cons e o iho =>
        intro ho
        rw [entriesHaveNames, Bool.and_eq_true, Bool.and_eq_true] at ho
        rw [entryNodes, allNamed_append, ih e mem_cons_self e.1 ho.1.1 ho.1.2, iho (forall_mem_cons.mp ih).2 ho.2, Bool.and_self]
    simp [nodes, allNamed, Node.named, htag, hentries hv]
  | _ =>
    intro tag htag _
    simp [nodes, allNamed, Node.named, htag]

/-- The document of an object is one element. -/
theorem encodeValue_object : encodeValue D (.object o) = (Node.node "root".toList [] (entryNodes D o)).render := by
  have h := writeElement_eq D (.object o) "root".toList []
  rw [nodes, renderAll, renderAll, writeElement, append_nil, nil_append, nil_append] at h
  rw [← h, encodeValue, writeChildren]
  simp

/-- The document of an object is read as its projection, as far as the parser nests. -/
theorem fromStr_project {o : Object} (hnames : entriesHaveNames o = true)
    (hheight : entriesHeight o ≤ MAX_DEPTH) : fromStr (encodeValue D (.object o)) = .ok (project D o) := by
  have hroot : isName "root".toList = true := by decide
  have hnamed := allNamed_nodes D (.object o) "root".toList hroot hnames
  have hlevels := childLevels_nodes D (.object o) "root".toList
  have hvalues := childValues_nodes D (.object o) "root".toList
  rw [nodes, allNamed, allNamed, Bool.and_true] at hnamed
  rw [nodes, elementValues, childValues, childValues, map_singleton, singleton_inj, Prod.mk.injEq] at hvalues
  rw [encodeValue_object, fromStr_render hnamed (hlevels.trans (Nat.succ_le_succ hheight)), hvalues.2, project]

end Tree

end Ferroly.Xml
