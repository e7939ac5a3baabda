import Ferroly.Config.Spec

/-!
# Merging, key by key

What a merge makes of a key is found from the values the key has in the two objects. A lookup goes on in the last of them.
-/

namespace Ferroly

open List hiding lookup beq_eq_decide

namespace Value

variable {path : List Str} {k : Str} {u v x : Value}

variable {o : Object}

@[simp] theorem valuesOf_object : (Value.object o).valuesOf k = occurrences k o := rfl

theorem find_eq : find o k = (occurrences k o).getLast? := by
  rw [← find_reverse_eq, find]
  simp only [beq_eq_decide]

theorem get_eq : v.get k = (v.valuesOf k).getLast? := by
  cases v with
  | object o => exact find_eq
  | _ => rfl

theorem eq_object_of_isObject (h : v.isObject = true) : ∃ o, v = .object o := by
  cases v with
  | object o => exact ⟨o, rfl⟩
  | _ => cases h

theorem lookup_cons (v : Value) (k : Str) (path : List Str) :
    v.lookup (k :: path) = (v.valuesOf k).getLast?.bind (fun u => u.lookup path) := by
  rw [lookup, get_eq]

/-- A lookup that ends somewhere goes on in the last value of its first key. -/
theorem lookup_cons_eq_some {w : Value} (h : v.lookup (k :: path) = some w) :
    ∃ us u, v.valuesOf k = us ++ [u] ∧ u.lookup path = some w := by
  rw [lookup_cons] at h
  obtain ⟨u, hu, hrest⟩ := Option.bind_eq_some_iff.mp h
  obtain ⟨us, hus⟩ := getLast?_eq_some_iff.mp hu
  exact ⟨us, u, hus, hrest⟩

theorem isObject_of_mem_valuesOf (h : u ∈ v.valuesOf k) : v.isObject = true := by
  cases v with
  | object o => rfl
  | _ => cases h

theorem Holds.of_mem {w : Value} (hu : u ∈ v.valuesOf k) (h : u.Holds path w) : v.Holds (k :: path) w := by
  obtain ⟨o, rfl⟩ := eq_object_of_isObject (isObject_of_mem_valuesOf hu)
  exact .entry (mem_occurrences.mp hu) h

/-! ## Paths left alone -/

theorem Leaves.isObject (h : x.Leaves path) : x.isObject = true :=
  h.above [] x nil_prefix (.here x)

/-- No layer leaves the empty path alone. -/
theorem not_leaves_nil (x : Value) : ¬x.Leaves [] := fun h => h.unmentioned x (.here x)

/-- What a layer has at the first key of a path that it leaves alone leaves the rest of the path alone. -/
theorem Leaves.valuesOf (h : x.Leaves (k :: path)) (hu : u ∈ x.valuesOf k) : u.Leaves path where
  unmentioned w hw := h.unmentioned w (.of_mem hu hw)
  above q w hq hw := h.above (k :: q) w (cons_prefix_cons.mpr ⟨rfl, hq⟩) (.of_mem hu hw)

/-- An object leaves alone every path whose first key it does not have. -/
theorem Leaves.of_absent (hx : x.isObject = true) (hk : x.valuesOf k = []) : x.Leaves (k :: path) := by
  obtain ⟨o, rfl⟩ := eq_object_of_isObject hx
  rw [valuesOf_object] at hk
  have habsent : ∀ u, (k, u) ∉ o := by
    intro u hu
    rw [← mem_occurrences, hk] at hu
    cases hu
  constructor
  · intro w hw
    cases hw with
    | entry hmem _ => exact habsent _ hmem
  · intro q w hq hw
    cases hw with
    | here => rfl
    | entry hmem _ =>
      obtain ⟨rfl, -⟩ := cons_prefix_cons.mp hq
      exact absurd hmem (habsent _)

end Value

namespace Config

open Value

variable {u v : Value}

/-! ## One merge -/

theorem mergeEntries_eq (b o : Object) : mergeEntries b o = overlay merge b o := by
  induction o generalizing b with
  | nil => rfl
  | cons e o ih =>
    obtain ⟨k, v⟩ := e
    rw [mergeEntries, ih]
    rfl

/-- What is no object replaces everything. -/
theorem merge_scalar (h : v.isObject = false) : merge u v = v := by
  cases v with
  | object o => cases h
  | _ => cases u <;> rfl

/-- An object replaces what is none. -/
theorem merge_onto_scalar (h : u.isObject = false) : merge u v = v := by
  cases u with
  | object b => cases h
  | _ => cases v <;> rfl

theorem isObject_merge (h : v.isObject = true) : (merge u v).isObject = true := by
  obtain ⟨o, rfl⟩ := eq_object_of_isObject h
  cases u <;> rfl

/-- The values of a key after a merge of two objects. -/
theorem valuesOf_merge (hu : u.isObject = true) (hv : v.isObject = true) (k : Str) :
    (merge u v).valuesOf k = fuse merge (u.valuesOf k) (v.valuesOf k) := by
  obtain ⟨b, rfl⟩ := eq_object_of_isObject hu
  obtain ⟨o, rfl⟩ := eq_object_of_isObject hv
  rw [merge, valuesOf_object, mergeEntries_eq, occurrences_overlay, valuesOf_object, valuesOf_object]

/-- The values of a key after a merge of objects one after the other. -/
theorem valuesOf_foldl (hu : u.isObject = true) {us : List Value} (hus : ∀ x ∈ us, x.isObject = true) (k : Str) :
    (us.foldl merge u).valuesOf k = fuse merge (u.valuesOf k) (us.flatMap (fun x => x.valuesOf k)) := by
  induction us generalizing u with
  | nil => exact (fuse_nil _).symm
  | cons x us ih =>
    have hx := hus x mem_cons_self
    rw [foldl_cons, ih (isObject_merge hx) (forall_mem_cons.mp hus).2, valuesOf_merge hu hx, fuse_fuse, flatMap_cons]

/-! ## Keys -/

theorem navigateLoop_eq (segs : List Str) : navigateLoop v segs = v.lookup (segs.filter (fun seg => seg != [])) := by
  induction segs generalizing v with
  | nil => rfl
  | cons seg segs ih =>
    by_cases h : seg = []
    · rw [navigateLoop, if_pos h, filter_cons_of_neg (by simp [h]), ih]
    · rw [navigateLoop, if_neg h, filter_cons_of_pos (by simpa using h), lookup]
      simp only [ih]

/-- A key is looked up as the path it stands for. -/
theorem navigate_eq (key : Str) : navigate v key = v.lookup (path key) := navigateLoop_eq _

theorem sees_iff {c : Config} {key : Str} : c.Sees key v ↔ c.value.lookup (path key) = some v := by
  rw [← navigate_eq]
  constructor
  · intro h
    have hv := h Value .ok
    rw [get] at hv
    cases hn : navigate c.value key with
    | none =>
      rw [hn] at hv
      cases hv
    | some u =>
      rw [hn] at hv
      cases hv
      rfl
  · intro h α decode
    rw [get, h]

/-! ## What a layer leaves alone -/

/-- A merge keeps what is seen at a path that the layer leaves alone. -/
theorem lookup_merge_of_leaves {path : List Str} {b x w : Value} (hx : x.Leaves path) (hb : b.lookup path = some w) :
    (merge b x).lookup path = some w := by
  induction path generalizing b x with
  | nil => exact absurd hx (not_leaves_nil x)
  | cons k path ih =>
    obtain ⟨us, u, hus, hu⟩ := lookup_cons_eq_some hb
    have hbobj : b.isObject = true := isObject_of_mem_valuesOf (hus ▸ mem_append_right _ mem_cons_self)
    rw [lookup_cons, valuesOf_merge hbobj hx.isObject, hus]
    cases us with
    | nil =>
      -- the only entry of the key takes all values of the layer, one after the other
      have hkept : ∀ vs : List Value, (∀ y ∈ vs, y.Leaves path) → ∀ u : Value, u.lookup path = some w →
          (vs.foldl merge u).lookup path = some w := by
        intro vs hvs
        induction vs with
        | nil => exact fun u hu => hu
        | cons y vs ihvs =>
          intro u hu
          exact ihvs (forall_mem_cons.mp hvs).2 _ (ih (hvs y mem_cons_self) hu)
      exact hkept _ (fun y hy => hx.valuesOf hy) u hu
    | cons u' us =>
      -- the last of several entries is not touched
      rw [cons_append, fuse, ← cons_append, getLast?_concat]
      exact hu

/-! ## Merging one layer after the other -/

/-- The merge of a list of values. -/
def merged : List Value → Option Value
  | [] => none
  | u :: us => some (us.foldl merge u)

theorem merged_concat (vs : List Value) (x : Value) : merged (vs ++ [x]) = some ((merged vs).elim x (fun u => merge u x)) := by
  cases vs with
  | nil => rfl
  | cons u us => simp [merged]

/-- Only the objects at the end matter, if there are any. -/
theorem merged_rtakeWhile (vs : List Value) : (vs.rtakeWhile isObject = [] → ∀ u ∈ merged vs, u.isObject = false) ∧
      (vs.rtakeWhile isObject ≠ [] → merged vs = merged (vs.rtakeWhile isObject)) := by
  induction vs using reverseRecOn with
  | nil => exact ⟨fun _ _ hu => (by cases hu), fun h => absurd rfl h⟩
  | append_singleton vs x ih =>
    rw [merged_concat]
    cases hx : x.isObject with
    | false =>
      rw [rtakeWhile_concat_neg _ _ _ (by simp [hx])]
      refine ⟨fun _ u hu => ?_, fun h => absurd rfl h⟩
      cases hvs : merged vs with
      | none =>
        rw [hvs] at hu
        cases hu
        exact hx
      | some w =>
        rw [hvs] at hu
        cases hu
        rw [Option.elim_some, merge_scalar hx]
        exact hx
    | true =>
      rw [rtakeWhile_concat_pos _ _ _ hx]
      refine ⟨fun h => absurd h (by simp), fun _ => ?_⟩
      rw [merged_concat]
      by_cases hnil : vs.rtakeWhile isObject = []
      · rw [hnil]
        cases hvs : merged vs with
        | none => rfl
        | some w => rw [Option.elim_some, merge_onto_scalar (ih.1 hnil w hvs)]; rfl
      · rw [ih.2 hnil]

/-- The objects at the end of a list that goes on with objects. -/
theorem rtakeWhile_append {before : List Value} {after : List Value} (h : ∀ x ∈ after, x.isObject = true) :
    (before ++ after).rtakeWhile isObject = before.rtakeWhile isObject ++ after := by
  induction after using reverseRecOn with
  | nil => rw [append_nil, append_nil]
  | append_singleton after x ih =>
    rw [← append_assoc, rtakeWhile_concat_pos _ _ _ (h x (by simp)), ih (fun y hy => h y (by simp [hy])), append_assoc]

/-- The merge of a list shows what one of its values has at a path, the values after it leaving the path alone, exactly if that is
not shadowed. -/
theorem lookup_merged_iff {path : List Str} {before after : List Value} {l : Value} (hl : l.lookup path = some v)
    (hv : v.isObject = false) (hafter : ∀ x ∈ after, x.Leaves path) :
    (merged (before ++ l :: after)).bind (fun m => m.lookup path) = some v ↔ unshadowed v path (before ++ l :: after) = true := by
  induction path generalizing before after l with
  | nil =>
    cases hl
    cases after with
    | nil =>
      rw [merged_concat]
      cases merged before with
      | none => simp [lookup, unshadowed]
      | some u => simp [lookup, unshadowed, merge_scalar hv]
    | cons x after => exact absurd (hafter x mem_cons_self) (not_leaves_nil x)
  | cons k path ih =>
    obtain ⟨ws, w, hws, hw⟩ := lookup_cons_eq_some hl
    have hlobj : l.isObject = true := isObject_of_mem_valuesOf (hws ▸ mem_append_right _ mem_cons_self)
    have hobj : ∀ x ∈ l :: after, x.isObject = true := by
      intro x hx
      rcases mem_cons.mp hx with rfl | hx
      · exact hlobj
      · exact (hafter x hx).isObject
    have hstack : (before ++ l :: after).rtakeWhile isObject = before.rtakeWhile isObject ++ l :: after := rtakeWhile_append hobj
    have hne : (before ++ l :: after).rtakeWhile isObject ≠ [] := by
      rw [hstack]
      simp
    have hall : ∀ x ∈ (before ++ l :: after).rtakeWhile isObject, x.isObject = true := fun x hx => mem_rtakeWhile_imp hx
    -- the values of the key in the objects that are merged, those of the layer among them
    have hflat : ((before ++ l :: after).rtakeWhile isObject).flatMap (fun x => x.valuesOf k) =
        ((before.rtakeWhile isObject).flatMap (fun x => x.valuesOf k) ++ ws) ++ w :: after.flatMap (fun x => x.valuesOf k) := by
      rw [hstack, flatMap_append, flatMap_cons, hws]
      simp
    have hrest : ∀ x ∈ after.flatMap (fun x => x.valuesOf k), x.Leaves path := by
      intro x hx
      obtain ⟨y, hy, hxy⟩ := mem_flatMap.mp hx
      exact (hafter y hy).valuesOf hxy
    rw [(merged_rtakeWhile _).2 hne, unshadowed]
    rcases hs : (before ++ l :: after).rtakeWhile isObject with _ | ⟨u, us⟩
    · exact absurd hs hne
    · rw [hs] at hall hflat
      have hvalues := valuesOf_foldl (hall u mem_cons_self) (forall_mem_cons.mp hall).2 k
      have hstep := @ih ((before.rtakeWhile isObject).flatMap (fun x => x.valuesOf k) ++ ws) _ _ hw hrest
      rw [← hflat, flatMap_cons] at hstep
      simp only [merged, Option.bind_some]
      rw [lookup_cons, hvalues]
      rcases hu : u.valuesOf k with _ | ⟨a, _ | ⟨c, cs⟩⟩
      · rw [if_neg (by simp), flatMap_cons, ← hstep, hu]
        rw [flatMap_cons, hu] at hflat
        generalize us.flatMap (fun x => x.valuesOf k) = values at hflat ⊢
        cases values with
        | nil => exact absurd hflat.symm (by simp)
        | cons d ds => simp [fuse, merged]
      · rw [if_neg (by simp), flatMap_cons, ← hstep, hu]
        simp [fuse, merged]
      · rw [if_pos (by simp), lookup_cons, hu]
        simp [fuse]

end Config

namespace ConfigBuilder

open Config

/-- A call that adds a layer merges it. -/
theorem add_of_layer {C : CaseMap} {b : ConfigBuilder} {s : Source} {x : Value} (h : s.layer C = .ok x) :
    b.add C s = .ok ⟨merge b.value x⟩ := by
  cases s with
  | file path read =>
    have hread : loadFile path read = .ok x := h
    rw [add, mergeFile, hread]
    rfl
  | _ =>
    cases h
    rfl

/-- The calls that add layers merge them one after the other. -/
theorem addAll_of_layers {C : CaseMap} {b : ConfigBuilder} {sources : List Source} {layers : List Value}
    (h : List.Forall₂ (fun s x => s.layer C = .ok x) sources layers) :
    b.addAll C sources = .ok ⟨layers.foldl merge b.value⟩ := by
  induction h generalizing b with
  | nil => rfl
  | cons hx _ ih =>
    rw [addAll, add_of_layer hx]
    exact ih

end ConfigBuilder

/-! ## Files -/

namespace Config

open Value

/-- A file that says nothing is loaded as null. -/
theorem loadFile_of_blank {file : Str} {format : FileFormat} {bytes : Bytes} (hformat : fileFormat file = some format)
    (hblank : isBlank format bytes = true) : loadFile file (.ok bytes) = .ok .null := by
  rw [loadFile, hformat]
  cases format with
  | json | properties => cases hblank
  | yaml =>
    rw [isBlank, beq_iff_eq, Option.map_eq_some_iff] at hblank
    obtain ⟨text, htext, hlines⟩ := hblank
    simp only [parseFile, parseText, htext, Yaml.fromStr, hlines, codecResult]
  | xml =>
    rw [isBlank] at hblank
    cases htext : fromUtf8 bytes with
    | none =>
      rw [htext] at hblank
      cases hblank
    | some text =>
      rw [htext] at hblank
      simp only [parseFile, parseText, htext]
      split at hblank
      · next hnull => rw [Option.some.inj hnull, codecResult]
      · cases hblank

/-- A file that loads replaces everything with null if it says nothing, and else has a layer to merge. -/
theorem loads_of_mergeFile {b b' : ConfigBuilder} {file : Str} {bytes : Bytes} (h : b.mergeFile file (.ok bytes) = .ok b') :
    (isBlankFile file bytes = true ∧ b' = ⟨.null⟩) ∨
      (isBlankFile file bytes = false ∧ ∃ layer, document file bytes = some layer ∧ b' = ⟨merge b.value layer⟩) := by
  obtain ⟨layer, hlayer, rfl⟩ := map_eq_ok.mp h
  cases hblank : isBlankFile file bytes with
  | true =>
    obtain ⟨format, hformat, hnone⟩ := (Option.any_eq_true _ _).mp hblank
    rw [loadFile_of_blank hformat hnone] at hlayer
    cases hlayer
    exact .inl ⟨rfl, by rw [ConfigBuilder.mergeValue, merge_scalar rfl]⟩
  | false =>
    refine .inr ⟨rfl, layer, ?_, rfl⟩
    rw [document, hblank, hlayer]
    rfl

/-- Nothing but null itself is seen in null. -/
theorem lookup_null {path : List Str} {w : Value} (h : Value.null.lookup path = some w) : path = [] := by
  cases path with
  | nil => rfl
  | cons k path => cases h

end Config

end Ferroly
