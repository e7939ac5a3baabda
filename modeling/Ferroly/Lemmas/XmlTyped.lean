import Ferroly.Codec.XmlTyped
import Ferroly.Lemmas.TypedRoundTrip
import Ferroly.Lemmas.XmlProject

/-!
# Typed values read back from XML

What the elements of a typed value are read as, kind by kind, and when the decoder makes the value of it again.
-/

namespace Ferroly.Xml

open List Fmt

variable {g : Data → Value} {o : Object} {ds : List Data} {plan : List Slot} {fields : Ty → Value → Res Data}

section Typed

variable (D : F64Display) (Γ : Env)

/-- What the elements of a value are read as. -/
def read (d : Data) : Value := collapse (elementValues D (d.encode Γ))

/-! ## Elements -/

theorem elements_pos (d : Data) : 0 < elements d := by
  induction d using Data.ind with
  | some d ih => rwa [elements]
  | vec ds ih =>
    cases ds with
    | nil => exact Nat.one_pos
    | cons d ds => exact Nat.add_pos_left (ih d mem_cons_self) _
  | _ => exact Nat.one_pos

/-- A vector has as many elements as items only if each item is one element. -/
theorem lt_itemElements (h : ∃ d ∈ ds, elements d ≠ 1) : ds.length < itemElements ds := by
  have hle : ∀ es : List Data, es.length ≤ itemElements es := by
    intro es
    induction es with
    | nil => exact Nat.zero_le _
    | cons e es ih =>
      have := elements_pos e
      rw [itemElements, length_cons]
      omega
  induction ds with
  | nil => simp at h
  | cons d ds ih =>
    have hpos := elements_pos d
    have hds := hle ds
    rw [itemElements, length_cons]
    by_cases hd : elements d = 1
    · have := ih (by simpa [hd] using h)
      omega
    · omega

theorem elementValues_ne_nil (v : Value) : elementValues D v ≠ [] := by
  induction v using Value.ind with
  | array a ih =>
    rw [elementValues]
    cases a with
    | nil => exact cons_ne_nil _ _
    | cons v a =>
      exact append_ne_nil_of_left_ne_nil (ih v mem_cons_self) _
  | object o ih => exact cons_ne_nil _ _
  | _ => exact cons_ne_nil _ _

variable {Γ} {t : Ty} {d : Data}

theorem length_itemValues (h : ∀ d ∈ ds, (elementValues D (d.encode Γ)).length = elements d) :
    (itemValues D (Data.encodeSeq Γ ds)).length = itemElements ds := by
  induction ds with
  | nil => rfl
  | cons d ds ih =>
    rw [Data.encodeSeq, itemValues, itemElements, length_append, h d mem_cons_self, ih (forall_mem_cons.mp h).2]

theorem length_elementValues (h : Holds Γ t d) : (elementValues D (d.encode Γ)).length = elements d := by
  induction h with
  | bool | int | uint | string | none | struct => rfl
  | some h ih => exact ih
  | @vec t ds h ih =>
    cases ds with
    | nil => rfl
    | cons d ds => exact length_itemValues D ih

/-- A value of one element is that element. -/
theorem elementValues_eq (h : Holds Γ t d) (hd : elements d = 1) : elementValues D (d.encode Γ) = [read D Γ d] := by
  obtain ⟨w, hw⟩ := length_eq_one_iff.mp ((length_elementValues D h).trans hd)
  rw [read, hw, collapse]

theorem itemValues_eq (h : ∀ d ∈ ds, Holds Γ t d) (hds : ∀ d ∈ ds, elements d = 1) :
    itemValues D (Data.encodeSeq Γ ds) = ds.map (read D Γ) := by
  induction ds with
  | nil => rfl
  | cons d ds ih =>
    rw [Data.encodeSeq, itemValues, elementValues_eq D (h d mem_cons_self) (hds d mem_cons_self),
      ih (forall_mem_cons.mp h).2 (forall_mem_cons.mp hds).2, map_cons,
      singleton_append]

theorem collapse_of_two {vs : List Value} (h : 2 ≤ vs.length) : collapse vs = .array vs := by
  match vs with
  | [] => cases h
  | [v] => cases h with | step h => cases h
  | v :: w :: vs => rfl

/-- What the elements of a vector are read as: an array, if there are at least two of them. -/
theorem read_vec (h : ∀ d ∈ ds, Holds Γ t d) (hlen : 2 ≤ itemElements ds) :
    read D Γ (.vec ds) = .array (itemValues D (Data.encodeSeq Γ ds)) := by
  have hlength := length_itemValues D (fun d hd => length_elementValues D (h d hd))
  cases ds with
  | nil => cases hlen
  | cons d ds =>
    exact collapse_of_two (hlength ▸ hlen)

theorem read_vec_one : read D Γ (.vec [d]) = read D Γ d := by
  rw [read, Data.encode, elementValues, Data.encodeSeq, Data.encodeSeq, isEmpty_cons, if_neg Bool.false_ne_true, itemValues,
    itemValues, append_nil, read]

/-! ## Structs -/

theorem group_append {a b : Object} (h : ∀ e ∈ a, e.1 ∉ b.map Prod.fst) : group (a ++ b) = group a ++ group b := by
  have hkeys : (b.map Prod.fst).removeAll (a.map Prod.fst) = b.map Prod.fst := by
    rw [List.removeAll, filter_eq_self]
    intro k hk
    have hnot : k ∉ a.map Prod.fst := by
      rw [mem_map]
      rintro ⟨e, he, rfl⟩
      exact h e he hk
    simpa using hnot
  rw [group, map_append, eraseDups_append, hkeys, map_append]
  refine congrArg₂ _ (map_congr_left fun k hk => ?_) (map_congr_left fun k hk => ?_)
  · obtain ⟨e, he, rfl⟩ := mem_map.mp (mem_eraseDups.mp hk)
    have hb : b.filter (fun e' => e'.1 == e.1) = [] := by
      rw [filter_eq_nil_iff]
      intro e' he' heq
      exact h e he (mem_map.mpr ⟨e', he', beq_iff_eq.mp heq⟩)
    rw [filter_append, hb, append_nil]
  · have ha : a.filter (fun e => e.1 == k) = [] := by
      rw [filter_eq_nil_iff]
      intro e he heq
      exact h e he (beq_iff_eq.mp heq ▸ mem_eraseDups.mp hk)
    rw [filter_append, ha, nil_append]

theorem group_single {k : Str} {vs : List Value} (h : vs ≠ []) : group (vs.map (fun v => (k, v))) = [(k, collapse vs)] := by
  obtain ⟨v, vs, rfl⟩ := exists_cons_of_ne_nil h
  have hkeys : (((v :: vs).map (fun v => (k, v))).map Prod.fst).eraseDups = [k] := by
    simp [eraseDups_cons]
  have hvalues : ((v :: vs).map (fun v => (k, v))).filter (fun e => e.1 == k) = (v :: vs).map (fun v => (k, v)) := by
    simp
  rw [group, hkeys, map_singleton, hvalues]
  simp

theorem fst_mem_of_mem_entryValues {e : Str × Value} (h : e ∈ entryValues D o) : e.1 ∈ o.map Prod.fst := by
  induction o with
  | nil => exact absurd h not_mem_nil
  | cons e' o ih =>
    rcases mem_append.mp h with h | h
    · obtain ⟨w, -, rfl⟩ := mem_map.mp h
      exact mem_cons_self
    · exact mem_cons_of_mem _ (ih h)

/-- Distinct keys stay apart. -/
theorem group_entryValues (hk : (o.map Prod.fst).Nodup) :
    group (entryValues D o) = o.map (fun e => (e.1, collapse (elementValues D e.2))) := by
  induction o with
  | nil => rfl
  | cons e o ih =>
    obtain ⟨hnew, hk⟩ := nodup_cons.mp hk
    rw [entryValues, group_append, group_single (elementValues_ne_nil D e.2), ih hk, map_cons, singleton_append]
    intro e' he' hmem
    obtain ⟨w, -, rfl⟩ := mem_map.mp he'
    obtain ⟨e'', he'', heq⟩ := mem_map.mp hmem
    exact hnew (heq ▸ fst_mem_of_mem_entryValues D he'')

theorem entryValues_eq_nil : entryValues D o = [] ↔ o = [] := by
  cases o with
  | nil => exact ⟨fun _ => rfl, fun _ => rfl⟩
  | cons e o =>
    refine iff_of_false (fun h => ?_) (cons_ne_nil _ _)
    rw [entryValues, append_eq_nil_iff, map_eq_nil_iff] at h
    exact elementValues_ne_nil D e.2 h.1

theorem fieldEntries_eq_nil : fieldEntries g plan ds = [] ↔ skipsAll plan ds = true := by
  rw [fieldEntries, map_eq_nil_iff, skipsAll]
  simp

theorem fieldEntries_keys (hl : ds.length = plan.length) (hk : (plan.map Slot.key).Nodup) :
    ((fieldEntries g plan ds).map Prod.fst).Nodup := by
  have hkeys : (plan.zip ds).map (Slot.key ∘ Prod.fst) = plan.map Slot.key := by
    rw [← map_map, map_fst_zip (Nat.le_of_eq hl.symm)]
  rw [fieldEntries, map_map]
  exact (hkeys ▸ hk).sublist (filter_sublist.map _)

/-- A struct is read as its fields, those that are left out apart, or as null if all are. -/
theorem read_struct {name : String} (hl : ds.length = (Γ.plan name).length) (hk : ((Γ.plan name).map Slot.key).Nodup) :
    read D Γ (.struct name ds) =
      if skipsAll (Γ.plan name) ds then .null else .object (fieldEntries (read D Γ) (Γ.plan name) ds) := by
  have hnil : (entryValues D (Data.encodeFields Γ (Γ.plan name) ds) = []) ↔ skipsAll (Γ.plan name) ds = true := by
    rw [entryValues_eq_nil, encodeFields_eq, fieldEntries_eq_nil]
  rw [read, Data.encode, elementValues, childrenValue]
  simp only [hnil]
  split
  · rfl
  · rw [encodeFields_eq, group_entryValues D (fieldEntries_keys hl hk), fieldEntries, map_map]
    rfl

/-! ## Scalars -/

theorem textValue_number {s : Str} (hne : s ≠ []) (h : ∀ c ∈ s, isNumberChar c = true) : textValue s = .str s := by
  have htrim : trim s = s := trim_of_forall_not (fun c hc => not_isWhitespace_of_isNumberChar (h c hc))
  rw [textValue, htrim, if_neg hne]

theorem read_int (i : I64) : read D Γ (.int i) = .str (Fmt.signText i ++ Nat.toDigits 10 i.val.natAbs) := by
  have htext : scalarText D (.int i) = Fmt.signText i ++ Nat.toDigits 10 i.val.natAbs := writeI64_eq [] i
  have hne : Fmt.signText i ++ Nat.toDigits 10 i.val.natAbs ≠ [] := append_ne_nil_of_right_ne_nil _ Nat.toDigits_ne_nil
  refine Eq.trans (congrArg textValue htext) (textValue_number hne ?_)
  rw [signText_eq_plainText]
  exact isNumberChar_plainText (isDigit_toDigits _) (by simp)

theorem read_uint (u : U64) : read D Γ (.uint u) = .str (Nat.toDigits 10 u.val) := by
  have htext : scalarText D (.uint u) = Nat.toDigits 10 u.val := writeU64_eq [] u
  refine Eq.trans (congrArg textValue htext) (textValue_number Nat.toDigits_ne_nil ?_)
  exact fun c hc => isNumberChar_of_isDigit (isDigit_toDigits _ c hc)

theorem read_bool (b : Bool) : read D Γ (.bool b) = .str (if b then "true".toList else "false".toList) := by
  cases b with
  | true => rfl
  | false => rfl

theorem read_str (s : Str) : read D Γ (.str s) = textValue s := rfl

/-! ## Blank values -/

/-- The blank values are read as null. -/
theorem read_eq_null (h : Holds Γ t d) : read D Γ d = .null ↔ isBlank Γ d = true := by
  induction h with
  | bool b =>
    rw [read_bool]
    refine iff_of_false ?_ ?_ <;> rintro ⟨⟩
  | @int w i h =>
    rw [read_int]
    refine iff_of_false ?_ ?_ <;> rintro ⟨⟩
  | @uint w u h =>
    rw [read_uint]
    refine iff_of_false ?_ ?_ <;> rintro ⟨⟩
  | string s =>
    rw [read_str, textValue, isBlank]
    split
    next hs => rw [hs]; exact ⟨fun _ => rfl, fun _ => rfl⟩
    next hs => exact iff_of_false (by rintro ⟨⟩) (by simpa using hs)
  | none => exact ⟨fun _ => rfl, fun _ => rfl⟩
  | some h ih => exact ih
  | @vec t ds h ih =>
    rw [isBlank]
    rcases ds with _ | ⟨d, _ | ⟨d', ds⟩⟩
    · exact ⟨fun _ => rfl, fun _ => rfl⟩
    · rw [read_vec_one]
      exact ih d mem_cons_self
    · have hlen : 2 ≤ itemElements (d :: d' :: ds) := by
        have := elements_pos d
        have := elements_pos d'
        rw [itemElements, itemElements]
        omega
      rw [read_vec D h hlen]
      refine iff_of_false ?_ ?_ <;> rintro ⟨⟩
  | @struct name ds hne hk hn hl h ih =>
    rw [read_struct D hl hk]
    split
    next hs => exact ⟨fun _ => hs, fun _ => rfl⟩
    next hs => exact iff_of_false (by rintro ⟨⟩) hs

/-! ## Decoding -/

theorem decode_text {w : IntTy} {i : I64} (h : w.inRange i = true) :
    decodeInt w (.str (Fmt.signText i ++ Nat.toDigits 10 i.val.natAbs)) = .ok i := by
  have htrim : trim (Fmt.signText i ++ Nat.toDigits 10 i.val.natAbs) = Fmt.signText i ++ Nat.toDigits 10 i.val.natAbs := by
    rw [signText_eq_plainText]
    exact trim_of_forall_not (fun c hc =>
      not_isWhitespace_of_isNumberChar (isNumberChar_plainText (isDigit_toDigits _) (by simp) c hc))
  simp only [decodeInt, htrim, parseI64_text]
  exact if_pos h

theorem decode_digits {w : UIntTy} {u : U64} (h : w.inRange u = true) : decodeUInt w (.str (Nat.toDigits 10 u.val)) = .ok u := by
  have htrim : trim (Nat.toDigits 10 u.val) = Nat.toDigits 10 u.val :=
    trim_of_forall_not (fun c hc => not_isWhitespace_of_isNumberChar (isNumberChar_of_isDigit (isDigit_toDigits _ c hc)))
  simp only [decodeUInt, htrim, parseU64_toDigits]
  exact if_pos h

theorem fieldsKept_iff : fieldsKept Γ plan ds = true ↔ ∀ p ∈ plan.zip ds, p.1.skips p.2 = false → isKept Γ p.2 = true := by
  induction ds generalizing plan with
  | nil => cases plan <;> simp [fieldsKept]
  | cons d ds ih =>
    cases plan with
    | nil => simp [fieldsKept]
    | cons f plan =>
      rw [fieldsKept, Bool.and_eq_true, ih, zip_cons_cons, forall_mem_cons]
      cases f.skips d <;> simp

theorem itemsKept_iff : itemsKept Γ ds = true ↔ ∀ d ∈ ds, elements d = 1 ∧ isKept Γ d = true := by
  induction ds with
  | nil => simp [itemsKept]
  | cons d ds ih => simp [itemsKept, ih]

theorem decodeOption_of_ne {v : Value} (hv : v ≠ .null) :
    decodeTy .tolerant Γ fields (.option t) v = (decodeTy .tolerant Γ fields t v).map .some := by
  cases v with
  | null => exact absurd rfl hv
  | _ => rfl

theorem decodeVec_of_single {v : Value} (hv : v ≠ .null) (hsingle : isSingle v = true) :
    decodeTy .tolerant Γ fields (.vec t) v = (decodeTy .tolerant Γ fields t v).map (fun d => .vec [d]) := by
  cases v with
  | null => exact absurd rfl hv
  | array a => cases hsingle
  | _ => rfl

theorem decodeVec_array {a : List Value} :
    decodeTy .tolerant Γ fields (.vec t) (.array a) = .ok (.vec ds) ↔ a.mapM (decodeTy .tolerant Γ fields t) = .ok ds := by
  show (a.mapM (decodeTy .tolerant Γ fields t)).map Data.vec = _ ↔ _
  simp only [map_eq_ok, Data.vec.injEq, exists_eq_right]

/-- A vector is read back if its items are, and each is one element. -/
theorem decodeVec_iff (h : ∀ d ∈ ds, Holds Γ t d)
    (ih : ∀ d ∈ ds, elements d = 1 → (decodeTy .tolerant Γ fields t (read D Γ d) = .ok d ↔ isKept Γ d = true)) :
    decodeTy .tolerant Γ fields (.vec t) (read D Γ (.vec ds)) = .ok (.vec ds) ↔ isKept Γ (.vec ds) = true := by
  rw [isKept, Bool.and_eq_true, itemsKept_iff]
  by_cases hone : ∀ d ∈ ds, elements d = 1
  · match ds, h, ih, hone with
    | [], _, _, _ => exact iff_of_true rfl ⟨nofun, rfl⟩
    | [d], h, ih, hone =>
      have hd := hone d mem_cons_self
      have hsingle : isSingle (read D Γ d) = true := by
        refine isSingle_elementValues D (d.encode Γ) _ ?_
        rw [elementValues_eq D (h d mem_cons_self) hd]
        exact mem_cons_self
      have hnull := read_eq_null D (h d mem_cons_self)
      rw [read_vec_one, itemsBlank]
      by_cases hblank : isBlank Γ d = true
      · rw [hnull.mpr hblank, hblank]
        exact iff_of_false (by rintro ⟨⟩) (by rintro ⟨-, ⟨⟩⟩)
      · have hone : ∀ x, Data.vec [x] = Data.vec [d] ↔ x = d := by simp
        rw [decodeVec_of_single (mt hnull.mp hblank) hsingle, map_eq_ok]
        simp only [hone, exists_eq_right, ih d mem_cons_self hd]
        simp [hd, hblank]
    | d :: d' :: ds, h, ih, hone =>
      have hlen : 2 ≤ itemElements (d :: d' :: ds) := by
        rw [itemElements, itemElements, hone d (by simp), hone d' (by simp)]
        omega
      rw [read_vec D h hlen, itemValues_eq D h hone, decodeVec_array, mapM_map_eq_ok]
      constructor
      · exact fun hdec => ⟨fun e he => ⟨hone e he, (ih e he (hone e he)).mp (hdec e he)⟩, rfl⟩
      · exact fun hkept e he => (ih e he (hone e he)).mpr (hkept.1 e he).2
  · have hlt := lt_itemElements (by simpa using hone)
    have hlen : 2 ≤ itemElements ds := by
      cases ds with
      | nil => exact absurd nofun hone
      | cons d ds =>
        rw [length_cons] at hlt
        omega
    refine iff_of_false (fun hdec => ?_) (fun hkept => hone (fun d hd => (hkept.1 d hd).1))
    rw [read_vec D h hlen, decodeVec_array, mapM_eq_ok] at hdec
    have := hdec.length_eq
    rw [length_itemValues D (fun d hd => length_elementValues D (h d hd))] at this
    omega

theorem mem_itemValues (hd : d ∈ ds) {w : Value} (hw : w ∈ elementValues D (d.encode Γ)) :
    w ∈ itemValues D (Data.encodeSeq Γ ds) := by
  induction ds with
  | nil => exact absurd hd not_mem_nil
  | cons e ds ih =>
    rw [Data.encodeSeq, itemValues, mem_append]
    rcases mem_cons.mp hd with rfl | hd
    · exact .inl hw
    · exact .inr (ih hd)

/-- An item is no deeper than its vector. -/
theorem depth_read_le (h : Holds Γ t d) (hone : elements d = 1) (hd : d ∈ ds) : (read D Γ d).depth ≤ (read D Γ (.vec ds)).depth := by
  have hmem : read D Γ d ∈ itemValues D (Data.encodeSeq Γ ds) := by
    refine mem_itemValues D hd ?_
    rw [elementValues_eq D h hone]
    exact mem_cons_self
  have hvec : elementValues D ((Data.vec ds).encode Γ) = itemValues D (Data.encodeSeq Γ ds) := by
    cases ds with
    | nil => exact absurd hd not_mem_nil
    | cons e ds => rfl
  rw [read, read, hvec]
  rw [read] at hmem
  generalize itemValues D (Data.encodeSeq Γ ds) = vs at hmem
  match vs, hmem with
  | [w], hmem => rw [mem_singleton.mp hmem, collapse]
  | v :: w :: vs, hmem =>
    exact Nat.le_succ_of_le (Value.depthList_le.mp (Nat.le_refl _) _ hmem)

theorem Holds.hasType (h : Holds Γ t d) : HasType Γ t d := by
  induction h with
  | bool b => exact .bool b
  | int h => exact .int h
  | uint h => exact .uint h
  | string s => exact .string s
  | none t => exact .none t
  | some _ ih => exact .some ih
  | vec _ ih => exact .vec ih
  | struct _ _ _ hl _ ih => exact .struct hl ih

theorem mem_fieldEntries {p : Slot × Data} (hp : p ∈ plan.zip ds) (hs : p.1.skips p.2 = false) :
    (p.1.key, g p.2) ∈ fieldEntries g plan ds :=
  mem_map.mpr ⟨p, mem_filter.mpr ⟨hp, by rw [hs]; rfl⟩, rfl⟩

/-- The decoder makes a value again of what its elements are read as exactly if XML keeps the value. -/
theorem decodeTy_read_iff (h : Holds Γ t d) {fuel : Nat} (hf : (read D Γ d).depth ≤ fuel) :
    decodeTy .tolerant Γ (decodeFuel .tolerant Γ fuel) t (read D Γ d) = .ok d ↔ isKept Γ d = true := by
  induction h generalizing fuel with
  | bool b =>
    refine iff_of_true ?_ rfl
    cases b with
    | true => rfl
    | false => rfl
  | @int w i h =>
    rw [read_int]
    refine iff_of_true ?_ rfl
    show Res.ofExcept ((decodeInt w _).map Data.int) = _
    rw [decode_text h]
    rfl
  | @uint w u h =>
    rw [read_uint]
    refine iff_of_true ?_ rfl
    show Res.ofExcept ((decodeUInt w _).map Data.uint) = _
    rw [decode_digits h]
    rfl
  | string s =>
    rw [read_str, textValue, isKept, Bool.and_eq_true, beq_iff_eq, Bool.not_eq_true', isEmpty_eq_false_iff]
    split
    next hs =>
      refine iff_of_false (by rintro ⟨⟩) (fun h => h.2 ?_)
      rw [← h.1, hs]
    next hs =>
      show (Except.ok (Data.str (trim s)) : Res Data) = .ok (.str s) ↔ _
      rw [Except.ok.injEq, Data.str.injEq]
      refine ⟨fun h => ⟨h, fun he => hs ?_⟩, fun h => h.1⟩
      rw [he]
      rfl
  | none => exact iff_of_true rfl rfl
  | @some t d h ih =>
    have hread : read D Γ (.some d) = read D Γ d := rfl
    have hnull := read_eq_null D h
    rw [hread] at hf ⊢
    rw [isKept, Bool.and_eq_true, ← ih hf]
    by_cases hblank : isBlank Γ d = true
    · rw [hnull.mpr hblank, hblank]
      exact iff_of_false (by rintro ⟨⟩) (by rintro ⟨-, ⟨⟩⟩)
    · rw [decodeOption_of_ne (mt hnull.mp hblank), map_eq_ok]
      simp [hblank]
  | @vec t ds h ih =>
    exact decodeVec_iff D h (fun d hd hone => ih d hd (Nat.le_trans (depth_read_le D (h d hd) hone hd) hf))
  | @struct name ds hne hk hn hl h ih =>
    rw [read_struct D hl hk] at hf ⊢
    rw [isKept, Bool.and_eq_true]
    cases hs : skipsAll (Γ.plan name) ds with
    | true => exact iff_of_false (by rintro ⟨⟩) (by rintro ⟨⟨⟩, -⟩)
    | false =>
      rw [hs, if_neg Bool.false_ne_true, Value.depth] at hf
      rcases fuel with _ | fuel
      · omega
      rw [if_neg Bool.false_ne_true, decodeStruct_iff hl hk (fun p hp hs => none_of_skips (h p hp).hasType hs), fieldsKept_iff]
      have hfield : ∀ p ∈ (Γ.plan name).zip ds, p.1.skips p.2 = false →
          (decodeFuel .tolerant Γ (fuel + 1) p.1.ty (read D Γ p.2) = .ok p.2 ↔ isKept Γ p.2 = true) := by
        intro p hp hskip
        have hdepth : (read D Γ p.2).depth ≤ _ :=
          Value.depthEntries_le.mp (Nat.le_refl _) _ (mem_fieldEntries (g := read D Γ) hp hskip)
        exact ih p hp (by omega)
      constructor
      · exact fun hdec => ⟨rfl, fun p hp hskip => (hfield p hp hskip).mp (hdec p hp hskip)⟩
      · exact fun hkept p hp hskip => (hfield p hp hskip).mpr (hkept.2 p hp hskip)

/-! ## Names -/

theorem itemsHaveNames_iff {a : List Value} : itemsHaveNames a = true ↔ ∀ v ∈ a, keysAreNames v = true := by
  induction a with
  | nil => simp [itemsHaveNames]
  | cons v a ih => simp [itemsHaveNames, ih]

theorem entriesHaveNames_iff : entriesHaveNames o = true ↔ ∀ e ∈ o, isName e.1 = true ∧ keysAreNames e.2 = true := by
  induction o with
  | nil => simp [entriesHaveNames]
  | cons e o ih => simp [entriesHaveNames, ih]

theorem keysAreNames_encode (h : Holds Γ t d) : keysAreNames (d.encode Γ) = true := by
  induction h with
  | bool | int | uint | string | none => rfl
  | some h ih => exact ih
  | @vec t ds h ih =>
    rw [Data.encode, keysAreNames, itemsHaveNames_iff, Data.encodeSeq_eq_map, forall_mem_map]
    exact ih
  | @struct name ds hne hk hn hl h ih =>
    rw [Data.encode, keysAreNames, entriesHaveNames_iff]
    intro e he
    obtain ⟨p, hp, -, rfl⟩ := mem_encodeFields.mp he
    exact ⟨hn p.1 (of_mem_zip hp).1, ih p hp⟩

end Typed

end Ferroly.Xml
