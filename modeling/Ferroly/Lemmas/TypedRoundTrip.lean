import Ferroly.Lemmas.Decode

/-!
# Encoding and decoding trees

Decoding the tree of a typed value, with its integers as a text codec reads them, gives the value back.
-/

namespace Ferroly

open List Value

variable {x : Data} {g : Data → Value} {Γ : Env} {es : List (Str × Data)} {ds : List Data}

/-! ## Depth of the tree -/

theorem Data.depthSeq_le {n : Nat} : Data.depthSeq ds ≤ n ↔ ∀ d ∈ ds, d.depth ≤ n := by
  induction ds with
  | nil => simp [Data.depthSeq]
  | cons d ds ih => simp [Data.depthSeq, ih]

theorem Data.depthMap_le {n : Nat} : Data.depthMap es ≤ n ↔ ∀ e ∈ es, e.2.depth ≤ n := by
  induction es with
  | nil => simp [Data.depthMap]
  | cons e es ih =>
    obtain ⟨k, d⟩ := e
    simp [Data.depthMap, ih]

theorem Data.encodeSeq_eq_map : Data.encodeSeq Γ ds = ds.map (Data.encode Γ) := by
  induction ds with
  | nil => rfl
  | cons d ds ih => rw [Data.encodeSeq, ih, map_cons]

theorem Data.encodeMap_eq_map : Data.encodeMap Γ es = es.map (fun e => (e.1, e.2.encode Γ)) := by
  induction es with
  | nil => rfl
  | cons e es ih =>
    obtain ⟨k, d⟩ := e
    rw [Data.encodeMap, ih, map_cons]

/-- The entries of a struct's tree are its fields, those that are skipped apart. -/
theorem mem_encodeFields {plan : List Slot} {e : Str × Value} :
    e ∈ Data.encodeFields Γ plan ds ↔ ∃ p ∈ plan.zip ds, p.1.skips p.2 = false ∧ e = (p.1.key, p.2.encode Γ) := by
  induction ds generalizing plan with
  | nil => cases plan <;> simp [Data.encodeFields]
  | cons d ds ih =>
    cases plan with
    | nil => simp [Data.encodeFields]
    | cons f plan =>
      rw [Data.encodeFields_cons, zip_cons_cons]
      simp only [mem_cons, exists_eq_or_imp, ← ih]
      cases f.skips d <;> simp

/-- The tree of a value nests no deeper than the value. -/
theorem Data.depth_encode_le (Γ : Env) (x : Data) : (x.encode Γ).depth ≤ x.depth := by
  induction x using Data.ind with
  | bool | int | uint | f32 | f64 | char | unit | value | str | none | enum => simp [Data.encode, Data.depth, Value.depth]
  | some d ih | boxed d ih => simpa only [Data.encode, Data.depth] using ih
  | vec ds ih =>
    rw [Data.encode, Data.depth, Value.depth, Nat.add_le_add_iff_right, depthList_le, Data.encodeSeq_eq_map]
    intro v hv
    obtain ⟨d, hd, rfl⟩ := mem_map.mp hv
    exact Nat.le_trans (ih d hd) (Data.depthSeq_le.mp (Nat.le_refl _) d hd)
  | map es ih =>
    rw [Data.encode, Data.depth, Value.depth, Nat.add_le_add_iff_right, depthEntries_le, Data.encodeMap_eq_map]
    intro e he
    obtain ⟨e', he', rfl⟩ := mem_map.mp he
    exact Nat.le_trans (ih e' he') (Data.depthMap_le.mp (Nat.le_refl _) e' he')
  | struct name ds ih =>
    rw [Data.encode, Data.depth, Value.depth, Nat.add_le_add_iff_right, depthEntries_le]
    intro e he
    obtain ⟨p, hp, -, rfl⟩ := mem_encodeFields.mp he
    have hd := (of_mem_zip hp).2
    exact Nat.le_trans (ih p.2 hd) (Data.depthSeq_le.mp (Nat.le_refl _) p.2 hd)

/-! ## Plain trees -/

theorem Data.allFinite_iff : Data.allFinite ds = true ↔ ∀ d ∈ ds, d.isFinite = true := by
  induction ds with
  | nil => simp [Data.allFinite]
  | cons d ds ih => simp [Data.allFinite, ih]

theorem Data.entriesFinite_iff : Data.entriesFinite es = true ↔ ∀ e ∈ es, e.2.isFinite = true := by
  induction es with
  | nil => simp [Data.entriesFinite]
  | cons e es ih =>
    obtain ⟨k, d⟩ := e
    simp [Data.entriesFinite, ih]

/-- Every type inside of this one is readable back. -/
def Ty.AllReadable (Γ : Env) (t : Ty) : Prop := ∀ u, t.Reaches Γ u → u.IsReadable Γ

/-- The tree of a readable value with finite floats is one text can show. -/
theorem isPlain_encode {t : Ty} (h : HasType Γ t x) (ht : t.AllReadable Γ) (hf : x.isFinite = true) :
    (x.encode Γ).isPlain = true := by
  induction h with
  | bool | int | uint | char | unit | string | none | enum => rfl
  | value v => exact (ht _ (.refl _)).elim
  | f32 x => exact Flt.isFinite_convert hf
  | f64 x => exact hf
  | some h ih => exact ih (fun u hu => ht u (.option hu)) hf
  | boxed h ih => exact ih (fun u hu => ht u (.box hu)) hf
  | vec h ih =>
    rw [Data.encode, Value.isPlain, allPlain_iff, Data.encodeSeq_eq_map, forall_mem_map]
    exact fun d hd => ih d hd (fun u hu => ht u (.vec hu)) (Data.allFinite_iff.mp hf d hd)
  | map hk h ih =>
    rw [Data.encode, Value.isPlain, entriesPlain_iff, Data.encodeMap_eq_map, forall_mem_map]
    exact fun e he => ih e he (fun u hu => ht u (.map hu)) (Data.entriesFinite_iff.mp hf e he)
  | @struct name ds hl h ih =>
    rw [Data.encode, Value.isPlain, entriesPlain_iff]
    intro e he
    obtain ⟨p, hp, -, rfl⟩ := mem_encodeFields.mp he
    obtain ⟨hf', hd⟩ := of_mem_zip hp
    exact ih p hp (fun u hu => ht u (.field hf' hu)) (Data.allFinite_iff.mp hf p.2 hd)

/-! ## Decoding what was encoded -/

/-- A type that is never null encodes to something else, also with integers as numbers. -/
theorem norm_encode_ne_null {t : Ty} (h : HasType Γ t x) (ht : t.neverNull = true) : (x.encode Γ).norm ≠ .null := by
  induction h with
  | unit | value | none | some => cases ht
  | boxed h ih => exact ih ht
  | uint =>
    rw [Data.encode, Value.norm]
    split <;> exact Value.noConfusion
  | _ => exact Value.noConfusion

theorem decodeUInt_norm {w : UIntTy} {u : U64} (h : w.inRange u = true) : decodeUInt w (Value.uint u).norm = .ok u := by
  rw [Value.norm]
  split
  next hlt =>
    have h0 : (0 : Int) ≤ (u.toI64 hlt).val := Int.natCast_nonneg _
    have he : ∀ p, (⟨(u.toI64 hlt).val.toNat, p⟩ : U64) = u := fun _ => Subtype.ext (Int.toNat_natCast _)
    simp only [decodeUInt, dif_pos h0, he]
    simp [h, pure, Except.pure, bind, Except.bind]
  next => simp [decodeUInt, h, pure, Except.pure, bind, Except.bind]

theorem mapM_map_eq_ok {dec : Value → Res Data} : (ds.map g).mapM dec = .ok ds ↔ ∀ d ∈ ds, dec (g d) = .ok d := by
  rw [mapM_eq_ok, List.forall₂_map_left_iff, List.forall₂_same]

/-- New keys are appended in order. -/
theorem decodeEntries_map {dec : Value → Res Data} {acc : List (Str × Data)} (hdec : ∀ e ∈ es, dec (g e.2) = .ok e.2)
    (hk : ((acc ++ es).map Prod.fst).Nodup) : decodeEntries dec (es.map (fun e => (e.1, g e.2))) acc = .ok (acc ++ es) := by
  have hinsert : ∀ {k : Str} {d : Data} {acc : List (Str × Data)}, k ∉ acc.map Prod.fst → insertEntry k d acc = acc ++ [(k, d)] := by
    intro k d acc hk
    induction acc with
    | nil => rfl
    | cons a acc ih =>
      simp only [map_cons, mem_cons, not_or] at hk
      simp only [insertEntry, if_neg (Ne.symm hk.1), ih hk.2, cons_append]
  induction es generalizing acc with
  | nil => rw [append_nil]; rfl
  | cons e es ih =>
    have hnew : e.1 ∉ acc.map Prod.fst := by
      rw [map_append, nodup_append] at hk
      intro hmem
      exact hk.2.2 e.1 hmem e.1 (by simp) rfl
    rw [map_cons, decodeEntries, hdec e mem_cons_self]
    show decodeEntries dec _ (insertEntry e.1 e.2 acc) = _
    rw [hinsert hnew, ih (forall_mem_cons.mp hdec).2 (by simpa using hk)]
    simp

variable {f : Slot}

theorem slotOf_append {k : Str} {pre : List Slot} (post : List Slot) (hk : k ∉ pre.map Slot.key) (hf : f.key = k) :
    slotOf k (pre ++ f :: post) = some (pre.length, f.ty) := by
  induction pre with
  | nil => simp [slotOf, hf]
  | cons g pre ih =>
    simp only [map_cons, mem_cons, not_or] at hk
    simp [slotOf, Ne.symm hk.1, ih hk.2]

/-- The entries of a struct: its fields with what stands for them, those that are skipped apart. -/
def fieldEntries (g : Data → Value) (fs : List Slot) (ds : List Data) : List (Str × Value) :=
  ((fs.zip ds).filter (fun p => !p.1.skips p.2)).map (fun p => (p.1.key, g p.2))

theorem fieldEntries_cons (fs : List Slot) (d : Data) :
    fieldEntries g (f :: fs) (d :: ds) = if f.skips d then fieldEntries g fs ds else (f.key, g d) :: fieldEntries g fs ds := by
  rw [fieldEntries, zip_cons_cons, filter_cons]
  cases f.skips d with
  | true => rfl
  | false => rfl

theorem encodeFields_eq {fs : List Slot} : Data.encodeFields Γ fs ds = fieldEntries (Data.encode Γ) fs ds := by
  induction fs generalizing ds with
  | nil => rw [Data.encodeFields, fieldEntries] <;> simp
  | cons f fs ih =>
    cases ds with
    | nil => rw [Data.encodeFields, fieldEntries] <;> simp
    | cons d ds => rw [Data.encodeFields_cons, fieldEntries_cons, ih]

/-- What the entries of a struct put into its slots. -/
inductive Fills (g : Data → Value) (dec : Ty → Value → Res Data) : List Slot → List Data → List (Option Data) → Prop where
  | nil : Fills g dec [] [] []
  | skip {f : Slot} {d : Data} {fs : List Slot} {ds : List Data} {slots : List (Option Data)} : f.skips d = true →
      Fills g dec fs ds slots → Fills g dec (f :: fs) (d :: ds) (none :: slots)
  | read {f : Slot} {d d' : Data} {fs : List Slot} {ds : List Data} {slots : List (Option Data)} : f.skips d = false →
      dec f.ty (g d) = .ok d' → Fills g dec fs ds slots → Fills g dec (f :: fs) (d :: ds) (some d' :: slots)

/-- Reading the entries of a struct fills the slots of the fields that were written, in order. -/
theorem scanFields_ok_iff {g : Data → Value} {dec : Ty → Value → Res Data} {pre fs : List Slot} {ds : List Data}
    {done out : List (Option Data)} (hl : ds.length = fs.length) (hk : ((pre ++ fs).map Slot.key).Nodup)
    (hdone : done.length = pre.length) :
    scanFields (pre ++ fs) dec (fieldEntries g fs ds) (done ++ emptySlots fs) = .ok out ↔
      ∃ slots, out = done ++ slots ∧ Fills g dec fs ds slots := by
  induction fs generalizing pre ds done with
  | nil =>
    obtain rfl := eq_nil_of_length_eq_zero hl
    constructor
    · rintro h
      cases h
      exact ⟨[], rfl, .nil⟩
    · rintro ⟨slots, rfl, hfills⟩
      cases hfills
      rfl
  | cons f fs ih =>
    obtain ⟨d, ds, rfl⟩ := exists_cons_of_length_eq_add_one hl
    have hnext : ∀ o, scanFields (pre ++ f :: fs) dec (fieldEntries g fs ds) (done ++ o :: emptySlots fs) = .ok out ↔
        ∃ slots, out = done ++ o :: slots ∧ Fills g dec fs ds slots := by
      intro o
      have h := @ih (pre ++ [f]) ds (done ++ [o]) (by simpa using hl) (by simpa using hk) (by simp [hdone])
      simpa using h
    rw [fieldEntries_cons, show emptySlots (f :: fs) = none :: emptySlots fs from rfl]
    cases hs : f.skips d with
    | true =>
      rw [if_pos rfl, hnext]
      constructor
      · rintro ⟨slots, rfl, hfills⟩
        exact ⟨none :: slots, rfl, .skip hs hfills⟩
      · rintro ⟨slots, rfl, hfills⟩
        cases hfills with
        | skip _ hfills => exact ⟨_, rfl, hfills⟩
        | read hread => exact absurd (hs.symm.trans hread) Bool.noConfusion
    | false =>
      have hslot : slotOf f.key (pre ++ f :: fs) = some (pre.length, f.ty) := by
        refine slotOf_append fs (fun hmem => ?_) rfl
        rw [map_append, nodup_append] at hk
        exact hk.2.2 f.key hmem f.key (by simp) rfl
      have hset : ∀ d', (done ++ none :: emptySlots fs).set pre.length (some d') = done ++ some d' :: emptySlots fs := by
        intro d'
        rw [← hdone]
        simp
      rw [if_neg Bool.false_ne_true, scanFields, hslot]
      simp only [except_bind_eq_ok, hset, hnext]
      constructor
      · rintro ⟨d', hd, slots, rfl, hfills⟩
        exact ⟨some d' :: slots, rfl, .read hs hd hfills⟩
      · rintro ⟨slots, rfl, hfills⟩
        cases hfills with
        | skip hskip => exact absurd (hs.symm.trans hskip) Bool.noConfusion
        | read _ hd hfills => exact ⟨_, hd, _, rfl, hfills⟩

/-- The fields of a struct from its filled slots: a field was skipped only if it is an absent option. -/
theorem buildFields_ok_iff {dec : Ty → Value → Res Data} {plan : List Slot} (hl : ds.length = plan.length)
    (h : ∀ p ∈ plan.zip ds, p.1.skips p.2 = true → p.1.ty.isOption = true ∧ p.2 = .none) :
    (∃ slots, Fills g dec plan ds slots ∧ buildFields plan slots = .ok ds) ↔
      ∀ p ∈ plan.zip ds, p.1.skips p.2 = false → dec p.1.ty (g p.2) = .ok p.2 := by
  induction plan generalizing ds with
  | nil =>
    obtain rfl := eq_nil_of_length_eq_zero hl
    exact ⟨nofun, fun _ => ⟨[], .nil, rfl⟩⟩
  | cons f plan ih =>
    obtain ⟨d, ds, rfl⟩ := exists_cons_of_length_eq_add_one hl
    have hrest := ih (by simpa using hl) (forall_mem_cons.mp h).2
    have hcons : ∀ s slots, buildFields (f :: plan) (s :: slots) = .ok (d :: ds) ↔
        buildField f s = .ok d ∧ buildFields plan slots = .ok ds := by
      intro s slots
      rw [buildFields]
      cases buildField f s <;> cases buildFields plan slots <;> simp [bind, Except.bind, pure, Except.pure]
    rw [zip_cons_cons, forall_mem_cons, ← hrest]
    constructor
    · rintro ⟨slots, hfills, hbuild⟩
      cases hfills with
      | skip hskip hfills =>
        exact ⟨fun hs => absurd (hs.symm.trans hskip) Bool.noConfusion, _, hfills, ((hcons _ _).mp hbuild).2⟩
      | read hs hd hfills =>
        obtain ⟨hfield, hfields⟩ := (hcons _ _).mp hbuild
        cases hfield
        exact ⟨fun _ => hd, _, hfills, hfields⟩
    · rintro ⟨hd, slots, hfills, hbuild⟩
      cases hs : f.skips d with
      | true =>
        obtain ⟨ho, hnone⟩ := h (f, d) mem_cons_self hs
        refine ⟨none :: slots, .skip hs hfills, (hcons _ _).mpr ⟨?_, hbuild⟩⟩
        rw [buildField, if_pos ho]
        exact congrArg Except.ok hnone.symm
      | false => exact ⟨some d :: slots, .read hs (hd hs) hfills, (hcons _ _).mpr ⟨rfl, hbuild⟩⟩

/-- A struct is read back exactly if the fields that were written are. -/
theorem decodeStruct_iff {rule : VecRule} {dec : Ty → Value → Res Data} {name : String} (hl : ds.length = (Γ.plan name).length)
    (hk : ((Γ.plan name).map Slot.key).Nodup)
    (h : ∀ p ∈ (Γ.plan name).zip ds, p.1.skips p.2 = true → p.1.ty.isOption = true ∧ p.2 = .none) :
    decodeTy rule Γ dec (.struct name) (.object (fieldEntries g (Γ.plan name) ds)) = .ok (.struct name ds) ↔
      ∀ p ∈ (Γ.plan name).zip ds, p.1.skips p.2 = false → dec p.1.ty (g p.2) = .ok p.2 := by
  have hscan : ∀ out, scanFields (Γ.plan name) dec (fieldEntries g (Γ.plan name) ds) (emptySlots (Γ.plan name)) = .ok out ↔
      Fills g dec (Γ.plan name) ds out := by
    intro out
    have := @scanFields_ok_iff g dec [] (Γ.plan name) ds [] out hl hk rfl
    simpa using this
  rw [← buildFields_ok_iff hl h]
  show (scanFields (Γ.plan name) dec (fieldEntries g (Γ.plan name) ds) (emptySlots (Γ.plan name)) >>= fun slots =>
    Res.ofExcept (buildFields (Γ.plan name) slots) >>= fun ds' => pure (Data.struct name ds')) = _ ↔ _
  rw [except_bind_eq_ok]
  refine exists_congr (fun slots => and_congr (hscan slots) ?_)
  cases buildFields (Γ.plan name) slots <;> simp [Res.ofExcept, bind, Except.bind, pure, Except.pure]

/-- The key of a variant finds the variant. -/
theorem idxOf?_getD {keys : List Str} (hk : keys.Nodup) {i : Nat} (hi : i < keys.length) : keys.idxOf? (keys.getD i []) = some i := by
  induction keys generalizing i with
  | nil => cases hi
  | cons k keys ih =>
    rw [nodup_cons] at hk
    cases i with
    | zero => simp [idxOf?_cons]
    | succ i =>
      have hi' : i < keys.length := by simpa using hi
      have hne : (k == keys.getD i []) = false := by
        refine beq_false_of_ne (fun h => hk.1 ?_)
        rw [h, getD_eq_getElem?_getD, getElem?_eq_getElem hi']
        exact getElem_mem hi'
      rw [getD_cons_succ, idxOf?_cons, ih hk.2 hi', hne]
      rfl

/-- A field that is skipped is an option without a value. -/
theorem none_of_skips {d : Data} (h : HasType Γ f.ty d) (hs : f.skips d = true) : f.ty.isOption = true ∧ d = .none := by
  have hskip : f.skipNone = true := by
    cases d <;> first | exact hs | cases hs
  have ho := f.skipNone_isOption hskip
  refine ⟨ho, ?_⟩
  cases hty : f.ty with
  | option t =>
    rw [hty] at h
    cases h with
    | none => rfl
    | some h => cases hs
  | _ =>
    rw [hty] at ho
    cases ho

/-- Decoding the tree of a readable value gives the value. -/
theorem decodeTy_norm_encode {t : Ty} (h : HasType Γ t x) (ht : t.AllReadable Γ) {fuel : Nat} (hf : (x.encode Γ).depth ≤ fuel) :
    decodeTy .strict Γ (decodeFuel .strict Γ fuel) t (x.encode Γ).norm = .ok x := by
  induction h generalizing fuel with
  | bool | char | unit | string | none => rfl
  | value v => exact (ht _ (.refl _)).elim
  | @int w i h =>
    have hd : decodeInt w (.int i) = .ok i := by simp [decodeInt, h, pure, Except.pure, bind, Except.bind]
    show Res.ofExcept ((decodeInt w (.int i)).map Data.int) = _
    rw [hd]
    rfl
  | @uint w u h =>
    show Res.ofExcept ((decodeUInt w (Value.uint u).norm).map Data.uint) = _
    rw [decodeUInt_norm h]
    rfl
  | f32 x => exact congrArg (fun x => Except.ok (Data.f32 x)) (Flt.convert_convert x)
  | f64 x => exact congrArg (fun x => Except.ok (Data.f64 x)) (Flt.convert_self x)
  | @some t d h ih =>
    have hd := ih (fun u hu => ht u (.option hu)) hf
    have hnull := norm_encode_ne_null h (ht _ (.refl _))
    rw [Data.encode]
    cases hv : (d.encode Γ).norm with
    | null => exact absurd hv hnull
    | _ =>
      rw [hv] at hd
      exact map_eq_ok.mpr ⟨d, hd, rfl⟩
  | boxed h ih => exact map_eq_ok.mpr ⟨_, ih (fun u hu => ht u (.box hu)) hf, rfl⟩
  | @vec t ds h ih =>
    rw [Data.encode, Value.depth] at hf
    have hm : (Value.normList (Data.encodeSeq Γ ds)).mapM (decodeTy .strict Γ (decodeFuel .strict Γ fuel) t) = .ok ds := by
      rw [normList_eq_map, Data.encodeSeq_eq_map, map_map]
      refine mapM_map_eq_ok.mpr (fun d hd => ih d hd (fun u hu => ht u (.vec hu)) ?_)
      have := depthList_le.mp (Nat.le_refl (Value.depthList (Data.encodeSeq Γ ds))) (d.encode Γ) (by
        rw [Data.encodeSeq_eq_map]
        exact mem_map_of_mem hd)
      omega
    exact map_eq_ok.mpr ⟨ds, hm, rfl⟩
  | @map t es hk h ih =>
    rw [Data.encode, Value.depth] at hf
    have hm : decodeEntries (decodeTy .strict Γ (decodeFuel .strict Γ fuel) t) (Value.normEntries (Data.encodeMap Γ es)) [] =
        .ok es := by
      rw [normEntries_eq_map, Data.encodeMap_eq_map, map_map]
      refine decodeEntries_map (g := fun d => (d.encode Γ).norm) (fun e he => ih e he (fun u hu => ht u (.map hu)) ?_) hk
      have := depthEntries_le.mp (Nat.le_refl (Value.depthEntries (Data.encodeMap Γ es))) (e.1, e.2.encode Γ) (by
        rw [Data.encodeMap_eq_map]
        exact mem_map_of_mem he)
      simp only at this
      omega
    exact map_eq_ok.mpr ⟨es, hm, rfl⟩
  | @struct name ds hl h ih =>
    rw [Data.encode, Value.depth] at hf
    have hfield : ∀ p ∈ (Γ.plan name).zip ds, p.1.skips p.2 = false →
        decodeFuel .strict Γ fuel p.1.ty (p.2.encode Γ).norm = .ok p.2 := by
      intro p hp hs
      have hmem : (p.1.key, p.2.encode Γ) ∈ Data.encodeFields Γ (Γ.plan name) ds := mem_encodeFields.mpr ⟨p, hp, hs, rfl⟩
      have hlt : (p.2.encode Γ).depth ≤ _ := depthEntries_le.mp (Nat.le_refl _) _ hmem
      rcases fuel with _ | fuel
      · omega
      exact ih p hp (fun u hu => ht u (.field (of_mem_zip hp).1 hu)) (by omega)
    have hentries : Value.normEntries (Data.encodeFields Γ (Γ.plan name) ds) =
        fieldEntries (fun d => (d.encode Γ).norm) (Γ.plan name) ds := by
      rw [encodeFields_eq, normEntries_eq_map, fieldEntries, map_map]
      rfl
    rw [Data.encode, Value.norm, hentries]
    exact (decodeStruct_iff hl (ht _ (.refl _)) (fun p hp hs => none_of_skips (h p hp) hs)).mpr hfield
  | @enum name i h =>
    show Res.ofExcept (variantOf name ((Γ.variants name).getD i []) (Γ.variants name)) = _
    rw [variantOf, idxOf?_getD (ht _ (.refl _)) h]
    rfl

/-- The same from the outside. -/
theorem decodeFuel_norm_encode {t : Ty} (h : HasType Γ t x) (ht : t.AllReadable Γ) {fuel : Nat} (hf : (x.encode Γ).depth < fuel) :
    decodeFuel .strict Γ fuel t (x.encode Γ).norm = .ok x := by
  rcases fuel with _ | fuel
  · omega
  exact decodeTy_norm_encode h ht (by omega)

end Ferroly
