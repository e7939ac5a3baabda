import Ferroly.Codec.Derive

/-!
# `Encode` and `Decode`

The values of the codec's types, and for each type the two ways to encode it (to a tree, to the JSON sink) and the two ways to
decode it (from a tree, from the JSON parser).
-/

namespace Ferroly

/-- A value of a type of the codec. A `HashMap` is the list of its entries in iteration order; a struct has its fields in the order
of the declaration; an enum has the index of its variant. -/
inductive Data where
  | bool (b : Bool)
  | int (i : I64)
  | uint (u : U64)
  | f32 (x : F32)
  | f64 (x : F64)
  | char (c : Char)
  | unit
  | value (v : Value)
  | str (s : Str)
  | none
  | some (d : Data)
  | vec (ds : List Data)
  | boxed (d : Data)
  | map (es : List (Str × Data))
  | struct (name : String) (ds : List Data)
  | enum (name : String) (variant : Nat)

/-- Induction over a value: a container from the values in it. -/
@[elab_as_elim] theorem Data.ind {P : Data → Prop} (bool : ∀ b, P (.bool b)) (int : ∀ i, P (.int i)) (uint : ∀ u, P (.uint u))
    (f32 : ∀ x, P (.f32 x)) (f64 : ∀ x, P (.f64 x)) (char : ∀ c, P (.char c)) (unit : P .unit) (value : ∀ v, P (.value v))
    (str : ∀ s, P (.str s)) (none : P .none) (some : ∀ d, P d → P (.some d)) (vec : ∀ ds, (∀ d ∈ ds, P d) → P (.vec ds))
    (boxed : ∀ d, P d → P (.boxed d)) (map : ∀ es, (∀ e ∈ es, P e.2) → P (.map es))
    (struct : ∀ name ds, (∀ d ∈ ds, P d) → P (.struct name ds)) (enum : ∀ name i, P (.enum name i)) (x : Data) : P x :=
  @Data.rec P (fun ds => ∀ d ∈ ds, P d) (fun es => ∀ e ∈ es, P e.2) (fun e => P e.2) bool int uint f32 f64 char unit value str none some vec boxed map struct enum
    nofun
    (fun _ _ hd hds _ hw => (List.mem_cons.mp hw).elim (fun e => e ▸ hd) (hds _))
    nofun
    (fun _ _ he hes _ hw => (List.mem_cons.mp hw).elim (fun e => e ▸ he) (hes _))
    (fun _ _ h => h) x

mutual

/-- Equality of values as data. -/
def Data.same : Data → Data → Bool
  | .bool a, .bool b => a == b
  | .int a, .int b => a == b
  | .uint a, .uint b => a == b
  | .f32 a, .f32 b => a == b
  | .f64 a, .f64 b => a == b
  | .char a, .char b => a == b
  | .unit, .unit => true
  | .value a, .value b => a == b
  | .str a, .str b => a == b
  | .none, .none => true
  | .some a, .some b => a.same b
  | .vec a, .vec b => Data.sameList a b
  | .boxed a, .boxed b => a.same b
  | .map a, .map b => Data.sameEntries a b
  | .struct n a, .struct m b => n == m && Data.sameList a b
  | .enum n i, .enum m j => n == m && i == j
  | _, _ => false

def Data.sameList : List Data → List Data → Bool
  | [], [] => true
  | v :: a, w :: b => v.same w && Data.sameList a b
  | _, _ => false

def Data.sameEntries : List (Str × Data) → List (Str × Data) → Bool
  | [], [] => true
  | (k, v) :: a, (l, w) :: b => k == l && v.same w && Data.sameEntries a b
  | _, _ => false

end

theorem Data.sameList_iff {a b : List Data} (ih : ∀ v ∈ a, ∀ w, v.same w = true ↔ v = w) : Data.sameList a b = true ↔ a = b := by
  induction a generalizing b with
  | nil => cases b <;> simp [Data.sameList]
  | cons v a iha =>
    cases b with
    | nil => simp [Data.sameList]
    | cons w b => simp [Data.sameList, ih v List.mem_cons_self, iha (List.forall_mem_cons.mp ih).2]

theorem Data.sameEntries_iff {a b : List (Str × Data)} (ih : ∀ e ∈ a, ∀ w, e.2.same w = true ↔ e.2 = w) :
    Data.sameEntries a b = true ↔ a = b := by
  induction a generalizing b with
  | nil => cases b <;> simp [Data.sameEntries]
  | cons e a iha =>
    cases b with
    | nil => simp [Data.sameEntries]
    | cons e' b =>
      have hv := ih e List.mem_cons_self
      simp [Data.sameEntries, hv, iha (List.forall_mem_cons.mp ih).2, Prod.ext_iff]

theorem Data.same_iff (x y : Data) : x.same y = true ↔ x = y := by
  induction x using Data.ind generalizing y with
  | some d ih | boxed d ih => cases y <;> simp [Data.same, ih]
  | vec ds ih | struct name ds ih => cases y <;> simp [Data.same, Data.sameList_iff ih]
  | map es ih => cases y <;> simp [Data.same, Data.sameEntries_iff ih]
  | _ => cases y <;> simp [Data.same, Subtype.ext_iff]

instance : DecidableEq Data := fun x y => decidable_of_iff _ (Data.same_iff x y)

/-- The value has the type. -/
inductive HasType (Γ : Env) : Ty → Data → Prop where
  | bool (b : Bool) : HasType Γ (.scalar .bool) (.bool b)
  | int {w : IntTy} {i : I64} (h : w.inRange i = true) : HasType Γ (.scalar (.int w)) (.int i)
  | uint {w : UIntTy} {u : U64} (h : w.inRange u = true) : HasType Γ (.scalar (.uint w)) (.uint u)
  | f32 (x : F32) : HasType Γ (.scalar .f32) (.f32 x)
  | f64 (x : F64) : HasType Γ (.scalar .f64) (.f64 x)
  | char (c : Char) : HasType Γ (.scalar .char) (.char c)
  | unit : HasType Γ (.scalar .unit) .unit
  | value (v : Value) : HasType Γ (.scalar .value) (.value v)
  | string (s : Str) : HasType Γ .string (.str s)
  | none (t : Ty) : HasType Γ (.option t) .none
  | some {t : Ty} {d : Data} (h : HasType Γ t d) : HasType Γ (.option t) (.some d)
  | vec {t : Ty} {ds : List Data} (h : ∀ d ∈ ds, HasType Γ t d) : HasType Γ (.vec t) (.vec ds)
  | boxed {t : Ty} {d : Data} (h : HasType Γ t d) : HasType Γ (.box t) (.boxed d)
  | map {t : Ty} {es : List (Str × Data)} (hk : (es.map Prod.fst).Nodup) (h : ∀ e ∈ es, HasType Γ t e.2) :
      HasType Γ (.map t) (.map es)
  | struct {name : String} {ds : List Data} (hl : ds.length = (Γ.plan name).length)
      (h : ∀ p ∈ (Γ.plan name).zip ds, HasType Γ p.1.ty p.2) : HasType Γ (.struct name) (.struct name ds)
  | enum {name : String} {i : Nat} (h : i < (Γ.variants name).length) : HasType Γ (.enum name) (.enum name i)

/-- The fields of a struct typed one by one. -/
theorem HasType.struct_of {Γ : Env} {name : String} {ds : List Data}
    (h : List.Forall₂ (fun f d => HasType Γ f.ty d) (Γ.plan name) ds) : HasType Γ (.struct name) (.struct name ds) := by
  obtain ⟨hl, hz⟩ := List.forall₂_iff_zip.mp h
  exact .struct hl.symm (fun p hp => hz hp)

mutual

/-- How deep containers nest in a value. -/
def Data.depth : Data → Nat
  | .value v => v.depth
  | .some d => d.depth
  | .boxed d => d.depth
  | .vec ds => Data.depthSeq ds + 1
  | .map es => Data.depthMap es + 1
  | .struct _ ds => Data.depthSeq ds + 1
  | _ => 0

def Data.depthSeq : List Data → Nat
  | [] => 0
  | d :: ds => max d.depth (Data.depthSeq ds)

def Data.depthMap : List (Str × Data) → Nat
  | [] => 0
  | (_, d) :: es => max d.depth (Data.depthMap es)

end

mutual

/-- Every float in a value is finite. -/
def Data.isFinite : Data → Bool
  | .f32 x => x.isFinite
  | .f64 x => x.isFinite
  | .some d => d.isFinite
  | .boxed d => d.isFinite
  | .vec ds => Data.allFinite ds
  | .map es => Data.entriesFinite es
  | .struct _ ds => Data.allFinite ds
  | _ => true

def Data.allFinite : List Data → Bool
  | [] => true
  | d :: ds => d.isFinite && Data.allFinite ds

def Data.entriesFinite : List (Str × Data) → Bool
  | [] => true
  | (_, d) :: es => d.isFinite && Data.entriesFinite es

end

/-! ## Encoding -/

mutual

/-- `Encode::encode`: the tree of a value. -/
def Data.encode (Γ : Env) : Data → Value
  | .bool b => .bool b
  | .int i => .int i
  | .uint u => .uint u
  | .f32 x => .float (x.convert binary64)
  | .f64 x => .float x
  | .char c => .str [c]
  | .unit => .null
  | .value v => v
  | .str s => .str s
  | .none => .null
  | .some d => d.encode Γ
  | .vec ds => .array (Data.encodeSeq Γ ds)
  | .boxed d => d.encode Γ
  | .map es => .object (Data.encodeMap Γ es)
  | .struct name ds => .object (Data.encodeFields Γ (Γ.plan name) ds)
  | .enum name i => .str ((Γ.variants name).getD i [])

def Data.encodeSeq (Γ : Env) : List Data → List Value
  | [] => []
  | d :: ds => d.encode Γ :: Data.encodeSeq Γ ds

def Data.encodeMap (Γ : Env) : List (Str × Data) → List (Str × Value)
  | [] => []
  | (k, d) :: es => (k, d.encode Γ) :: Data.encodeMap Γ es

/-- The pushes of a derived `encode`, in the order of the plan. -/
def Data.encodeFields (Γ : Env) : List Slot → List Data → List (Str × Value)
  | f :: fs, .some d :: ds =>
    if f.skipNone then (f.key, d.encode Γ) :: Data.encodeFields Γ fs ds
    else (f.key, (Data.some d).encode Γ) :: Data.encodeFields Γ fs ds
  | f :: fs, d :: ds =>
    if f.skipNone then Data.encodeFields Γ fs ds else (f.key, d.encode Γ) :: Data.encodeFields Γ fs ds
  | _, _ => []

end

mutual

/-- `Encode::encode_to`: a value straight to the JSON sink. -/
def Data.encodeTo (D : FloatDisplay binary64) (Γ : Env) : Data → Json.JsonEncoder → Json.JsonEncoder
  | .bool b, e => e.encodeBool b
  | .int i, e => e.encodeI64 i
  | .uint u, e => e.encodeU64 u
  | .f32 x, e => e.encodeF64 D (x.convert binary64)
  | .f64 x, e => e.encodeF64 D x
  | .char c, e => e.encodeStr [c]
  | .unit, e => e.encodeNull
  | .value v, e => Json.emitValue D v e
  | .str s, e => e.encodeStr s
  | .none, e => e.encodeNull
  | .some d, e => d.encodeTo D Γ e
  | .vec ds, e => (Data.encodeToSeq D Γ ds (e.beginSeq ds.length)).endSeq
  | .boxed d, e => d.encodeTo D Γ e
  | .map es, e => (Data.encodeToMap D Γ es (e.beginMap es.length)).endMap
  | .struct name ds, e => (Data.encodeToFields D Γ (Γ.plan name) ds (e.beginMap (Γ.plan name).length)).endMap
  | .enum name i, e => e.encodeStr ((Γ.variants name).getD i [])

def Data.encodeToSeq (D : FloatDisplay binary64) (Γ : Env) : List Data → Json.JsonEncoder → Json.JsonEncoder
  | [], e => e
  | d :: ds, e => Data.encodeToSeq D Γ ds (e.seqEntry (d.encodeTo D Γ))

def Data.encodeToMap (D : FloatDisplay binary64) (Γ : Env) : List (Str × Data) → Json.JsonEncoder → Json.JsonEncoder
  | [], e => e
  | (k, d) :: es, e => Data.encodeToMap D Γ es (e.mapEntry k (d.encodeTo D Γ))

/-- The entries of a derived `encode_to`, in the order of the plan. -/
def Data.encodeToFields (D : FloatDisplay binary64) (Γ : Env) :
    List Slot → List Data → Json.JsonEncoder → Json.JsonEncoder
  | f :: fs, .some d :: ds, e =>
    if f.skipNone then Data.encodeToFields D Γ fs ds (e.mapEntry f.key (d.encodeTo D Γ))
    else Data.encodeToFields D Γ fs ds (e.mapEntry f.key ((Data.some d).encodeTo D Γ))
  | f :: fs, d :: ds, e =>
    if f.skipNone then Data.encodeToFields D Γ fs ds e
    else Data.encodeToFields D Γ fs ds (e.mapEntry f.key (d.encodeTo D Γ))
  | _, _, e => e

end

/-- Whether a field is left out: `skip_none` and no value. -/
def Slot.skips (f : Slot) : Data → Bool
  | .some _ => false
  | _ => f.skipNone

theorem Data.encodeFields_cons (Γ : Env) (f : Slot) (fs : List Slot) (d : Data) (ds : List Data) :
    Data.encodeFields Γ (f :: fs) (d :: ds) =
      if f.skips d then Data.encodeFields Γ fs ds else (f.key, d.encode Γ) :: Data.encodeFields Γ fs ds := by
  cases d with
  | some d => simp [Data.encodeFields, Slot.skips, Data.encode]
  | _ => rfl

theorem Data.encodeToFields_cons (D : F64Display) (Γ : Env) (f : Slot) (fs : List Slot) (d : Data)
    (ds : List Data) (e : Json.JsonEncoder) :
    Data.encodeToFields D Γ (f :: fs) (d :: ds) e = if f.skips d then Data.encodeToFields D Γ fs ds e
      else Data.encodeToFields D Γ fs ds (e.mapEntry f.key (d.encodeTo D Γ)) := by
  cases d with
  | some d =>
    have hd : (Data.some d).encodeTo D Γ = d.encodeTo D Γ := funext (fun e => by rw [Data.encodeTo])
    simp [Data.encodeToFields, Slot.skips, hd]
  | _ => rfl

/-- `json::encode`: a value streamed to JSON. -/
def Json.encode (D : FloatDisplay binary64) (Γ : Env) (x : Data) : Str := (x.encodeTo D Γ .new).out

/-! ## Decoding -/

/-- The result of a decoder. -/
abbrev Res (α : Type) := Except (Fault CodecError) α

/-- Fail with an error of the codec. -/
def Res.fail {α : Type} (e : CodecError) : Res α := .error (.error e)

def decodeBool : Value → Except CodecError Bool
  | .bool b => .ok b
  | .str s =>
    if trim s = "true".toList then .ok true
    else if trim s = "false".toList then .ok false
    else .error (.expected "bool")
  | _ => .error (.expected "bool")

/-- The saturating cast `f as i64`. -/
def floatToI64 (f : F64) : I64 :=
  ⟨f.toInt (-(2 ^ 63)) (2 ^ 63 - 1), by
    cases f with
    | nan => decide
    | num neg k => simp only [Flt.toInt]; omega⟩

/-- The saturating cast `f as u64`. -/
def floatToU64 (f : F64) : U64 :=
  ⟨(f.toInt 0 (2 ^ 64 - 1)).toNat, by
    cases f with
    | nan => decide
    | num neg k => simp only [Flt.toInt]; omega⟩

/-- `decode` of the signed integer types. -/
def decodeInt (w : IntTy) (value : Value) : Except CodecError I64 := do
  let n ← match value with
    | .int i => pure i
    | .uint u => if h : u.val < 2 ^ 63 then pure (u.toI64 h) else .error (.outOfRange w.name)
    | .float f => pure (floatToI64 f)
    | .str s =>
      match parseI64 (trim s) with
      | some i => pure i
      | none => .error (.expected "integer")
    | _ => .error (.expected "integer")
  if w.inRange n then pure n else .error (.outOfRange w.name)

/-- `decode` of the unsigned integer types. -/
def decodeUInt (w : UIntTy) (value : Value) : Except CodecError U64 := do
  let n ← match value with
    | .uint u => pure u
    | .int i => if h : 0 ≤ i.val then pure ⟨i.val.toNat, by omega⟩ else .error (.expected "unsigned integer")
    | .float f => if f.geZero then pure (floatToU64 f) else .error (.expected "unsigned integer")
    | .str s =>
      match parseU64 (trim s) with
      | some u => pure u
      | none => .error (.expected "unsigned integer")
    | _ => .error (.expected "unsigned integer")
  if w.inRange n then pure n else .error (.outOfRange w.name)

/-- `decode` of the float types. -/
def decodeFloat (F : FloatFmt) : Value → Except CodecError (Flt F)
  | .float f => .ok (f.convert F)
  | .int i => .ok (.ofInt F i.val)
  | .uint u => .ok (.ofInt F u.val)
  | .str s =>
    match parseF64 (trim s) with
    | some v => .ok (v.convert F)
    | none => .error (.expected "number")
  | _ => .error (.expected "number")

def decodeStr (value : Value) : Except CodecError Str :=
  match value.asStr with
  | some s => .ok s
  | none => .error (.expected "string")

def decodeChar (value : Value) : Except CodecError Char :=
  match value.asStr with
  | some [c] => .ok c
  | _ => .error (.expected "single-character string")

/-- `decode` of a type that keeps the default `decode_from`. -/
def decodeScalar (s : ScalarTy) (value : Value) : Except CodecError Data :=
  match s with
  | .bool => (decodeBool value).map .bool
  | .int w => (decodeInt w value).map .int
  | .uint w => (decodeUInt w value).map .uint
  | .f32 => (decodeFloat binary32 value).map .f32
  | .f64 => (decodeFloat binary64 value).map .f64
  | .char => (decodeChar value).map .char
  | .unit => .ok .unit
  | .value => .ok (.value value)

/-- The variant a string names: the first arm that matches. -/
def variantOf (name : String) (s : Str) (keys : List Str) : Except CodecError Data :=
  match keys.idxOf? s with
  | some i => .ok (.enum name i)
  | none => .error (.unknownVariant (String.ofList s))

/-- Insert into a `HashMap`: a known key gets the new value, a new one goes to the end. -/
def insertEntry {α : Type} (k : Str) (d : α) : List (Str × α) → List (Str × α)
  | [] => [(k, d)]
  | (k', d') :: es => if k' = k then (k, d) :: es else (k', d') :: insertEntry k d es

/-- The slot of a key, as the arms of the generated `match` find it, with the type to decode. -/
def slotOf (k : Str) : List Slot → Option (Nat × Ty)
  | [] => none
  | f :: fs => if f.key = k then some (0, f.ty) else (slotOf k fs).map (fun s => (s.1 + 1, s.2))

/-- A field from its slot: an absent `Option` is `None`, any other absent field is an error. -/
def buildField (f : Slot) (slot : Option Data) : Except CodecError Data :=
  match slot with
  | some d => .ok d
  | none => if f.ty.isOption then .ok .none else .error (.missingField (String.ofList f.key))

/-- The fields of a struct from its slots. -/
def buildFields : List Slot → List (Option Data) → Except CodecError (List Data)
  | f :: fs, s :: ss => do
    let d ← buildField f s
    let ds ← buildFields fs ss
    pure (d :: ds)
  | _, _ => .ok []

/-- One empty slot per field. -/
def emptySlots (plan : List Slot) : List (Option Data) := plan.map (fun _ => none)

/-- How a `Vec` reads a tree that is not an array. `tolerant` is the source's `decode`: `Null` is the empty vector and any other value
the vector of it alone. `strict` takes arrays only: what the streaming decoder amounts to. -/
inductive VecRule where
  | tolerant
  | strict
  deriving DecidableEq, Repr

/-- Turn an error of the codec into a result. -/
def Res.ofExcept {α : Type} : Except CodecError α → Res α
  | .ok a => .ok a
  | .error e => .error (.error e)

section Tree

variable (rule : VecRule) (Γ : Env)

/-- The loop of `HashMap::decode` over the entries. -/
def decodeEntries (dec : Value → Res Data) : List (Str × Value) → List (Str × Data) → Res (List (Str × Data))
  | [], out => .ok out
  | (k, v) :: o, out => do
    let d ← dec v
    decodeEntries dec o (insertEntry k d out)

/-- The loop of a derived `decode` over the entries: fill the slot of each known key, ignore the others. -/
def scanFields (plan : List Slot) (dec : Ty → Value → Res Data) :
    List (Str × Value) → List (Option Data) → Res (List (Option Data))
  | [], slots => .ok slots
  | (k, v) :: o, slots =>
    match slotOf k plan with
    | some (i, t) => do
      let d ← dec t v
      scanFields plan dec o (slots.set i (some d))
    | none => scanFields plan dec o slots

/-- `decode` of a type, given how to decode the fields of a struct. -/
def decodeTy (fields : Ty → Value → Res Data) : Ty → Value → Res Data
  | .scalar s, v => Res.ofExcept (decodeScalar s v)
  | .string, v => Res.ofExcept ((decodeStr v).map .str)
  | .option t, v =>
    match v with
    | .null => .ok .none
    | other => (decodeTy fields t other).map .some
  | .vec t, v =>
    match v with
    | .array a => (a.mapM (decodeTy fields t)).map .vec
    | other =>
      match rule with
      | .strict => Res.fail (.expected "array")
      | .tolerant => if other.isNull then .ok (.vec []) else (decodeTy fields t other).map (fun d => .vec [d])
  | .box t, v => (decodeTy fields t v).map .boxed
  | .map t, v =>
    match v.asObject with
    | none => Res.fail (.expected "object")
    | some o => (decodeEntries (decodeTy fields t) o []).map .map
  | .struct name, v =>
    match v.asObject with
    | none => Res.fail (.expected "object")
    | some o => do
      let slots ← scanFields (Γ.plan name) fields o (emptySlots (Γ.plan name))
      let ds ← Res.ofExcept (buildFields (Γ.plan name) slots)
      pure (.struct name ds)
  | .enum name, v => Res.ofExcept ((decodeStr v).bind (fun s => variantOf name s (Γ.variants name)))

/-- `decode` with fuel for the structs inside of structs. -/
def decodeFuel : Nat → Ty → Value → Res Data
  | 0, _, _ => .error .diverge
  | fuel + 1, t, v => decodeTy rule Γ (decodeFuel fuel) t v

end Tree

/-- `Decode::decode`: every struct goes one level down the tree, whose depth bounds their nesting. -/
def decode (Γ : Env) (t : Ty) (value : Value) : Res Data := decodeFuel .tolerant Γ (value.depth + 1) t value

section Stream

open Json

variable (Γ : Env)

/-- `decode_from` of a type, given how to decode the fields of a struct. -/
def decodeFromTy (fields : Ty → P Data) : Ty → P Data
  | .scalar s => do
    let v ← decodeValue
    Run.lift (decodeScalar s v)
  | .string => do
    let s ← decodeString
    pure (.str s)
  | .option t => do
    if ← peekNull then
      decodeNull
      pure .none
    else
      let d ← decodeFromTy fields t
      pure (.some d)
  | .vec t => do
    let out ← readSeq (fun out => do
      let d ← decodeFromTy fields t
      pure (out ++ [d])) []
    pure (.vec out)
  | .box t => do
    let d ← decodeFromTy fields t
    pure (.boxed d)
  | .map t => do
    let out ← readMap (fun key out => do
      let d ← decodeFromTy fields t
      pure (insertEntry key d out)) []
    pure (.map out)
  | .struct name => do
    let slots ← readMap (fun key slots => do
      match slotOf key (Γ.plan name) with
      | some (i, t) =>
        let d ← fields t
        pure (slots.set i (some d))
      | none =>
        skipValue
        pure slots) (emptySlots (Γ.plan name))
    let ds ← Run.lift (buildFields (Γ.plan name) slots)
    pure (.struct name ds)
  | .enum name => do
    let s ← decodeString
    Run.lift (variantOf name s (Γ.variants name))

/-- `decode_from` with fuel for the structs inside of structs. -/
def decodeFromFuel : Nat → Ty → P Data
  | 0, _ => Run.diverge
  | fuel + 1, t => decodeFromTy Γ (decodeFromFuel fuel) t

/-- `Decode::decode_from`: every struct enters a container, of which at most `MAX_DEPTH` nest. -/
def decodeFrom (t : Ty) : P Data := decodeFromFuel Γ (MAX_DEPTH + 1) t

end Stream

/-- `json::decode`: a value of a type straight from a JSON text. -/
def Json.decode (Γ : Env) (t : Ty) (input : Str) : Res Data :=
  Json.run (do
    let value ← decodeFrom Γ t
    Json.finish value) input

end Ferroly
