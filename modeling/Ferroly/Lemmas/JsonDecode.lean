import Ferroly.Lemmas.JsonDepth

/-!
# Streaming and tree decoding of JSON

The streaming decoder of a type succeeds on an input exactly when the parser does and the strict tree decoder accepts the value
it returns; both stop at the same byte with the same result.
-/

namespace Ferroly.Json

open List Run Run

variable {d fuel : Nat} {st st' : Parser} {input : Str} {message : String} {b close open' : UInt8} {v : Value}
  {dec : Value → Res Data}

/-! ## Fuel -/

section Fuel

variable {value value' : P Value}

theorem items_push_congr {ε : Type} {p q : P ε} (h : ∀ st, st.depth = d → p st = q st) (hk : DepthKept p) (hd : st.depth = d) :
    items close message (pushItem p) [] st = items close message (pushItem q) [] st := by
  refine items_congr (fun acc s hs => ?_) (fun acc s acc' s' hs hok => ?_) [] hd
  · rw [pushItem, pushItem, bind_apply, bind_apply, h s hs]
  · exact (DepthKept.bind hk (fun _ => .pure _) _ _ _ hok).trans hs

theorem parseArray_congr (hv : ∀ st, st.depth = d → value st = value' st) (hk : DepthKept value) (hd : st.depth = d) :
    parseArray value st = parseArray value' st := by
  refine (depthKept_expect _).bind_congr (fun _ st₁ hd1 => ?_) hd
  have hitems : arrayItems (parseElement value) [] st₁ = arrayItems (parseElement value') [] st₁ := items_push_congr hv hk hd1
  rw [bind_apply, bind_apply, hitems]

theorem depthKept_entry (hk : DepthKept value) : DepthKept (entry value) := by
  rw [entry_eq]
  exact .bind depthKept_entryKey (fun _ => .bind hk (fun _ => .pure _))

theorem entry_congr (hv : ∀ st, st.depth = d → value st = value' st) (hd : st.depth = d) : entry value st = entry value' st := by
  rw [entry_eq, entry_eq]
  refine depthKept_entryKey.bind_congr (fun _ st₁ hd1 => ?_) hd
  rw [bind_apply, bind_apply, hv st₁ hd1]

theorem parseObject_congr (hv : ∀ st, st.depth = d → value st = value' st) (hk : DepthKept value) (hd : st.depth = d) :
    parseObject value st = parseObject value' st := by
  refine (depthKept_expect _).bind_congr (fun _ st₁ hd1 => ?_) hd
  have hitems : objectItems (parseEntry value) [] st₁ = objectItems (parseEntry value') [] st₁ := by
    rw [parseEntry_eq, parseEntry_eq]
    exact items_push_congr (fun _ hst => entry_congr hv hst) (depthKept_entry hk) hd1
  rw [bind_apply, bind_apply, hitems]

end Fuel

theorem container_congr {p q : P Value} (h : ∀ s, s.depth = st.depth + 1 → s.depth ≤ MAX_DEPTH → p s = q s) : (do
      enter
      let v ← p
      leave
      pure v : P Value) st = (do
      enter
      let v ← q
      leave
      pure v : P Value) st := by
  rw [bind_of_ite enter_eq, bind_of_ite enter_eq]
  by_cases hd : st.depth + 1 ≤ MAX_DEPTH
  · rw [if_pos hd, if_pos hd, bind_apply, bind_apply, h _ rfl hd]
  · rw [if_neg hd, if_neg hd]

/-- Fuel that covers the containers still to be entered is as good as any other. -/
theorem parseValueFuel_congr {fuel' : Nat} (hd : st.depth ≤ MAX_DEPTH) (hf : MAX_DEPTH < fuel + st.depth)
    (hf' : MAX_DEPTH < fuel' + st.depth) : parseValueFuel fuel st = parseValueFuel fuel' st := by
  induction fuel generalizing fuel' st with
  | zero => omega
  | succ fuel ih =>
    obtain ⟨fuel', rfl⟩ : ∃ k, fuel' = k + 1 := ⟨fuel' - 1, by omega⟩
    have hv : ∀ s, s.depth = st.depth + 1 → s.depth ≤ MAX_DEPTH → parseValueFuel fuel s = parseValueFuel fuel' s :=
      fun s hs hsd => ih hsd (by omega) (by omega)
    rw [parseValueFuel, parseValueFuel, bind_of_ok skipWs_eq, bind_of_ok skipWs_eq,
      bind_of_ok (peek_apply _), bind_of_ok (peek_apply _)]
    cases (skip st).rest.head? with
    | none => rfl
    | some b =>
      simp only [Run.ite_apply]
      by_cases hb : b = byte '\x7b'
      · rw [if_pos hb, if_pos hb]
        exact container_congr (fun s hs hsd => parseObject_congr (fun s' hs' => hv s' (hs'.trans hs) (by omega))
          depthKept_parseValueFuel rfl)
      by_cases hb' : b = byte '['
      · rw [if_neg hb, if_neg hb, if_pos hb', if_pos hb']
        exact container_congr (fun s hs hsd => parseArray_congr (fun s' hs' => hv s' (hs'.trans hs) (by omega))
          depthKept_parseValueFuel rfl)
      · rw [if_neg hb, if_neg hb, if_neg hb', if_neg hb']

/-- Inside a container, a value with one unit of fuel less is still a value. -/
theorem parseValueFuel_eq_parseValue (hd : st.depth ≤ MAX_DEPTH) (hf : MAX_DEPTH < fuel + st.depth) :
    parseValueFuel fuel st = parseValue st :=
  parseValueFuel_congr hd hf (by omega)

theorem parseValue_skip : parseValue (skip st) = parseValue st := by
  rw [parseValue, parseValueFuel, bind_of_ok skipWs_eq, bind_of_ok skipWs_eq, skip_skip]

theorem skipWs_parseValue {α : Type} (k : Value → P α) : (do
      skipWs
      let v ← parseValue
      k v) = (do
      let v ← parseValue
      k v) := by
  funext st
  rw [bind_of_ok skipWs_eq, bind_apply, bind_apply, parseValue_skip]

theorem decodeValue_eq : decodeValue = parseValue := by
  funext st
  rw [decodeValue, bind_of_ok skipWs_eq, parseValue_skip]

/-! ## What the first byte says -/

theorem parseValue_of {r : Bytes} {p : P Value} (hb : (skip st).rest = b :: r) (hp : ParsesAs MAX_DEPTH b p) :
    parseValue st = p (skip st) := parseValueFuel_of hb hp

/-- The byte that starts every text of a kind of value. -/
def opener : Value → Option UInt8
  | .object _ => some (byte '\x7b')
  | .array _ => some (byte '[')
  | .str _ => some (byte '"')
  | .null => some (byte 'n')
  | _ => none

/-- A container of either kind returns what was parsed inside. -/
theorem container_ok {p : P Value} (h : (do
      enter
      let v ← p
      leave
      pure v : P Value) st = .ok (v, st')) :
    st.depth + 1 ≤ MAX_DEPTH ∧ ∃ st₁, p ⟨st.rest, st.depth + 1⟩ = .ok (v, st₁) ∧ leave st₁ = .ok ((), st') := by
  rw [bind_of_ite enter_eq] at h
  split at h
  next hd =>
    obtain ⟨w, st₁, h1, h⟩ := bind_eq_ok.mp h
    obtain ⟨_, st₂, h2, h⟩ := bind_eq_ok.mp h
    cases h
    exact ⟨hd, st₁, h1, h2⟩
  · cases h

theorem parseItems_ok {β : Type} {inner : P β} {f : β → Value} (h : (do
      expect b
      let out ← inner
      pure (f out) : P Value) st = .ok (v, st')) : ∃ out, v = f out := by
  obtain ⟨_, _, -, h⟩ := bind_eq_ok.mp h
  obtain ⟨out, _, -, h⟩ := bind_eq_ok.mp h
  cases h
  exact ⟨out, rfl⟩

/-- A value that was parsed began with the byte of its kind. -/
theorem opener_of_parseValue (h : parseValue st = .ok (v, st')) (hb : opener v = some b) : ∃ r, (skip st).rest = b :: r := by
  obtain ⟨b', r, p, hr, hp, h⟩ := parseValueFuel_inv h
  refine ⟨r, ?_⟩
  cases hp with
  | object =>
    obtain ⟨-, st₁, h, -⟩ := container_ok h
    obtain ⟨o, rfl⟩ := parseItems_ok h
    cases hb
    exact hr
  | array =>
    obtain ⟨-, st₁, h, -⟩ := container_ok h
    obtain ⟨a, rfl⟩ := parseItems_ok h
    cases hb
    exact hr
  | str =>
    obtain ⟨s, _, -, h⟩ := bind_eq_ok.mp h
    cases h
    cases hb
    exact hr
  | bool =>
    obtain ⟨_, rfl⟩ := parseBool_token h
    cases hb
  | null =>
    cases parseNull_token h
    cases hb
    exact hr
  | number => obtain ⟨_, rfl⟩ | ⟨_, rfl⟩ | ⟨_, rfl⟩ := parseNumber_token h <;> cases hb

/-- Strings, and only they, start with a quote. -/
theorem parseValue_str_iff {s : Str} : parseValue st = .ok (.str s, st') ↔
      (skip st).rest.head? = some (byte '"') ∧ parseString (skip st) = .ok (s, st') := by
  constructor
  · intro h
    obtain ⟨r, hr⟩ := opener_of_parseValue h rfl
    rw [parseValue_of hr .str] at h
    obtain ⟨t, st₁, h1, h⟩ := bind_eq_ok.mp h
    cases h
    exact ⟨by rw [hr]; rfl, h1⟩
  · rintro ⟨hb, h⟩
    obtain ⟨r, hr⟩ := head?_eq_some_iff.mp hb
    rw [parseValue_of hr .str, bind_of_ok h]
    rfl

theorem decodeString_ok_iff {s : Str} : decodeString st = .ok (s, st') ↔ parseValue st = .ok (.str s, st') := by
  rw [parseValue_str_iff, decodeString, bind_of_ok skipWs_eq, bind_of_ok (peek_apply _)]
  by_cases hb : (skip st).rest.head? = some (byte '"')
  · rw [if_neg (not_not_intro hb)]
    exact ⟨fun h => ⟨hb, h⟩, fun h => h.2⟩
  · rw [if_pos hb]
    exact ⟨fun h => (nomatch h), fun h => absurd h.1 hb⟩

/-- `null` and nothing else starts with its letters. -/
theorem parseValue_null_iff : parseValue st = .ok (.null, st') ↔ takeLiteral "null".toList (skip st) = .ok (true, st') := by
  constructor
  · intro h
    obtain ⟨r, hr⟩ := opener_of_parseValue h rfl
    rw [parseValue_of hr .null] at h
    obtain ⟨b, st₁, h1, h⟩ := bind_eq_ok.mp h
    cases b <;> cases h
    exact h1
  · intro h
    have hr : ∃ r, (skip st).rest = byte 'n' :: r := by
      unfold takeLiteral at h
      split at h
      next hp =>
        obtain ⟨t, ht⟩ := isPrefixOf_iff_prefix.mp hp
        exact ⟨_, ht.symm⟩
      · cases h
    obtain ⟨r, hr⟩ := hr
    rw [parseValue_of hr .null, parseNull, bind_of_ok h]
    rfl

/-! ## Containers -/

section Fold

variable {β ε : Type}

/-- An entry is taken in exactly when it parses and `step` accepts it. -/
def FoldsItem (item : β → P β) (parse : P ε) (step : β → ε → Res β) (d : Nat) : Prop :=
  ∀ acc st acc' st', st.depth = d → (item acc st = .ok (acc', st') ↔ ∃ e, parse st = .ok (e, st') ∧ step acc e = .ok acc')

/-- What the loop does after an entry. -/
def itemsNext (close : UInt8) (message : String) (item : β → P β) (fuel : Nat) (acc : β) : P β := do
  skipWs
  match ← bump with
  | none => fail (.parse message)
  | some b =>
    if b = byte ',' then itemsLoop close message item fuel acc
    else if b = close then pure acc
    else fail (.parse message)

theorem itemsLoop_succ (item : β → P β) (acc : β) :
    itemsLoop close message item (fuel + 1) acc = (item acc >>= itemsNext close message item fuel) := rfl

variable {parse : P ε}

/-- Collecting only adds to what is there. -/
theorem itemsNext_push_extends {items items' : List ε} (h : itemsNext close message (pushItem parse) fuel items st = .ok (items', st'))
    : ∃ es, items' = items ++ es := by
  induction fuel using Nat.strong_induction_on generalizing items st with
  | _ fuel ih =>
    obtain ⟨_, st₁, -, h⟩ := bind_eq_ok.mp h
    obtain ⟨b, st₂, -, h⟩ := bind_eq_ok.mp h
    cases b with
    | none => cases h
    | some b =>
      simp only [Run.ite_apply] at h
      split at h
      · cases fuel with
        | zero => cases h
        | succ fuel =>
          rw [itemsLoop_succ, pushItem, Run.bind_assoc, Run.bind_eq_ok] at h
          obtain ⟨e, st₃, -, h⟩ := h
          obtain ⟨es, rfl⟩ := ih fuel (Nat.lt_succ_self _) h
          exact ⟨e :: es, by simp⟩
      split at h
      · cases h
        exact ⟨[], by simp⟩
      · cases h

variable {step : β → ε → Res β}

/-- Taking the entries of a container in one by one is collecting them and folding over them. -/
theorem itemsLoop_fold {item : β → P β} (hitem : FoldsItem item parse step d) (hk : DepthKept parse) {acc b : β} (items : List ε)
    (hd : st.depth = d) :
    itemsLoop close message item fuel acc st = .ok (b, st') ↔
      ∃ es, itemsLoop close message (pushItem parse) fuel items st = .ok (items ++ es, st') ∧ es.foldlM step acc = .ok b := by
  induction fuel generalizing acc items st with
  | zero => exact ⟨fun h => (nomatch h), fun ⟨_, h, _⟩ => (nomatch h)⟩
  | succ fuel ih =>
    -- after an entry both loops are in the same state
    have hnext : ∀ {acc items} {st : Parser}, st.depth = d →
        (itemsNext close message item fuel acc st = .ok (b, st') ↔ ∃ es,
          itemsNext close message (pushItem parse) fuel items st = .ok (items ++ es, st') ∧ es.foldlM step acc = .ok b) := by
      intro acc items st hd
      rw [itemsNext, itemsNext, bind_of_ok skipWs_eq, bind_of_ok skipWs_eq, bind_of_ok (bump_apply _), bind_of_ok (bump_apply _)]
      cases (skip st).rest.head? with
      | none => exact ⟨fun h => (nomatch h), fun ⟨_, h, _⟩ => (nomatch h)⟩
      | some c =>
        simp only [Run.ite_apply]
        by_cases hc : c = byte ','
        · rw [if_pos hc, if_pos hc]
          exact ih _ hd
        by_cases hc' : c = close
        · rw [if_neg hc, if_neg hc, if_pos hc', if_pos hc']
          constructor
          · intro h
            cases h
            exact ⟨[], by simp, rfl⟩
          · rintro ⟨es, h, hf⟩
            simp only [pure_apply, Except.ok.injEq, Prod.mk.injEq, self_eq_append_right] at h
            obtain ⟨rfl, rfl⟩ := h
            cases hf
            rfl
        · rw [if_neg hc, if_neg hc, if_neg hc', if_neg hc']
          exact ⟨fun h => (nomatch h), fun ⟨_, h, _⟩ => (nomatch h)⟩
    rw [itemsLoop_succ, itemsLoop_succ, Run.bind_eq_ok]
    constructor
    · rintro ⟨acc₁, st₁, h1, h⟩
      obtain ⟨e, he, hs⟩ := (hitem _ _ _ _ hd).mp h1
      obtain ⟨es, hes, hf⟩ := (hnext ((hk _ _ _ he).trans hd)).mp h
      refine ⟨e :: es, ?_, by rw [foldlM_cons, hs]; exact hf⟩
      rw [pushItem, bind_assoc, bind_of_ok he, pure_bind, hes, append_assoc]
      rfl
    · rintro ⟨es, h, hf⟩
      rw [pushItem, Run.bind_assoc, Run.bind_eq_ok] at h
      obtain ⟨e, st₁, he, h⟩ := h
      rw [pure_bind] at h
      obtain ⟨es', hes⟩ := itemsNext_push_extends h
      obtain rfl : es = e :: es' := by simpa using hes
      rw [foldlM_cons] at hf
      obtain ⟨acc₁, hs, hf⟩ := except_bind_eq_ok.mp hf
      exact ⟨acc₁, st₁, (hitem _ _ _ _ hd).mpr ⟨e, he, hs⟩, (hnext ((hk _ _ _ he).trans hd)).mpr ⟨es', by rw [h]; simp, hf⟩⟩

theorem items_fold {item : β → P β} (hitem : FoldsItem item parse step d) (hk : DepthKept parse) {acc b : β} (hd : st.depth = d) :
    items close message item acc st = .ok (b, st') ↔
      ∃ es, items close message (pushItem parse) [] st = .ok (es, st') ∧ es.foldlM step acc = .ok b := by
  simp only [items, bind_apply, skipWs_apply, peek_apply]
  split
  · constructor
    · intro h
      cases h
      exact ⟨[], rfl, rfl⟩
    · rintro ⟨es, h, hf⟩
      cases h
      cases hf
      rfl
  · exact itemsLoop_fold hitem hk [] hd

theorem expect_ok_iff : expect b st = .ok ((), st') ↔ st.rest = b :: st'.rest ∧ st'.depth = st.depth := by
  obtain ⟨r, d⟩ := st
  obtain ⟨r', d'⟩ := st'
  rw [expect, bind_of_ok (bump_apply _)]
  cases r with
  | nil => simp
  | cons c r =>
    by_cases hc : c = b
    · subst hc
      simp [eq_comm]
    · simp [hc]

theorem enter_ok_iff : enter st = .ok ((), st') ↔ st.depth + 1 ≤ MAX_DEPTH ∧ st' = ⟨st.rest, st.depth + 1⟩ := by
  rw [enter_eq]
  split
  next h => simp [h, eq_comm]
  next h => simp [h]

/-- The inside of a container that starts with `open'`: where it begins, how deep it is, and where it ends. -/
def Inside (open' : UInt8) (inner : P β) (st : Parser) (out : β) (st' : Parser) : Prop :=
  ∃ r st₁, (skip st).rest = open' :: r ∧ st.depth + 1 ≤ MAX_DEPTH ∧ inner ⟨r, st.depth + 1⟩ = .ok (out, st₁) ∧
    leave st₁ = .ok ((), st')

/-- The streaming reader enters after the opening byte. -/
theorem read_ok_iff {inner : P β} {out : β} : (do
      skipWs
      expect open'
      enter
      let out ← inner
      leave
      pure out : P β) st = .ok (out, st') ↔ Inside open' inner st out st' := by
  rw [bind_of_ok skipWs_eq]
  constructor
  · intro h
    obtain ⟨_, st₁, h1, h⟩ := bind_eq_ok.mp h
    obtain ⟨_, st₂, h2, h⟩ := bind_eq_ok.mp h
    obtain ⟨o, st₃, h3, h⟩ := bind_eq_ok.mp h
    obtain ⟨_, st₄, h4, h⟩ := bind_eq_ok.mp h
    cases h
    obtain ⟨hr, hd⟩ := expect_ok_iff.mp h1
    obtain ⟨hlt, rfl⟩ := enter_ok_iff.mp h2
    rw [hd] at hlt h3
    exact ⟨_, st₃, hr, hlt, h3, h4⟩
  · rintro ⟨r, st₁, hr, hlt, h1, h2⟩
    have hexp : expect open' (skip st) = .ok ((), ⟨r, st.depth⟩) := expect_ok_iff.mpr ⟨hr, rfl⟩
    have hent : enter ⟨r, st.depth⟩ = .ok ((), ⟨r, st.depth + 1⟩) := enter_ok_iff.mpr ⟨hlt, rfl⟩
    rw [bind_of_ok hexp, bind_of_ok hent, bind_of_ok h1, bind_of_ok h2]
    rfl

/-- The parser enters before it. -/
theorem parseContainer_ok_iff {inner : P β} {f : β → Value} : (do
      enter
      let v ← (do
        expect open'
        let out ← inner
        pure (f out) : P Value)
      leave
      pure v : P Value) (skip st) = .ok (v, st') ↔ ∃ out, Inside open' inner st out st' ∧ v = f out := by
  constructor
  · intro h
    obtain ⟨hlt, st₁, h, h2⟩ := container_ok h
    obtain ⟨_, st₂, h1, h⟩ := bind_eq_ok.mp h
    obtain ⟨out, st₃, h3, h⟩ := bind_eq_ok.mp h
    cases h
    obtain ⟨hr', hd⟩ := expect_ok_iff.mp h1
    have hst₂ : st₂ = ⟨st₂.rest, st.depth + 1⟩ := congrArg (Parser.mk st₂.rest) hd
    rw [hst₂] at h3
    exact ⟨out, ⟨_, _, hr', hlt, h3, h2⟩, rfl⟩
  · rintro ⟨out, ⟨r', st₁, hr', hlt, h1, h2⟩, rfl⟩
    have hent : enter (skip st) = .ok ((), ⟨(skip st).rest, st.depth + 1⟩) := enter_ok_iff.mpr ⟨hlt, rfl⟩
    have hexp : expect open' ⟨(skip st).rest, st.depth + 1⟩ = .ok ((), ⟨r', st.depth + 1⟩) := expect_ok_iff.mpr ⟨hr', rfl⟩
    rw [bind_of_ok hent, bind_assoc, bind_of_ok hexp, bind_assoc, bind_of_ok h1, pure_bind, bind_of_ok h2]
    rfl

theorem Inside.congr {inner inner' : P β} {out : β}
    (h : ∀ r, st.depth + 1 ≤ MAX_DEPTH → inner ⟨r, st.depth + 1⟩ = inner' ⟨r, st.depth + 1⟩) :
    Inside open' inner st out st' ↔ Inside open' inner' st out st' := by
  refine exists_congr (fun r => exists_congr (fun st₁ => and_congr_right (fun _ => and_congr_right (fun hlt => ?_))))
  rw [h r hlt]

end Fold

/-! ## Values as their parts -/

theorem depthKept_parseValue : DepthKept parseValue := depthKept_parseValueFuel

theorem parseValueFuel_inner (hd : d + 1 ≤ MAX_DEPTH) (st : Parser) (hst : st.depth = d + 1) :
    parseValueFuel MAX_DEPTH st = parseValue st :=
  parseValueFuel_eq_parseValue (by omega) (by omega)

/-- A container is its opening byte, what stands inside and its closing byte. -/
theorem parseValue_container_iff {β : Type} {inner : P β} {f : β → Value} {out : β} (hp : ParsesAs MAX_DEPTH open' (do
      enter
      let v ← (do
        expect open'
        let out ← inner
        pure (f out) : P Value)
      leave
      pure v)) (hopen : opener (f out) = some open') (hinj : Function.Injective f) :
    parseValue st = .ok (f out, st') ↔ Inside open' inner st out st' := by
  constructor
  · intro h
    obtain ⟨r, hr⟩ := opener_of_parseValue h hopen
    rw [parseValue_of hr hp] at h
    obtain ⟨out', hin, heq⟩ := parseContainer_ok_iff.mp h
    rw [hinj heq]
    exact hin
  · intro h
    obtain ⟨r, _, hr, _⟩ := id h
    rw [parseValue_of hr hp]
    exact parseContainer_ok_iff.mpr ⟨out, h, rfl⟩

/-- An array is what stands between its brackets. -/
theorem parseValue_array_iff {a : List Value} :
    parseValue st = .ok (.array a, st') ↔ Inside (byte '[') (arrayItems (pushItem parseValue) []) st a st' := by
  refine (parseValue_container_iff (f := Value.array) .array rfl (fun _ _ h => Value.array.inj h)).trans (Inside.congr (fun r hlt => ?_))
  exact items_push_congr (parseValueFuel_inner hlt) depthKept_parseValueFuel rfl

/-- An object is what stands between its braces. -/
theorem parseValue_object_iff {o : Object} :
    parseValue st = .ok (.object o, st') ↔ Inside (byte '\x7b') (objectItems (pushItem (entry parseValue)) []) st o st' := by
  refine (parseValue_container_iff (f := Value.object) .object rfl (fun _ _ h => Value.object.inj h)).trans
    (Inside.congr (fun r hlt => ?_))
  rw [parseEntry_eq]
  exact items_push_congr (fun s hs => entry_congr (parseValueFuel_inner hlt) hs) (depthKept_entry depthKept_parseValueFuel) rfl

section Read

variable {β : Type}

/-- The inside of a container, with its entries taken in one by one or collected and folded over. -/
theorem inside_fold {ε : Type} {item : β → P β} {parse : P ε} {step : β → ε → Res β} {init out : β}
    (hitem : st.depth + 1 ≤ MAX_DEPTH → FoldsItem item parse step (st.depth + 1)) (hk : DepthKept parse) :
    Inside open' (items close message item init) st out st' ↔
      ∃ es, Inside open' (items close message (pushItem parse) []) st es st' ∧ es.foldlM step init = .ok out := by
  constructor
  · rintro ⟨r, st₁, hr, hlt, h1, h2⟩
    obtain ⟨es, hes, hfold⟩ := (items_fold (hitem hlt) hk rfl).mp h1
    exact ⟨es, ⟨r, st₁, hr, hlt, hes, h2⟩, hfold⟩
  · rintro ⟨es, ⟨r, st₁, hr, hlt, hes, h2⟩, hfold⟩
    exact ⟨r, st₁, hr, hlt, (items_fold (hitem hlt) hk rfl).mpr ⟨es, hes, hfold⟩, h2⟩

/-- Reading an array by elements. -/
theorem readSeq_ok_iff {f : β → P β} {step : β → Value → Res β} {init out : β}
    (hf : st.depth + 1 ≤ MAX_DEPTH → FoldsItem f parseValue step (st.depth + 1)) :
    readSeq f init st = .ok (out, st') ↔ ∃ a, parseValue st = .ok (.array a, st') ∧ a.foldlM step init = .ok out := by
  rw [readSeq, read_ok_iff]
  simp only [parseValue_array_iff]
  exact inside_fold hf depthKept_parseValue

/-- The two key scanners accept the same keys. -/
theorem readKey_ok_iff {k : Str} : readKey st = .ok (k, st') ↔ parseString st = .ok (k, st') := by
  rw [readKey, bind_of_ok (peek_apply _)]
  by_cases hb : st.rest.head? = some (byte '"')
  · obtain ⟨r, hr⟩ := head?_eq_some_iff.mp hb
    have hexp : expect (byte '"') st = .ok ((), ⟨r, st.depth⟩) := expect_ok_iff.mpr ⟨hr, rfl⟩
    rw [if_neg (not_not_intro hb), bind_of_ok (bump_apply _), parseString, bind_of_ok hexp, hr]
    rfl
  · rw [if_pos hb]
    refine ⟨by rintro ⟨⟩, fun h => ?_⟩
    obtain ⟨_, st₁, h1, -⟩ := bind_eq_ok.mp h
    exact absurd (by rw [(expect_ok_iff.mp h1).1]; rfl) hb

variable {f : Str → β → P β}

/-- An entry is read as its key and then its value. -/
theorem foldsItem_readEntry {step : β → Str × Value → Res β} (hf : ∀ key, FoldsItem (f key) parseValue (fun acc v => step acc (key, v)) d) :
    FoldsItem (readEntry f) (entry parseValue) step d := by
  intro acc st acc' st' hd
  have hread : readEntry f acc = (do
      let key ← entryKey readKey
      f key acc) := by
    simp only [readEntry, entryKey, bind_assoc, pure_bind]
  have hkey : ∀ {key st₁}, entryKey readKey st = .ok (key, st₁) ↔ entryKey parseString st = .ok (key, st₁) := by
    simp only [entryKey, bind_eq_ok, readKey_ok_iff, implies_true]
  rw [hread, entry_eq, bind_eq_ok]
  constructor
  · rintro ⟨key, st₁, h1, h⟩
    rw [hkey] at h1
    obtain ⟨v, hv, hs⟩ := (hf key _ _ _ _ ((depthKept_entryKey _ _ _ h1).trans hd)).mp h
    refine ⟨(key, v), ?_, hs⟩
    rw [bind_of_ok h1, bind_of_ok hv]
    rfl
  · rintro ⟨e, h, hs⟩
    obtain ⟨key, st₁, h1, h⟩ := bind_eq_ok.mp h
    obtain ⟨v, st₂, hv, h⟩ := bind_eq_ok.mp h
    cases h
    exact ⟨key, st₁, hkey.mpr h1, (hf key _ _ _ _ ((depthKept_entryKey _ _ _ h1).trans hd)).mpr ⟨v, hv, hs⟩⟩

/-- Reading an object by entries. -/
theorem readMap_ok_iff {s : β → Str × Value → Res β} {init out : β}
    (hf : st.depth + 1 ≤ MAX_DEPTH → ∀ key, FoldsItem (f key) parseValue (fun acc v => s acc (key, v)) (st.depth + 1)) :
    readMap f init st = .ok (out, st') ↔ ∃ o, parseValue st = .ok (.object o, st') ∧ o.foldlM s init = .ok out := by
  rw [readMap, read_ok_iff]
  simp only [parseValue_object_iff]
  exact inside_fold (fun hlt => foldsItem_readEntry (hf hlt)) (depthKept_entry depthKept_parseValue)

end Read

/-! ## Decoders -/

/-- The streaming decoder `p` succeeds exactly where the parser does and `dec` accepts what it returns. -/
def Streams (p : P Data) (dec : Value → Res Data) (st : Parser) : Prop :=
  ∀ x st', p st = .ok (x, st') ↔ ∃ v, parseValue st = .ok (v, st') ∧ dec v = .ok x

variable {p : P Data}

theorem Streams.bind_pure {β : Type} (h : Streams p dec st) {f : Data → β} {y : β} : (do
      let d ← p
      pure (f d) : P β) st = .ok (y, st') ↔ ∃ v, parseValue st = .ok (v, st') ∧ (dec v).map f = .ok y := by
  rw [bind_eq_ok]
  constructor
  · rintro ⟨d, st₁, h1, h2⟩
    cases h2
    obtain ⟨v, hv, hd⟩ := (h d st').mp h1
    exact ⟨v, hv, congrArg (Except.map f) hd⟩
  · rintro ⟨v, hv, hy⟩
    obtain ⟨d, hd, rfl⟩ := map_eq_ok.mp hy
    exact ⟨d, st', (h d st').mpr ⟨v, hv, hd⟩, rfl⟩

variable {α : Type}

variable {r : Except CodecError α}

theorem ofExcept_eq_ok {a : α} : Res.ofExcept r = .ok a ↔ r = .ok a := by
  cases r <;> simp [Res.ofExcept]

theorem lift_eq_ok {a : α} : (lift r : P α) st = .ok (a, st') ↔ r = .ok a ∧ st' = st := by
  cases r with
  | error e => simp
  | ok b => simp [eq_comm]

/-- The default `decode_from`: parse a value, then decode it. -/
theorem streams_scalar (s : ScalarTy) : Streams (do
      let v ← decodeValue
      lift (decodeScalar s v)) (fun v => Res.ofExcept (decodeScalar s v)) st := by
  intro x st'
  rw [bind_eq_ok, decodeValue_eq]
  constructor
  · rintro ⟨v, st₁, h1, h2⟩
    obtain ⟨hs, rfl⟩ := lift_eq_ok.mp h2
    exact ⟨v, h1, ofExcept_eq_ok.mpr hs⟩
  · rintro ⟨v, h1, h2⟩
    exact ⟨v, st', h1, lift_eq_ok.mpr ⟨ofExcept_eq_ok.mp h2, rfl⟩⟩

/-- A string, and what is made of it. -/
theorem streams_string (f : Str → Except CodecError Data) : Streams (do
      let s ← decodeString
      lift (f s)) (fun v => Res.ofExcept ((decodeStr v).bind f)) st := by
  intro x st'
  rw [bind_eq_ok]
  constructor
  · rintro ⟨s, st₁, h1, h2⟩
    obtain ⟨hs, rfl⟩ := lift_eq_ok.mp h2
    exact ⟨.str s, decodeString_ok_iff.mp h1, ofExcept_eq_ok.mpr hs⟩
  · rintro ⟨v, h1, h2⟩
    cases v with
    | str s => exact ⟨s, st', decodeString_ok_iff.mpr h1, lift_eq_ok.mpr ⟨ofExcept_eq_ok.mp h2, rfl⟩⟩
    | _ => cases h2

theorem takeLiteral_null : takeLiteral "null".toList st =
      if (utf8 "null".toList).isPrefixOf st.rest then .ok (true, ⟨st.rest.drop 4, st.depth⟩) else .ok (false, st) := rfl

/-- `null` is `None`, anything else is `Some`. -/
theorem streams_option (h : Streams p dec (skip st)) : Streams (do
      if ← peekNull then
        decodeNull
        pure Data.none
      else
        let d ← p
        pure (.some d))
      (fun v => match v with
        | .null => .ok .none
        | other => (dec other).map .some) st := by
  have hpeek : peekNull st = .ok ((utf8 "null".toList).isPrefixOf (skip st).rest, skip st) := rfl
  intro x st'
  rw [bind_of_ok hpeek]
  cases hn : (utf8 "null".toList).isPrefixOf (skip st).rest with
  | true =>
    have hlit : takeLiteral "null".toList (skip st) = .ok (true, ⟨(skip st).rest.drop 4, st.depth⟩) := by
      rw [takeLiteral_null, hn]
      rfl
    have hparse := parseValue_null_iff.mpr hlit
    have hdec : decodeNull (skip st) = .ok ((), ⟨(skip st).rest.drop 4, st.depth⟩) := by
      rw [decodeNull, bind_of_ok skipWs_eq, skip_skip, bind_of_ok hlit]
      rfl
    rw [if_pos rfl, bind_of_ok hdec]
    constructor
    · intro hx
      cases hx
      exact ⟨.null, hparse, rfl⟩
    · rintro ⟨v, hv, hx⟩
      rw [hparse] at hv
      cases hv
      cases hx
      rfl
  | false =>
    have hnot : ∀ st', parseValue st ≠ .ok (.null, st') := by
      intro st₁ hnull
      rw [parseValue_null_iff, takeLiteral_null, hn] at hnull
      cases hnull
    rw [if_neg (by simp)]
    refine h.bind_pure.trans ?_
    rw [parseValue_skip]
    refine exists_congr (fun v => and_congr_right (fun hv => ?_))
    cases v with
    | null => exact absurd hv (hnot st')
    | _ => exact Iff.rfl

/-- Pushing decoded elements one by one is decoding the list. -/
theorem foldlM_push (a : List Value) (acc : List Data) :
    a.foldlM (fun out v => (dec v).map (fun d => out ++ [d])) acc = (a.mapM dec).map (acc ++ ·) := by
  induction a generalizing acc with
  | nil => exact congrArg Except.ok (append_nil acc).symm
  | cons v a ih =>
    rw [foldlM_cons, mapM_cons]
    cases dec v with
    | error e => rfl
    | ok d =>
      refine (ih (acc ++ [d])).trans ?_
      simp only [bind, Except.bind]
      cases a.mapM dec with
      | error e => rfl
      | ok ds => simp [Except.map, pure, Except.pure]

variable {o : Object}

theorem decodeEntries_eq_foldlM (acc : List (Str × Data)) :
    decodeEntries dec o acc = o.foldlM (fun out e => (dec e.2).map (fun d => insertEntry e.1 d out)) acc := by
  induction o generalizing acc with
  | nil => rfl
  | cons e o ih =>
    obtain ⟨k, v⟩ := e
    rw [foldlM_cons, decodeEntries]
    cases dec v with
    | error e => rfl
    | ok d => exact ih _

/-- Take an entry of an object into the slots of a struct. -/
def fillSlot (plan : List Slot) (dec : Ty → Value → Res Data) (slots : List (Option Data)) (e : Str × Value) :
    Res (List (Option Data)) :=
  match slotOf e.1 plan with
  | some (i, t) => (dec t e.2).map (fun d => slots.set i (some d))
  | none => .ok slots

theorem scanFields_eq_foldlM (plan : List Slot) (dec : Ty → Value → Res Data) (slots : List (Option Data))
    : scanFields plan dec o slots = o.foldlM (fillSlot plan dec) slots := by
  induction o generalizing slots with
  | nil => rfl
  | cons e o ih =>
    obtain ⟨k, v⟩ := e
    rw [foldlM_cons, scanFields, fillSlot]
    cases slotOf k plan with
    | none => exact ih _
    | some s =>
      obtain ⟨i, t⟩ := s
      simp only
      cases dec t v with
      | error e => rfl
      | ok d => exact ih _

/-- A decoder that streams, used on an element of a container. -/
theorem Streams.foldsItem {β : Type} (h : ∀ st, st.depth = d → Streams p dec st) (take : β → Data → β) : FoldsItem (fun acc => do
      let x ← p
      pure (take acc x)) parseValue (fun acc v => (dec v).map (take acc)) d := by
  intro acc st acc' st' hd
  exact (h st hd).bind_pure

/-- A reader of a container that folds over its entries, and what is made of the result. -/
theorem Streams.of_container {β γ : Type} {reader : P β} {w : γ → Value} {fold : γ → Res β} {g : β → Except CodecError Data}
    (hr : ∀ out st', reader st = .ok (out, st') ↔ ∃ a, parseValue st = .ok (w a, st') ∧ fold a = .ok out)
    (hdec : ∀ a, dec (w a) = (fold a).bind (fun out => Res.ofExcept (g out))) (hother : ∀ v x, dec v = .ok x → ∃ a, v = w a) :
    Streams (do
      let out ← reader
      lift (g out)) dec st := by
  intro x st'
  rw [bind_eq_ok]
  constructor
  · rintro ⟨out, st₁, h1, h2⟩
    obtain ⟨hfin, rfl⟩ := lift_eq_ok.mp h2
    obtain ⟨a, ha, hfold⟩ := (hr _ _).mp h1
    refine ⟨w a, ha, ?_⟩
    rw [hdec, hfold]
    exact ofExcept_eq_ok.mpr hfin
  · rintro ⟨v, hv, hx⟩
    obtain ⟨a, rfl⟩ := hother v x hx
    rw [hdec] at hx
    obtain ⟨out, hfold, hx⟩ := except_bind_eq_ok.mp hx
    exact ⟨out, st', (hr _ _).mpr ⟨a, hv, hfold⟩, lift_eq_ok.mpr ⟨ofExcept_eq_ok.mp hx, rfl⟩⟩

theorem asObject_eq_some : v.asObject = some o ↔ v = .object o := by
  cases v <;> simp [Value.asObject]

variable {fields : Ty → P Data} {decs : Ty → Value → Res Data}

/-- Reading the entry of a struct: the value of a known key into its slot, any other value skipped. -/
theorem foldsItem_fillSlot {plan : List Slot} (hF : ∀ t st, st.depth = d → Streams (fields t) (decs t) st) (key : Str) :
    FoldsItem (fun slots => do
      match slotOf key plan with
      | some (i, t) =>
        let x ← fields t
        pure (slots.set i (some x))
      | none =>
        skipValue
        pure slots) parseValue (fun slots v => fillSlot plan decs slots (key, v)) d := by
  cases hs : slotOf key plan with
  | some s =>
    obtain ⟨i, t⟩ := s
    have h := Streams.foldsItem (hF t) (fun (slots : List (Option Data)) x => slots.set i (some x))
    simpa only [fillSlot, hs] using h
  | none =>
    intro slots st slots' st' _
    simp only [fillSlot, hs, skipValue, skipWs_parseValue, bind_assoc]
    rw [bind_eq_ok]
    constructor
    · rintro ⟨v, st₁, h1, h2⟩
      cases h2
      exact ⟨v, h1, rfl⟩
    · rintro ⟨v, h1, h2⟩
      cases h2
      exact ⟨v, st', h1, rfl⟩

/-- The streaming decoder of a type does what the strict tree decoder does, if that holds for the fields of structs one container
further in. -/
theorem decodeFromTy_streams (Γ : Env) (t : Ty) (hF : ∀ t s, st.depth < s.depth → s.depth ≤ MAX_DEPTH → Streams (fields t) (decs t) s)
    (hd : st.depth ≤ MAX_DEPTH) :
    Streams (decodeFromTy Γ fields t) (decodeTy .strict Γ decs t) st := by
  induction t generalizing st with
  | scalar s => exact streams_scalar s
  | string => exact streams_string (fun s => .ok (.str s))
  | option t ih => exact streams_option (ih hF hd)
  | box t ih => exact fun x st' => (ih hF hd).bind_pure
  | vec t ih =>
    refine Streams.of_container (w := Value.array) (g := fun out => .ok (.vec out)) (fun out st' => readSeq_ok_iff
      (fun hlt => Streams.foldsItem (fun s hs => ih (fun t s' h => hF t s' (by omega)) (by omega)) _)) (fun a => ?_)
      (fun v x hx => ?_)
    · rw [foldlM_push, decodeTy]
      cases a.mapM (decodeTy .strict Γ decs t) <;> rfl
    · cases v with
      | array a => exact ⟨a, rfl⟩
      | _ => cases hx
  | map t ih =>
    refine Streams.of_container (w := Value.object) (g := fun out => .ok (.map out)) (fun out st' => readMap_ok_iff
      (s := fun out e => (decodeTy .strict Γ decs t e.2).map (fun d => insertEntry e.1 d out))
      (fun hlt key => Streams.foldsItem (fun s hs => ih (fun t s' h => hF t s' (by omega)) (by omega)) _)) (fun o => ?_)
      (fun v x hx => ?_)
    · rw [← decodeEntries_eq_foldlM, decodeTy]
      simp only [Value.asObject]
      cases decodeEntries (decodeTy .strict Γ decs t) o [] <;> rfl
    · cases v with
      | object o => exact ⟨o, rfl⟩
      | _ => cases hx
  | struct name =>
    have hfin : ∀ slots, (do
        let ds ← lift (buildFields (Γ.plan name) slots)
        pure (.struct name ds) : P Data) = lift ((buildFields (Γ.plan name) slots).map (.struct name)) := by
      intro slots
      cases buildFields (Γ.plan name) slots <;> rfl
    rw [decodeFromTy]
    simp only [hfin]
    refine Streams.of_container (w := Value.object) (fun out st' => readMap_ok_iff (s := fillSlot (Γ.plan name) decs)
      (fun hlt key => foldsItem_fillSlot (fun t s hs => hF t s (by omega) (by omega)) key)) (fun o => ?_)
      (fun v x hx => ?_)
    · rw [← scanFields_eq_foldlM, decodeTy]
      simp only [Value.asObject]
      cases scanFields (Γ.plan name) decs o (emptySlots (Γ.plan name)) with
      | error e => rfl
      | ok slots =>
        simp only [bind, Except.bind]
        cases buildFields (Γ.plan name) slots <;> rfl
    · cases v with
      | object o => exact ⟨o, rfl⟩
      | _ => cases hx
  | enum name => exact streams_string _

/-- Streaming decoding is parsing and then decoding strictly. -/
theorem decodeFromFuel_streams (Γ : Env) (fuel : Nat) (t : Ty) (hd : st.depth ≤ MAX_DEPTH) (hf : MAX_DEPTH < fuel + st.depth) :
    Streams (decodeFromFuel Γ fuel t) (decodeFuel .strict Γ fuel t) st := by
  induction fuel generalizing t st with
  | zero => omega
  | succ fuel ih => exact decodeFromTy_streams Γ t (fun t s hlt hs => ih t hs (by omega)) hd

/-! ## Whole texts -/

/-- A text is accepted when its value is parsed and only white space is left. -/
theorem run_finish_eq_ok {p : P α} {x : α} : run (do
      let v ← p
      finish v) input = .ok x ↔ ∃ st', p (.new input) = .ok (x, st') ∧ (skip st').rest = [] := by
  rw [run, bind_apply]
  cases h : p (.new input) with
  | error e => simp [Except.map]
  | ok r =>
    obtain ⟨y, st₁⟩ := r
    have hfin : finish y st₁ =
        if (skip st₁).rest ≠ [] then .error (.error (.parse "trailing characters after JSON value"))
        else .ok (y, skip st₁) := by
      rw [finish, Run.bind_of_ok skipWs_eq, Run.bind_of_ok (Run.get_apply _), Run.ite_apply]
      rfl
    simp only [hfin]
    by_cases hr : (skip st₁).rest = []
    · rw [if_neg (not_not_intro hr)]
      constructor
      · intro hx
        cases hx
        exact ⟨st₁, rfl, hr⟩
      · rintro ⟨st', hx, -⟩
        cases hx
        rfl
    · rw [if_pos hr]
      refine ⟨by rintro ⟨⟩, ?_⟩
      rintro ⟨st', hx, hr'⟩
      cases hx
      exact absurd hr' hr

theorem fromStr_eq_ok : fromStr input = .ok v ↔ ∃ st', parseValue (.new input) = .ok (v, st') ∧ (skip st').rest = [] := by
  rw [fromStr, skipWs_parseValue, run_finish_eq_ok]

/-- `json::decode` is `json::from_str` followed by strict decoding. -/
theorem decode_eq_ok {Γ : Env} {t : Ty} {x : Data} :
    decode Γ t input = .ok x ↔ ∃ v, fromStr input = .ok v ∧ decodeFuel .strict Γ (MAX_DEPTH + 1) t v = .ok x := by
  have hs : Streams (decodeFrom Γ t) (decodeFuel .strict Γ (MAX_DEPTH + 1) t) (.new input) :=
    decodeFromFuel_streams Γ (MAX_DEPTH + 1) t (Nat.zero_le _) (Nat.lt_succ_self _)
  rw [decode, run_finish_eq_ok]
  simp only [fromStr_eq_ok]
  constructor
  · rintro ⟨st', h, hr⟩
    obtain ⟨v, hv, hx⟩ := (hs x st').mp h
    exact ⟨v, ⟨st', hv, hr⟩, hx⟩
  · rintro ⟨v, ⟨st', hv, hr⟩, hx⟩
    exact ⟨st', (hs x st').mpr ⟨v, hv, hx⟩, hr⟩

/-- No document comes out nested past the limit. -/
theorem depth_le_of_fromStr (h : fromStr input = .ok v) : v.depth ≤ MAX_DEPTH := by
  obtain ⟨st', hv, -⟩ := fromStr_eq_ok.mp h
  have := (parseValueFuel_within _ _ _ (Nat.zero_le _) hv).2
  omega

end Ferroly.Json
