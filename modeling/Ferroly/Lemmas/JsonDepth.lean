import Ferroly.Lemmas.JsonRead

/-!
# Nesting in the JSON parser

A parser that succeeds leaves the depth counter as it found it, no value comes out nested past the limit, and the fuel of
`parseValueFuel` does not matter as long as it covers the containers still to be entered.
-/

namespace Ferroly.Json

open List Run Run

variable {d fuel : Nat} {p value : P Value} {st st' : Parser} {message : String} {close : UInt8} {v : Value}

variable {α β : Type}

/-- On success the depth counter is what it was. -/
def DepthKept (p : P α) : Prop := ∀ st a st', p st = .ok (a, st') → st'.depth = st.depth

namespace DepthKept

theorem pure (a : α) : DepthKept (Pure.pure a : P α) := by
  intro st b st' h
  cases h
  rfl

theorem fail (e : CodecError) : DepthKept (fail e : P α) := by
  intro st b st' h
  cases h

theorem lift (r : Except CodecError α) : DepthKept (lift r : P α) := by
  intro st b st' h
  cases r with
  | ok a => cases h; rfl
  | error e => cases h

theorem bind {p : P α} {f : α → P β} (hp : DepthKept p) (hf : ∀ a, DepthKept (f a)) : DepthKept (p >>= f) := by
  intro st b st' h
  obtain ⟨a, st₁, h1, h2⟩ := bind_eq_ok.mp h
  rw [hf a _ _ _ h2, hp _ _ _ h1]

/-- After a step that keeps the depth, only what the rest does at this depth matters. -/
theorem bind_congr {p : P α} {f g : α → P β} (hp : DepthKept p)
    (h : ∀ a st, st.depth = d → f a st = g a st) (hd : st.depth = d) : (p >>= f) st = (p >>= g) st := by
  rw [bind_apply, bind_apply]
  cases hr : p st with
  | error e => rfl
  | ok r =>
    obtain ⟨a, st'⟩ := r
    exact h a st' ((hp _ _ _ hr).trans hd)

theorem ite {c : Prop} [Decidable c] {p q : P α} (hp : DepthKept p) (hq : DepthKept q) : DepthKept (if c then p else q) := by
  split
  · exact hp
  · exact hq

theorem get : DepthKept (get : P Parser) := by
  intro st b st' h
  cases h
  rfl

end DepthKept

/-! ## Tokens -/

theorem depthKept_peek : DepthKept peek := by
  intro st a st' h
  cases h
  rfl

theorem depthKept_bump : DepthKept bump := by
  intro st a st' h
  cases h
  rfl

theorem depthKept_skipWs : DepthKept skipWs := by
  intro st a st' h
  cases h
  rfl

theorem depthKept_takeWhile (q : UInt8 → Bool) : DepthKept (takeWhile q) := by
  intro st a st' h
  cases h
  rfl

theorem depthKept_slice (b : Bytes) : DepthKept (slice b) := by
  unfold slice
  split
  · exact .pure _
  · intro st a st' h
    cases h

theorem depthKept_takeLiteral (lit : Str) : DepthKept (takeLiteral lit) := by
  intro st a st' h
  unfold takeLiteral at h
  split at h <;> cases h <;> rfl

theorem depthKept_expect (b : UInt8) : DepthKept (expect b) :=
  .bind depthKept_bump (fun _ => .ite (.pure _) (.fail _))

theorem depthKept_parseBool : DepthKept parseBool :=
  .bind (depthKept_takeLiteral _) (fun _ => .ite (.pure _) (.bind (depthKept_takeLiteral _) (fun _ => .ite (.pure _) (.fail _))))

theorem depthKept_parseNull : DepthKept parseNull :=
  .bind (depthKept_takeLiteral _) (fun _ => .ite (.pure _) (.fail _))

theorem depthKept_readHex (n v : Nat) : DepthKept (readHex n v) := by
  induction n generalizing v with
  | zero => exact .pure _
  | succ n ih =>
    refine .bind depthKept_bump (fun b => ?_)
    cases b with
    | none => exact .fail _
    | some b =>
      dsimp only
      split
      · exact .fail _
      · exact ih _

theorem depthKept_parseUnicodeEscape : DepthKept parseUnicodeEscape := by
  refine .bind (depthKept_readHex _ _) (fun high => .ite ?_ ?_)
  · refine .bind depthKept_bump (fun _ => .ite (.bind depthKept_bump (fun _ => .ite ?_ (.fail _))) (.fail _))
    refine .bind (depthKept_readHex _ _) (fun low => .ite (.fail _) ?_)
    split
    · exact .pure _
    · exact .fail _
  · split
    · exact .pure _
    · exact .fail _

theorem depthKept_parseEscape : DepthKept parseEscape := by
  refine .bind depthKept_bump (fun b => ?_)
  cases b with
  | none => exact .fail _
  | some b =>
    exact .ite (.pure _) (.ite (.pure _) (.ite (.pure _) (.ite (.pure _) (.ite (.pure _) (.ite (.pure _) (.ite (.pure _)
      (.ite (.pure _) (.ite depthKept_parseUnicodeEscape (.fail _)))))))))

theorem depthKept_parseStringEscapedLoop (s : Str) (run : Bytes) : DepthKept (parseStringEscapedLoop fuel s run) := by
  induction fuel generalizing s run with
  | zero =>
    intro st a st' h
    cases h
  | succ fuel ih =>
    refine .bind (depthKept_takeWhile _) (fun clean => .bind depthKept_bump (fun b => ?_))
    cases b with
    | none => exact .fail _
    | some b => exact .bind (depthKept_slice _) (fun _ => .ite (.pure _) (.bind depthKept_parseEscape (fun _ => ih _ _)))

theorem depthKept_parseStringBody : DepthKept parseStringBody := by
  refine .bind (depthKept_takeWhile _) (fun clean => .bind depthKept_peek (fun b => ?_))
  cases b with
  | none => exact .fail _
  | some b =>
    exact .ite (.bind (depthKept_slice _) (fun _ => .bind depthKept_bump (fun _ => .pure _)))
      (.bind .get (fun _ => depthKept_parseStringEscapedLoop _ _))

theorem depthKept_parseString : DepthKept parseString :=
  .bind (depthKept_expect _) (fun _ => depthKept_parseStringBody)

theorem depthKept_parseNumber : DepthKept parseNumber :=
  .bind (.bind depthKept_peek (fun _ => .ite (.bind depthKept_bump (fun _ => .pure _)) (.pure _)))
    (fun _ => .bind (depthKept_takeWhile _) (fun _ => .bind (depthKept_slice _) (fun _ => .lift _)))

/-! ## Containers -/

/-- What every entry keeps holds after the loop: the depth, and a property of what was taken in. -/
theorem itemsLoop_inv {item : β → P β} {I : β → Prop}
    (hitem : ∀ acc st acc' st', st.depth = d → I acc → item acc st = .ok (acc', st') → st'.depth = d ∧ I acc') {acc acc' : β}
    (hd : st.depth = d) (hI : I acc) (h : itemsLoop close message item fuel acc st = .ok (acc', st')) : st'.depth = d ∧ I acc' := by
  induction fuel generalizing acc st with
  | zero => cases h
  | succ fuel ih =>
    obtain ⟨acc₁, st₁, h1, h⟩ := bind_eq_ok.mp h
    obtain ⟨hd1, hI1⟩ := hitem _ _ _ _ hd hI h1
    obtain ⟨_, st₂, h2, h⟩ := bind_eq_ok.mp h
    have hd2 := (depthKept_skipWs _ _ _ h2).trans hd1
    obtain ⟨b, st₃, h3, h⟩ := bind_eq_ok.mp h
    have hd3 := (depthKept_bump _ _ _ h3).trans hd2
    cases b with
    | none => cases h
    | some b =>
      simp only [Run.ite_apply] at h
      split at h
      · exact ih hd3 hI1 h
      split at h
      · cases h
        exact ⟨hd3, hI1⟩
      · cases h

theorem items_inv {item : β → P β} {I : β → Prop}
    (hitem : ∀ acc st acc' st', st.depth = d → I acc → item acc st = .ok (acc', st') → st'.depth = d ∧ I acc') {acc acc' : β}
    (hd : st.depth = d) (hI : I acc) (h : items close message item acc st = .ok (acc', st')) : st'.depth = d ∧ I acc' := by
  obtain ⟨_, st₁, h1, h⟩ := bind_eq_ok.mp h
  have hd1 := (depthKept_skipWs _ _ _ h1).trans hd
  obtain ⟨b, st₂, h2, h⟩ := bind_eq_ok.mp h
  cases h2
  split at h
  · cases h
    exact ⟨hd1, hI⟩
  · exact itemsLoop_inv hitem hd1 hI h

variable {item item' : β → P β}

/-- The entries of a container do not depend on how an entry is parsed, only on what comes out of it at this depth. -/
theorem itemsLoop_congr (hitem : ∀ acc st, st.depth = d → item acc st = item' acc st)
    (hkept : ∀ acc st acc' st', st.depth = d → item acc st = .ok (acc', st') → st'.depth = d) (fuel : Nat) (acc : β) (hd : st.depth = d)
    : itemsLoop close message item fuel acc st = itemsLoop close message item' fuel acc st := by
  induction fuel generalizing acc st with
  | zero => rfl
  | succ fuel ih =>
    rw [itemsLoop, itemsLoop, bind_apply, bind_apply, ← hitem acc st hd]
    cases h : item acc st with
    | error e => rfl
    | ok r =>
      obtain ⟨acc₁, st₁⟩ := r
      have hd1 := hkept _ _ _ _ hd h
      simp only [bind_apply, skipWs_apply, bump_apply]
      cases (st₁.rest.dropWhile isWs).head? with
      | none => rfl
      | some b =>
        simp only [Run.ite_apply]
        split
        · exact ih _ hd1
        · rfl

theorem items_congr (hitem : ∀ acc st, st.depth = d → item acc st = item' acc st)
    (hkept : ∀ acc st acc' st', st.depth = d → item acc st = .ok (acc', st') → st'.depth = d) (acc : β) (hd : st.depth = d) :
    items close message item acc st = items close message item' acc st := by
  simp only [items, bind_apply, skipWs_apply, peek_apply]
  split
  · rfl
  · exact itemsLoop_congr hitem hkept _ _ hd

/-! ## Values -/

/-- The value is parsed at the depth it was found at, and does not reach past the limit. -/
def WithinDepth (p : P Value) : Prop :=
  ∀ st v st', st.depth ≤ MAX_DEPTH → p st = .ok (v, st') → st'.depth = st.depth ∧ st.depth + v.depth ≤ MAX_DEPTH

/-- Every token is a value without nesting. -/
theorem WithinDepth.of_token (hk : DepthKept p) (hv : ∀ st v st', p st = .ok (v, st') → v.depth = 0) : WithinDepth p := by
  intro st v st' hd h
  exact ⟨hk _ _ _ h, by rw [hv _ _ _ h]; exact hd⟩

/-- Parse an element and push it onto those before it. -/
def pushItem {ε : Type} (parse : P ε) (items : List ε) : P (List ε) := do
  let e ← parse
  pure (items ++ [e])

/-- An entry of an object by itself. -/
def entry (value : P Value) : P (Str × Value) := do
  skipWs
  let key ← parseString
  skipWs
  expect (byte ':')
  let v ← value
  pure (key, v)

theorem parseEntry_eq (value : P Value) : parseEntry value = pushItem (entry value) := by
  funext entries
  simp only [parseEntry, entry, pushItem, bind_assoc, pure_bind]

/-- The key of an entry, up to its colon. -/
def entryKey (scan : P Str) : P Str := do
  skipWs
  let key ← scan
  skipWs
  expect (byte ':')
  pure key

theorem entry_eq (value : P Value) : entry value = (do
      let key ← entryKey parseString
      let v ← value
      pure (key, v)) := by
  simp only [entry, entryKey, bind_assoc, pure_bind]

theorem depthKept_entryKey : DepthKept (entryKey parseString) :=
  .bind depthKept_skipWs (fun _ => .bind depthKept_parseString (fun _ => .bind depthKept_skipWs
    (fun _ => .bind (depthKept_expect _) (fun _ => .pure _))))

variable {b : UInt8}

/-- A container of entries that are each within the limit. -/
theorem items_within {ε : Type} {parse : P ε} {m : ε → Nat} {f : List ε → Value}
    (hp : ∀ st e st', st.depth ≤ MAX_DEPTH → parse st = .ok (e, st') → st'.depth = st.depth ∧ st.depth + m e ≤ MAX_DEPTH)
    (hf : ∀ {es k}, (∀ e ∈ es, m e ≤ k) → (f es).depth ≤ k + 1) (hd : st.depth ≤ MAX_DEPTH) (h : (do
      expect b
      let es ← items close message (pushItem parse) []
      pure (f es) : P Value) st = .ok (v, st'))
    : st'.depth = st.depth ∧ st.depth + v.depth ≤ MAX_DEPTH + 1 := by
  obtain ⟨_, st₁, h1, h⟩ := bind_eq_ok.mp h
  obtain ⟨es, st₂, h2, h⟩ := bind_eq_ok.mp h
  cases h
  have hinv := items_inv (I := fun es => ∀ e ∈ es, st.depth + m e ≤ MAX_DEPTH) (fun acc s acc' s' hs hI hel => by
    obtain ⟨e, s₁, he, hel⟩ := bind_eq_ok.mp hel
    cases hel
    obtain ⟨hs', hle⟩ := hp _ _ _ (by omega) he
    refine ⟨hs'.trans hs, fun u hu => ?_⟩
    rcases mem_append.mp hu with hu | hu
    · exact hI u hu
    · rw [mem_singleton.mp hu, ← hs]
      exact hle) (depthKept_expect _ _ _ _ h1) (by simp) h2
  have hle := hf (k := MAX_DEPTH - st.depth) (fun e he => Nat.le_sub_of_add_le' (hinv.2 e he))
  exact ⟨hinv.1, by omega⟩

theorem parseArray_within (hv : WithinDepth value) (hd : st.depth ≤ MAX_DEPTH) (h : parseArray value st = .ok (v, st')) :
    st'.depth = st.depth ∧ st.depth + v.depth ≤ MAX_DEPTH + 1 :=
  items_within (f := .array) hv (fun h => Nat.succ_le_succ (Value.depthList_le.mpr h)) hd h

theorem parseObject_within (hv : WithinDepth value) (hd : st.depth ≤ MAX_DEPTH) (h : parseObject value st = .ok (v, st')) :
    st'.depth = st.depth ∧ st.depth + v.depth ≤ MAX_DEPTH + 1 := by
  rw [parseObject, parseEntry_eq] at h
  refine items_within (f := .object) (fun s e s' hs he => ?_) (fun h => Nat.succ_le_succ (Value.depthEntries_le.mpr h)) hd h
  rw [entry_eq] at he
  obtain ⟨key, s₁, h1, he⟩ := bind_eq_ok.mp he
  obtain ⟨w, s₂, h2, he⟩ := bind_eq_ok.mp he
  cases he
  have hs1 := depthKept_entryKey _ _ _ h1
  obtain ⟨hs2, hle⟩ := hv _ _ _ (by omega) h2
  rw [hs1] at hs2 hle
  exact ⟨hs2, hle⟩

theorem leave_of_depth (h : st.depth = d + 1) : leave st = .ok ((), ⟨st.rest, d⟩) := by
  simp [leave, h]

/-- A container is entered, parsed one level down and left. -/
theorem container_within
    (hp : ∀ st v st', st.depth ≤ MAX_DEPTH → p st = .ok (v, st') → st'.depth = st.depth ∧ st.depth + v.depth ≤ MAX_DEPTH + 1) :
    WithinDepth (do
      enter
      let v ← p
      leave
      pure v) := by
  intro st v st' hd h
  obtain ⟨_, st₁, h1, h⟩ := bind_eq_ok.mp h
  obtain ⟨w, st₂, h2, h⟩ := bind_eq_ok.mp h
  obtain ⟨_, st₃, h3, h⟩ := bind_eq_ok.mp h
  cases h
  rw [enter_eq] at h1
  split at h1
  next hlt =>
    cases h1
    obtain ⟨hd2, hb⟩ := hp _ _ _ hlt h2
    rw [leave_of_depth hd2] at h3
    cases h3
    exact ⟨rfl, by simp only at hb; omega⟩
  · cases h1

theorem parseBool_token (h : parseBool st = .ok (v, st')) : ∃ b, v = .bool b := by
  obtain ⟨b, st₁, -, h⟩ := bind_eq_ok.mp h
  cases b with
  | true =>
    cases h
    exact ⟨_, rfl⟩
  | false =>
    obtain ⟨b, st₂, -, h⟩ := bind_eq_ok.mp h
    cases b <;> cases h
    exact ⟨_, rfl⟩

theorem parseNull_token (h : parseNull st = .ok (v, st')) : v = .null := by
  obtain ⟨b, st₁, -, h⟩ := bind_eq_ok.mp h
  cases b <;> cases h
  rfl

theorem numberValue_token {isFloat : Bool} {text : Str} (h : numberValue isFloat text = .ok v) :
    (∃ i, v = .int i) ∨ (∃ u, v = .uint u) ∨ ∃ f, v = .float f := by
  simp only [numberValue] at h
  split at h
  · split at h <;> cases h
    exact .inr (.inr ⟨_, rfl⟩)
  split at h
  · cases h
    exact .inl ⟨_, rfl⟩
  split at h
  · cases h
    exact .inr (.inl ⟨_, rfl⟩)
  · split at h <;> cases h
    exact .inr (.inr ⟨_, rfl⟩)

theorem parseNumber_token (h : parseNumber st = .ok (v, st')) : (∃ i, v = .int i) ∨ (∃ u, v = .uint u) ∨ ∃ f, v = .float f := by
  obtain ⟨sign, st₁, -, h⟩ := bind_eq_ok.mp h
  obtain ⟨body, st₂, -, h⟩ := bind_eq_ok.mp h
  obtain ⟨text, st₃, -, h⟩ := bind_eq_ok.mp h
  cases hn : numberValue (body.any isFloatByte) text with
  | ok w =>
    rw [hn] at h
    cases h
    exact numberValue_token hn
  | error e =>
    rw [hn] at h
    cases h

/-- The white space before a value. -/
def skip (st : Parser) : Parser := { st with rest := st.rest.dropWhile isWs }

theorem skipWs_eq : skipWs st = .ok ((), skip st) := rfl

theorem isWs_head_skip {r : Bytes} (h : (skip st).rest = b :: r) : isWs b = false := by
  have := head?_dropWhile_not isWs st.rest
  rw [show st.rest.dropWhile isWs = b :: r from h] at this
  simpa using this

theorem skip_skip : skip (skip st) = skip st := by
  cases h : (skip st).rest with
  | nil =>
    have hst : skip st = ⟨[], st.depth⟩ := by rw [← h]; rfl
    rw [hst]
    rfl
  | cons b r =>
    have hst : skip st = ⟨b :: r, st.depth⟩ := by rw [← h]; rfl
    rw [hst, skip, dropWhile_cons_of_neg (by simp [isWs_head_skip h])]

/-- How a value is parsed once the white space before it is gone, by its first byte. -/
inductive ParsesAs (fuel : Nat) : UInt8 → P Value → Prop where
  | object : ParsesAs fuel (byte '\x7b') (do
      enter
      let v ← parseObject (parseValueFuel fuel)
      leave
      pure v)
  | array : ParsesAs fuel (byte '[') (do
      enter
      let v ← parseArray (parseValueFuel fuel)
      leave
      pure v)
  | str : ParsesAs fuel (byte '"') (do
      let s ← parseString
      pure (.str s))
  | bool {b : UInt8} (h : b = byte 't' ∨ b = byte 'f') : ParsesAs fuel b parseBool
  | null : ParsesAs fuel (byte 'n') parseNull
  | number {b : UInt8} (h : b = byte '-' ∨ isAsciiDigit b = true) : ParsesAs fuel b parseNumber

/-- The first byte decides. -/
theorem parseValueFuel_of {r : Bytes} (hb : (skip st).rest = b :: r) (hp : ParsesAs fuel b p) :
    parseValueFuel (fuel + 1) st = p (skip st) := by
  have hst : skip st = ⟨b :: r, st.depth⟩ := by rw [← hb]; rfl
  have hstep : parseValueFuel (fuel + 1) st = parseValueFuel (fuel + 1) ⟨b :: r, st.depth⟩ := by
    rw [parseValueFuel, bind_of_ok skipWs_eq, bind_of_ok (skipWs_cons (isWs_head_skip hb) _ _), hst]
  rw [hstep, hst]
  cases hp with
  | object | array | str | null => rfl
  | bool h => rcases h with rfl | rfl <;> rfl
  | number h => exact parseValueFuel_number h

/-- A value that was parsed was parsed by its first byte. -/
theorem parseValueFuel_inv (h : parseValueFuel (fuel + 1) st = .ok (v, st')) :
    ∃ b r p, (skip st).rest = b :: r ∧ ParsesAs fuel b p ∧ p (skip st) = .ok (v, st') := by
  have h0 := h
  rw [parseValueFuel, bind_of_ok skipWs_eq, bind_of_ok (peek_apply _)] at h
  cases hr : (skip st).rest with
  | nil =>
    rw [hr] at h
    cases h
  | cons b r =>
    have hex : ∃ p, ParsesAs fuel b p := by
      simp only [hr, head?_cons] at h
      split at h
      next hb =>
        subst hb
        exact ⟨_, .object⟩
      split at h
      next hb =>
        subst hb
        exact ⟨_, .array⟩
      split at h
      next hb =>
        subst hb
        exact ⟨_, .str⟩
      split at h
      next hb => exact ⟨_, .bool hb⟩
      split at h
      next hb =>
        subst hb
        exact ⟨_, .null⟩
      split at h
      next hb => exact ⟨_, .number hb⟩
      · cases h
    obtain ⟨p, hp⟩ := hex
    exact ⟨b, r, p, rfl, hp, by rw [← parseValueFuel_of hr hp]; exact h0⟩

/-- No value is nested past the limit. -/
theorem parseValueFuel_within : WithinDepth (parseValueFuel fuel) := by
  induction fuel with
  | zero =>
    intro st v st' _ h
    cases h
  | succ fuel ih =>
    intro st v st' hd h
    obtain ⟨b, r, p, hb, hp, h⟩ := parseValueFuel_inv h
    have hw : WithinDepth p := by
      cases hp with
      | object => exact container_within (fun _ _ _ hd h => parseObject_within ih hd h)
      | array => exact container_within (fun _ _ _ hd h => parseArray_within ih hd h)
      | str =>
        refine .of_token (.bind depthKept_parseString (fun _ => .pure _)) (fun st v st' h => ?_)
        obtain ⟨s, st₁, -, h⟩ := bind_eq_ok.mp h
        cases h
        rfl
      | bool =>
        refine .of_token depthKept_parseBool (fun st v st' h => ?_)
        obtain ⟨b, rfl⟩ := parseBool_token h
        rfl
      | null =>
        refine .of_token depthKept_parseNull (fun st v st' h => ?_)
        rw [parseNull_token h]
        rfl
      | number =>
        refine .of_token depthKept_parseNumber (fun st v st' h => ?_)
        obtain ⟨i, rfl⟩ | ⟨u, rfl⟩ | ⟨f, rfl⟩ := parseNumber_token h <;> rfl
    exact hw (skip st) v st' hd h

/-- On success a value leaves the depth as it was; past the limit only tokens succeed. -/
theorem depthKept_parseValueFuel : DepthKept (parseValueFuel fuel) := by
  intro st v st' h
  by_cases hd : st.depth ≤ MAX_DEPTH
  · exact (parseValueFuel_within st v st' hd h).1
  cases fuel with
  | zero => cases h
  | succ fuel =>
    obtain ⟨b, r, p, hb, hp, h⟩ := parseValueFuel_inv h
    have henter : enter (skip st) = .error (.error tooDeep) := by
      rw [show skip st = ⟨(skip st).rest, st.depth⟩ from rfl, enter_eq, if_neg (by omega)]
    cases hp with
    | object | array =>
      rw [bind_of_error henter] at h
      cases h
    | str => exact DepthKept.bind depthKept_parseString (fun _ => .pure _) (skip st) _ _ h
    | bool => exact depthKept_parseBool (skip st) _ _ h
    | null => exact depthKept_parseNull (skip st) _ _ h
    | number => exact depthKept_parseNumber (skip st) _ _ h

end Ferroly.Json
