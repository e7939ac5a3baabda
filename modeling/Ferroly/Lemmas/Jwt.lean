import Ferroly.Auth.Jwt
import Ferroly.Lemmas.Base64Url
import Ferroly.Lemmas.Sha256
import Ferroly.Lemmas.JsonDecode

/-!
# Minting and verifying tokens

Verification is exact: every check of the source is one condition of a valid token. Comparing the clock with a claim is exact
because the clock is below the whole numbers that a float can no longer tell apart, and no parsed number is a NaN.
-/

namespace Ferroly.Auth

open List

variable {secret : Bytes} {f : F64} {now : Nat} {st st' : Parser} {h key p s token : Str} {c v : Value}

/-! ## The signature -/

theorem foldl_diff_eq_zero {l : List (UInt8 × UInt8)} {diff : UInt8} :
    l.foldl (fun diff xy => diff ||| (xy.1 ^^^ xy.2)) diff = 0 ↔ diff = 0 ∧ ∀ xy ∈ l, xy.1 = xy.2 := by
  induction l generalizing diff with
  | nil => simp
  | cons xy l ih => rw [foldl_cons, ih, UInt8.or_eq_zero_iff, UInt8.xor_eq_zero_iff, forall_mem_cons, and_assoc]

theorem forall_mem_zip_eq {a b : Bytes} (h : a.length = b.length) : (∀ xy ∈ a.zip b, xy.1 = xy.2) ↔ a = b := by
  induction a generalizing b with
  | nil => simp [eq_nil_of_length_eq_zero h.symm]
  | cons x a ih =>
    obtain ⟨y, b, rfl⟩ := exists_cons_of_length_eq_add_one h.symm
    rw [zip_cons_cons, forall_mem_cons, ih (Nat.succ.inj h), List.cons.injEq]

/-- The comparison is equality, however long it takes. -/
theorem constantTimeEq_iff {a b : Bytes} : constantTimeEq a b = true ↔ a = b := by
  rw [constantTimeEq]
  split
  next hne => simp [mt (congrArg List.length) hne]
  next heq => rw [beq_iff_eq, foldl_diff_eq_zero, eq_self_iff_true, true_and, forall_mem_zip_eq (not_not.mp heq)]

/-! ## No parsed number is a NaN -/

theorem eq_of_toLower_n {c : Char} (h : c.toLower = 'n') : c = 'n' ∨ c = 'N' := by
  by_cases hup : 65 ≤ c.toNat ∧ c.toNat ≤ 90
  · right
    have hall : ∀ n, 65 ≤ n → n ≤ 90 → (Char.ofNat n).toLower = 'n' → n = 78 := by decide
    have hn := hall c.toNat hup.1 hup.2 (by rw [Char.ofNat_toNat]; exact h)
    exact Char.toNat_inj.mp hn
  · left
    rwa [toLower_eq_self hup] at h

theorem mem_of_mem_splitSign {c : Char} (h : c ∈ (splitSign s).2) : c ∈ s := by
  unfold splitSign at h
  split at h
  · exact mem_cons_of_mem _ h
  · exact mem_cons_of_mem _ h
  · exact h

/-- A number's text is no NaN without the letters of one. -/
theorem isNan_parseFloat (hs : 'n' ∉ s ∧ 'N' ∉ s) (h : parseFloat binary64 s = some f) : f.isNan = false := by
  simp only [parseFloat] at h
  split at h
  · cases h
    rfl
  split at h
  next hlow =>
    obtain ⟨c, t, hbody, hc, -⟩ := map_eq_cons_iff.mp hlow
    have hmem : c ∈ s := mem_of_mem_splitSign (by rw [hbody]; exact mem_cons_self)
    rcases eq_of_toLower_n hc with rfl | rfl
    · exact absurd hmem hs.1
    · exact absurd hmem hs.2
  · obtain ⟨k, -, rfl⟩ := Option.map_eq_some_iff.mp h
    rfl

set_option maxRecDepth 8000 in
theorem fromUtf8_of_ascii {bs : Bytes} (h : ∀ b ∈ bs, b.toNat < 0x80) :
    fromUtf8 bs = some (bs.map (fun b => Char.ofNat b.toNat)) := by
  have hall : ∀ b : UInt8, b.toNat < 0x80 → (Char.ofNat b.toNat).toNat < 0x80 ∧ byte (Char.ofNat b.toNat) = b :=
    forall_byte (by decide)
  have hbytes : utf8 (bs.map (fun b => Char.ofNat b.toNat)) = bs := by
    rw [utf8_ascii (fun c hc => by
      obtain ⟨b, hb, rfl⟩ := mem_map.mp hc
      exact (hall b (h b hb)).1), map_map]
    conv_rhs => rw [← map_id bs]
    exact map_congr_left (fun b hb => (hall b (h b hb)).2)
  conv_lhs => rw [← hbytes]
  exact fromUtf8_utf8

section Parsed

open Json Run

set_option maxRecDepth 8000 in
/-- The bytes of a number are ASCII, and none of them is a letter of a NaN. -/
theorem numberByte_spec : ∀ b : UInt8, b = byte '-' ∨ isNumberByte b = true →
    b.toNat < 0x80 ∧ Char.ofNat b.toNat ≠ 'n' ∧ Char.ofNat b.toNat ≠ 'N' :=
  forall_byte (by decide)

theorem takeSign_ok {sign : Bytes} (h : takeSign st = .ok (sign, st')) : ∀ b ∈ sign, b = byte '-' := by
  obtain ⟨c, st₁, h1, h⟩ := bind_eq_ok.mp h
  split at h
  · obtain ⟨_, st₂, -, h⟩ := bind_eq_ok.mp h
    cases h
    exact fun b hb => mem_singleton.mp hb
  · cases h
    exact nofun

theorem numberValue_float {isFloat : Bool} {text : Str} (h : numberValue isFloat text = .ok (.float f)) : parseF64 text = some f := by
  cases hf : parseF64 text with
  | none =>
    simp only [numberValue, hf] at h
    repeat' split at h
    all_goals cases h
  | some g =>
    simp only [numberValue, hf] at h
    repeat' split at h
    all_goals cases h
    all_goals rfl

theorem isNan_parseNumber (h : parseNumber st = .ok (.float f, st')) : f.isNan = false := by
  obtain ⟨sign, st₁, hsign, h⟩ := bind_eq_ok.mp h
  obtain ⟨body, st₂, hbody, h⟩ := bind_eq_ok.mp h
  obtain ⟨text, st₃, htext, h⟩ := bind_eq_ok.mp h
  have hbytes : ∀ b ∈ sign ++ body, b = byte '-' ∨ isNumberByte b = true := by
    intro b hb
    rcases mem_append.mp hb with hb | hb
    · exact .inl (takeSign_ok hsign b hb)
    · cases hbody
      exact .inr (mem_takeWhile_imp hb)
  have hslice : text = (sign ++ body).map (fun b => Char.ofNat b.toNat) := by
    rw [slice, fromUtf8_of_ascii (fun b hb => (numberByte_spec b (hbytes b hb)).1)] at htext
    cases htext
    rfl
  have hletters : 'n' ∉ text ∧ 'N' ∉ text := by
    rw [hslice]
    refine ⟨fun hmem => ?_, fun hmem => ?_⟩
    all_goals
      obtain ⟨b, hb, hc⟩ := mem_map.mp hmem
      have hspec := numberByte_spec b (hbytes b hb)
    · exact hspec.2.1 hc
    · exact hspec.2.2 hc
  cases hv : numberValue (body.any isFloatByte) text with
  | error e =>
    rw [hv] at h
    cases h
  | ok v =>
    rw [hv] at h
    cases h
    exact isNan_parseFloat hletters (numberValue_float hv)

/-- No value that was parsed is a NaN. -/
theorem isNan_parseValueFuel {fuel : Nat} (h : parseValueFuel fuel st = .ok (.float f, st')) : f.isNan = false := by
  cases fuel with
  | zero => cases h
  | succ fuel =>
    obtain ⟨b, r, p, -, hp, h⟩ := parseValueFuel_inv h
    cases hp with
    | object =>
      obtain ⟨-, _, h, -⟩ := container_ok h
      obtain ⟨o, ho⟩ := parseItems_ok h
      cases ho
    | array =>
      obtain ⟨-, _, h, -⟩ := container_ok h
      obtain ⟨a, ha⟩ := parseItems_ok h
      cases ha
    | str =>
      obtain ⟨s, _, -, h⟩ := bind_eq_ok.mp h
      cases h
    | bool =>
      obtain ⟨b, hb⟩ := parseBool_token h
      cases hb
    | null => cases parseNull_token h
    | number => exact isNan_parseNumber h

/-- The entries of an object were parsed as values. -/
theorem parsed_of_mem {o : Object} (h : parseValue st = .ok (.object o, st')) : ∀ e ∈ o, ∃ s s', parseValue s = .ok (e.2, s') := by
  obtain ⟨r, st₁, -, -, h1, -⟩ := parseValue_object_iff.mp h
  refine (items_inv (I := fun o => ∀ e ∈ o, ∃ s s', parseValue s = .ok (e.2, s')) (d := st.depth + 1)
    (fun acc s acc' s' hs hacc hitem => ?_) rfl nofun h1).2
  obtain ⟨e, s₁, he, hitem⟩ := bind_eq_ok.mp hitem
  cases hitem
  refine ⟨(depthKept_entry depthKept_parseValue _ _ _ he).trans hs, fun e' hmem => ?_⟩
  rcases mem_append.mp hmem with hmem | hmem
  · exact hacc e' hmem
  · rw [mem_singleton.mp hmem]
    obtain ⟨_, s₂, -, he⟩ := bind_eq_ok.mp he
    obtain ⟨key, s₃, -, he⟩ := bind_eq_ok.mp he
    obtain ⟨_, s₄, -, he⟩ := bind_eq_ok.mp he
    obtain ⟨_, s₅, -, he⟩ := bind_eq_ok.mp he
    obtain ⟨v, s₆, hv, he⟩ := bind_eq_ok.mp he
    cases he
    exact ⟨s₅, _, hv⟩

theorem mem_of_find {o : Object} (h : find o key = some v) : ∃ k, (k, v) ∈ o := by
  obtain ⟨e, he, rfl⟩ := Option.map_eq_some_iff.mp h
  exact ⟨e.1, mem_reverse.mp (mem_of_find?_eq_some he)⟩

/-- No claim of a text is a NaN. -/
theorem isNan_get {input : Str} (h : fromStr input = .ok v) (hget : v.get key = some (.float f)) : f.isNan = false := by
  obtain ⟨o, ho, hfind⟩ := Option.bind_eq_some_iff.mp hget
  obtain rfl := asObject_eq_some.mp ho
  obtain ⟨st', hv, -⟩ := fromStr_eq_ok.mp h
  obtain ⟨k, hmem⟩ := mem_of_find hfind
  obtain ⟨s, s', hs⟩ := parsed_of_mem hv _ hmem
  exact isNan_parseValueFuel hs

end Parsed

/-! ## The times -/

/-- The clock is a whole number that a float holds exactly. -/
theorem binary64_whole : (binary64.low + 2) * 2 ^ binary64.frac ≤ binary64.inf := by decide

theorem ofInt_isNan (i : Int) : (Flt.ofInt binary64 i).isNan = false := rfl

/-- What is no number is neither after nor by any time; a number is, compared exactly, as its float is compared. -/
theorem asNumber_spec (hnow : now < 2 ^ 53) (hnan : ∀ f, v = .float f → f.isNan = false) :
    (asNumber v = .error () ∧ isAfter now v = false ∧ isBy now v = false) ∨
      ∃ x, asNumber v = .ok x ∧ x.le (Flt.ofInt binary64 now) = !isAfter now v ∧ (Flt.ofInt binary64 now).lt x = !isBy now v := by
  have hle : ∀ x : F64, x.le (Flt.ofInt binary64 now) = x.atMost now := Flt.le_ofInt_whole binary64_whole hnow
  have hint : ∀ i : Int, (Flt.ofInt binary64 i).le (Flt.ofInt binary64 now) = decide (i ≤ now) :=
    Flt.ofInt_le_ofInt_whole binary64_whole hnow
  have hlt : ∀ x : F64, x.isNan = false → (Flt.ofInt binary64 now).lt x = !x.le (Flt.ofInt binary64 now) :=
    fun x hx => Flt.lt_eq_not_le (ofInt_isNan _) hx
  cases v with
  | int i =>
    refine .inr ⟨_, rfl, ?_, ?_⟩
    · rw [hint, isAfter, ← decide_not]
      exact decide_eq_decide.mpr not_lt.symm
    · rw [hlt _ (ofInt_isNan _), hint, isBy]
  | uint u =>
    refine .inr ⟨_, rfl, ?_, ?_⟩
    · rw [hint, isAfter, ← decide_not]
      exact decide_eq_decide.mpr (Int.ofNat_le.trans not_lt.symm)
    · rw [hlt _ (ofInt_isNan _), hint]
      exact congrArg _ (decide_eq_decide.mpr Int.ofNat_le)
  | float f =>
    have hf := hnan f rfl
    refine .inr ⟨f, rfl, ?_, ?_⟩
    · rw [hle, isAfter, Flt.atMost_eq_not_exceeds hf]
    · rw [hlt f hf, hle, isBy]
  | null | bool | str | bytes | array | object => exact .inl ⟨rfl, rfl, rfl⟩

/-- The check of a claim passes when the claim is absent or a number that does not fail. -/
theorem checkClaim_eq_ok_iff {claims : Value} {fails : F64 → Bool} {e : JwtError} {good : Value → Bool}
    (h : ∀ v, claims.get key = some v → (asNumber v = .error () ∧ good v = false) ∨ ∃ x, asNumber v = .ok x ∧ fails x = !good v) :
    checkClaim claims key fails e = .ok () ↔ ∀ v, claims.get key = some v → good v = true := by
  rw [checkClaim, numericClaim]
  cases hget : claims.get key with
  | none => simp
  | some v =>
    simp only [Option.map_some, Option.some.injEq, forall_eq']
    rcases h v hget with ⟨hv, hgood⟩ | ⟨x, hv, hfails⟩
    · simp [hv, hgood]
    · simp only [hv, hfails]
      cases good v <;> simp

section Times

variable (hnow : now < 2 ^ 53) {claims : Value} (hnan : ∀ key f, claims.get key = some (.float f) → f.isNan = false)
include hnow hnan

theorem checkExp_iff : checkClaim claims "exp".toList (fun exp => exp.le (Flt.ofInt binary64 now)) .expired = .ok () ↔
      ∀ v, claims.get "exp".toList = some v → isAfter now v = true := by
  refine checkClaim_eq_ok_iff (fun v hv => ?_)
  rcases asNumber_spec hnow (v := v) (fun f hf => hnan _ f (by rw [hv, hf])) with ⟨hno, hgood, -⟩ | ⟨x, hx, hfails, -⟩
  · exact .inl ⟨hno, hgood⟩
  · exact .inr ⟨x, hx, hfails⟩

theorem checkNbf_iff : checkClaim claims "nbf".toList (fun nbf => (Flt.ofInt binary64 now).lt nbf) .notYetValid = .ok () ↔
      ∀ v, claims.get "nbf".toList = some v → isBy now v = true := by
  refine checkClaim_eq_ok_iff (fun v hv => ?_)
  rcases asNumber_spec hnow (v := v) (fun f hf => hnan _ f (by rw [hv, hf])) with ⟨hno, -, hgood⟩ | ⟨x, hx, -, hfails⟩
  · exact .inl ⟨hno, hgood⟩
  · exact .inr ⟨x, hx, hfails⟩

theorem checkTimes_eq_ok_iff : checkTimes (Flt.ofInt binary64 now) claims = .ok c ↔ claims = c ∧ InTime now claims := by
  have htime : InTime now claims ↔ (∀ v, claims.get "exp".toList = some v → isAfter now v = true) ∧
      ∀ v, claims.get "nbf".toList = some v → isBy now v = true := ⟨fun h => ⟨h.exp, h.nbf⟩, fun h => ⟨h.1, h.2⟩⟩
  rw [htime, ← checkExp_iff hnow hnan, ← checkNbf_iff hnow hnan, checkTimes]
  rcases checkClaim claims "exp".toList _ .expired with e | _
  · simp [bind, Except.bind]
  rcases checkClaim claims "nbf".toList _ .notYetValid with e | _
  · simp [bind, Except.bind]
  · simp [bind, Except.bind, pure, Except.pure]

end Times

/-! ## Segments -/

theorem segmentJson_eq_ok_iff {segment : Str} :
    segmentJson segment = .ok v ↔ ∃ bytes, Denotes segment bytes ∧ Json.fromSlice bytes = .ok v := by
  rw [segmentJson]
  cases hd : b64urlDecode segment with
  | none =>
    refine ⟨fun h => (nomatch h), ?_⟩
    rintro ⟨bytes, hden, -⟩
    rw [b64urlDecode_eq_some_iff.mpr hden] at hd
    cases hd
  | some bytes =>
    have hden := b64urlDecode_eq_some_iff.mp hd
    have huniq : (∃ bs, Denotes segment bs ∧ Json.fromSlice bs = .ok v) ↔ Json.fromSlice bytes = .ok v := by
      constructor
      · rintro ⟨bs, hbs, h⟩
        rwa [hden.inj hbs]
      · exact fun h => ⟨bytes, hden, h⟩
    rw [huniq]
    cases hv : Json.fromSlice bytes with
    | ok w => simp [hv]
    | error e => cases e <;> simp [hv]

/-! ## Verification -/

theorem split_eq_three : split '.' token = [h, p, s] ↔ token = h ++ '.' :: p ++ '.' :: s ∧ '.' ∉ h ∧ '.' ∉ p ∧ '.' ∉ s := by
  constructor
  · intro hsplit
    have hjoin := flatMap_split '.' token
    rw [hsplit] at hjoin
    refine ⟨?_, ?_⟩
    · have hcut : (h ++ '.' :: p ++ '.' :: s) ++ ['.'] = token ++ ['.'] := by
        rw [← hjoin]
        simp
      exact (append_cancel_right hcut).symm
    · have hmem : ∀ l ∈ [h, p, s], '.' ∉ l := fun l hl => not_mem_of_mem_split (by rw [hsplit]; exact hl)
      exact ⟨hmem h (by simp), hmem p (by simp), hmem s (by simp)⟩
  · rintro ⟨rfl, hh, hp, hs⟩
    rw [append_assoc, cons_append, split_append hh, split_append hp, split_eq_singleton hs]

theorem asStr_eq_some : v.asStr = some s ↔ v = .str s := by
  cases v <;> simp [Value.asStr]

theorem checkAlg_eq_ok_iff {header : Value} : checkAlg header = .ok () ↔ header.get "alg".toList = some (.str "HS256".toList) := by
  have hiff : (header.get "alg".toList).bind Value.asStr = some "HS256".toList ↔
      header.get "alg".toList = some (.str "HS256".toList) := by
    rw [Option.bind_eq_some_iff]
    constructor
    · rintro ⟨v, hv, hs⟩
      rw [hv, asStr_eq_some.mp hs]
    · exact fun h => ⟨_, h, rfl⟩
  rw [← hiff, checkAlg]
  split
  next hne => exact ⟨fun h => (nomatch h), fun h => absurd h hne⟩
  next heq => exact ⟨fun _ => not_not.mp heq, fun _ => rfl⟩

theorem checkSignature_eq_ok_iff :
    checkSignature secret h p s = .ok () ↔ Denotes s (Hash.Spec.hmacSha256 secret (utf8 (h ++ '.' :: p))) := by
  rw [← b64urlDecode_eq_some_iff, ← Hash.hmacSha256_eq, checkSignature]
  cases b64urlDecode s with
  | none => simp
  | some actual =>
    simp only [Bool.not_eq_true', Option.some.injEq]
    split
    next hne =>
      refine ⟨fun h => (nomatch h), fun heq => ?_⟩
      rw [constantTimeEq_iff.mpr heq.symm] at hne
      cases hne
    next heq => exact ⟨fun _ => (constantTimeEq_iff.mp (Bool.not_eq_false _ ▸ heq)).symm, fun _ => rfl⟩

theorem isNan_segment {segment : Str} (h : segmentJson segment = .ok v) (hget : v.get key = some (.float f)) : f.isNan = false := by
  obtain ⟨bytes, -, hv⟩ := segmentJson_eq_ok_iff.mp h
  rw [Json.fromSlice] at hv
  split at hv
  next text _ => exact isNan_get hv hget
  · cases hv

/-- Three segments are accepted exactly when they are a signed token in time. -/
theorem decode_segments (hnow : now < 2 ^ 53) (htoken : split '.' token = [h, p, s]) :
    decodeHs256 now token secret = .ok c ↔ Signed secret h p s c ∧ InTime now c := by
  have htimes : ∀ claims, segmentJson p = .ok claims →
      (checkTimes (Flt.ofInt binary64 now) claims = .ok c ↔ claims = c ∧ InTime now claims) :=
    fun claims hp => checkTimes_eq_ok_iff hnow (fun key f hget => isNan_segment hp hget)
  rw [decodeHs256, htoken]
  simp only [except_bind_eq_ok]
  constructor
  · rintro ⟨header, hh, ⟨⟩, halg, ⟨⟩, hsig, claims, hp, hc⟩
    obtain ⟨rfl, htime⟩ := (htimes claims hp).mp hc
    obtain ⟨bytes, hb, hv⟩ := segmentJson_eq_ok_iff.mp hh
    exact ⟨⟨⟨bytes, header, hb, hv, checkAlg_eq_ok_iff.mp halg⟩, checkSignature_eq_ok_iff.mp hsig,
      segmentJson_eq_ok_iff.mp hp⟩, htime⟩
  · rintro ⟨⟨⟨bytes, header, hb, hv, halg⟩, hsig, hp⟩, htime⟩
    have hclaims := segmentJson_eq_ok_iff.mpr hp
    exact ⟨header, segmentJson_eq_ok_iff.mpr ⟨bytes, hb, hv⟩, (), checkAlg_eq_ok_iff.mpr halg, (),
      checkSignature_eq_ok_iff.mpr hsig, c, hclaims, (htimes c hclaims).mpr ⟨rfl, htime⟩⟩

/-- A token is accepted exactly when it is valid. -/
theorem decodeHs256_eq_ok_iff (hnow : now < 2 ^ 53) : decodeHs256 now token secret = .ok c ↔ Valid now secret token c := by
  constructor
  · intro h
    obtain ⟨h', p, s, hsplit⟩ : ∃ h p s, split '.' token = [h, p, s] := by
      rw [decodeHs256] at h
      split at h
      next h' p s hsplit => exact ⟨h', p, s, hsplit⟩
      · cases h
    obtain ⟨hs, ht⟩ := (decode_segments hnow hsplit).mp h
    obtain ⟨heq, hh, hp, hs'⟩ := split_eq_three.mp hsplit
    exact ⟨h', p, s, heq, hh, hp, hs', hs, ht⟩
  · rintro ⟨h, p, s, heq, hh, hp, hs, hsigned, htime⟩
    exact (decode_segments hnow (split_eq_three.mpr ⟨heq, hh, hp, hs⟩)).mpr ⟨hsigned, htime⟩

/-! ## Minting -/

theorem fromSlice_utf8 (s : Str) : Json.fromSlice (utf8 s) = Json.fromStr s := by rw [Json.fromSlice, fromUtf8_utf8]

/-- The header of a minted token names the algorithm. -/
theorem namesHs256_header : NamesHs256 (b64urlEncode (utf8 jwtHeader)) := by
  refine ⟨utf8 jwtHeader, .object [("alg".toList, .str "HS256".toList), ("typ".toList, .str "JWT".toList)],
    (canonical_encode _).denotes, ?_, rfl⟩
  exact of_decide_eq_true (by decide +kernel)

/-- A minted token is signed, and its claims are read back with small unsigned integers as signed ones. -/
theorem signed_mint (D : F64Display) {claims : Value} (hplain : claims.isPlain = true) (hdepth : claims.depth ≤ 128)
    (secret : Bytes) :
    ∃ h p s, split '.' (encodeHs256 D claims secret) = [h, p, s] ∧ Signed secret h p s claims.norm := by
  refine ⟨_, _, _, split_eq_three.mpr ⟨rfl, not_mem_encode, not_mem_encode, not_mem_encode⟩, namesHs256_header, ?_, ?_⟩
  · rw [← Hash.hmacSha256_eq]
    exact (canonical_encode _).denotes
  · refine ⟨_, (canonical_encode _).denotes, ?_⟩
    rw [fromSlice_utf8, Json.toString_eq_render, Json.fromStr_render D hplain]
    exact if_pos hdepth

theorem times_norm (now : Nat) (v : Value) : isAfter now v.norm = isAfter now v ∧ isBy now v.norm = isBy now v := by
  cases v with
  | uint u =>
    rw [Value.norm]
    split
    · exact ⟨decide_eq_decide.mpr Int.ofNat_lt, decide_eq_decide.mpr Int.ofNat_le⟩
    · exact ⟨rfl, rfl⟩
  | null | bool | int | float | str | bytes | array | object => exact ⟨rfl, rfl⟩

theorem inTime_norm : InTime now v.norm ↔ InTime now v := by
  constructor
  · intro h
    refine ⟨fun w hw => ?_, fun w hw => ?_⟩
    · rw [← (times_norm now w).1]
      exact h.exp _ (by rw [Value.get_norm, hw]; rfl)
    · rw [← (times_norm now w).2]
      exact h.nbf _ (by rw [Value.get_norm, hw]; rfl)
  · intro h
    refine ⟨fun w hw => ?_, fun w hw => ?_⟩
    all_goals
      rw [Value.get_norm] at hw
      obtain ⟨u, hu, rfl⟩ := Option.map_eq_some_iff.mp hw
    · rw [(times_norm now u).1]
      exact h.exp u hu
    · rw [(times_norm now u).2]
      exact h.nbf u hu

/-! ## A token without claims -/

/-- The header and the payload of a token without claims. -/
def sampleHeader : Str := "eyJhbGciOiJIUzI1NiIsInR5cCI6IkpXVCJ9".toList

def samplePayload : Str := "e30".toList

/-- The keyed hash of the two under the key `k`. -/
def sampleMac : Bytes :=
  [177, 218, 188, 134, 87, 39, 26, 234, 66, 66, 135, 214, 241, 61, 214, 93,
    47, 37, 48, 115, 202, 141, 142, 252, 127, 186, 101, 12, 122, 19, 178, 130]

/-- Its canonical text, one with a bit set that belongs to no byte, and one with an `=` sign inside. -/
def sampleSignatures : List Str :=
  ["sdq8hlcnGupCQofW8T3WXS8lMHPKjY78f7plDHoTsoI".toList, "sdq8hlcnGupCQofW8T3WXS8lMHPKjY78f7plDHoTsoJ".toList,
    "s=dq8hlcnGupCQofW8T3WXS8lMHPKjY78f7plDHoTsoI".toList]

theorem sampleMac_eq : Hash.hmacSha256 [107] (utf8 (sampleHeader ++ '.' :: samplePayload)) = sampleMac := by decide +kernel

theorem sampleSignatures_decode : sampleSignatures.Nodup ∧ '.' ∉ sampleHeader ∧ '.' ∉ samplePayload ∧
    ∀ s ∈ sampleSignatures, '.' ∉ s ∧ b64urlDecode s = some sampleMac := by
  decide

theorem samplePayload_encoded : b64urlEncode (utf8 "\x7b\x7d".toList) = samplePayload := by decide

end Ferroly.Auth
