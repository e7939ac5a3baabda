import Ferroly.Lib.Utf8Cut
import Ferroly.Lib.Utf8Scan
import Ferroly.Turbo.Query

/-!
# Queries, written and read

The encoding of a byte is read back as the byte and holds no character that separates parameters.
-/

namespace Ferroly.Turbo

open Http Rest List Option

/-! ## Bytes -/

/-- A byte that stands for itself in a query. -/
def isUnreserved (b : UInt8) : Bool :=
  let c := Char.ofNat b.toNat
  c.isAlphanum || c == '-' || c == '_' || c == '.' || c == '~'

/-- A byte as it stands in a query. -/
def encodeByte (b : UInt8) : Str :=
  if isUnreserved b then [Char.ofNat b.toNat] else ['%', hexDigit (b.toNat / 16), hexDigit (b.toNat % 16)]

variable {s : Str}

theorem urlEncode_eq : urlEncode s = (utf8 s).flatMap encodeByte := rfl

set_option maxRecDepth 4096 in
theorem encodeByte_unreserved : ∀ b : UInt8, isUnreserved b = true →
    utf8 (encodeByte b) = [b] ∧ b ≠ byte '+' ∧ b ≠ byte '%' ∧ b.toNat < 0x80 :=
  forall_byte (by decide)

set_option maxRecDepth 4096 in
theorem encodeByte_reserved : ∀ b : UInt8, isUnreserved b = false →
    utf8 (encodeByte b) = [byte '%', byte (hexDigit (b.toNat / 16)), byte (hexDigit (b.toNat % 16))] ∧
      ((fromUtf8 [byte (hexDigit (b.toNat / 16)), byte (hexDigit (b.toNat % 16))]).bind (parseUnsigned 8 16)) = some b.toNat :=
  forall_byte (by decide)

variable {b : UInt8}

set_option maxRecDepth 4096 in
/-- What separates parameters does not stand in the encoding of a byte. -/
theorem encodeByte_chars : ∀ c ∈ encodeByte b, c ≠ '&' ∧ c ≠ '=' ∧ c ≠ '?' ∧ c.toNat < 0x80 := by
  have hall : ∀ b : UInt8, (encodeByte b).Forall (fun c => c ≠ '&' ∧ c ≠ '=' ∧ c ≠ '?' ∧ c.toNat < 0x80) :=
    forall_byte (by decide)
  exact forall_iff_forall_mem.mp (hall b)

theorem decode_encodeByte (r : Bytes) : percentDecodeFrom 0 (utf8 (encodeByte b) ++ r) = b :: percentDecodeFrom 0 r := by
  rcases h : isUnreserved b with _ | _
  · obtain ⟨hbytes, hhex⟩ := encodeByte_reserved b h
    rw [hbytes, cons_append, cons_append, cons_append, percentDecodeFrom, hexPair, hhex, map_some, UInt8.ofNat_toNat]
    rfl
  · obtain ⟨hbytes, hplus, hpercent, -⟩ := encodeByte_unreserved b h
    rw [hbytes, singleton_append, percentDecodeFrom, if_neg hplus, if_neg hpercent]

/-- A value is read back as it was. -/
theorem percentDecode_urlEncode : percentDecode (urlEncode s) = s := by
  have hbytes : ∀ bs : Bytes, percentDecodeFrom 0 (utf8 (bs.flatMap encodeByte)) = bs := by
    intro bs
    induction bs with
    | nil => rfl
    | cons b bs ih => rw [flatMap_cons, utf8_append, decode_encodeByte, ih]
  rw [percentDecode, urlEncode_eq, hbytes, fromUtf8Lossy_utf8]

theorem urlEncode_chars {c : Char} (h : c ∈ urlEncode s) : c ≠ '&' ∧ c ≠ '=' ∧ c ≠ '?' ∧ c.toNat < 0x80 := by
  obtain ⟨b, -, hc⟩ := mem_flatMap.mp h
  exact encodeByte_chars c hc

/-! ## Escapes -/

theorem hexPair_eq (bs : Bytes) :
    hexPair bs = if 2 ≤ bs.length then ((fromUtf8 (bs.take 2)).bind (parseUnsigned 8 16)).map UInt8.ofNat else none := by
  rcases bs with _ | ⟨a, _ | ⟨b, bs⟩⟩
  · rfl
  · rfl
  · rw [if_pos (by simp)]
    rfl

theorem percentDecodeFrom_skip (k : Nat) (bs : Bytes) : percentDecodeFrom k bs = percentDecodeFrom 0 (bs.drop k) := by
  induction bs generalizing k with
  | nil => rw [drop_nil, percentDecodeFrom, percentDecodeFrom]
  | cons b bs ih =>
    cases k with
    | zero => rfl
    | succ k => exact ih k

/-- The loop reads nothing out of range. -/
theorem percentDecodeAt_eq (bytes : Bytes) (i : Nat) (out : Bytes) :
    percentDecodeAt bytes i out = some (out ++ percentDecodeFrom 0 (bytes.drop i)) := by
  induction hn : bytes.length - i using Nat.strongRecOn generalizing i out with
  | ind n ih =>
    rw [percentDecodeAt]
    by_cases hi : i < bytes.length
    · have hstep (j : Nat) (b : UInt8) (hj : i < j) :
          percentDecodeAt bytes j (out ++ [b]) = some (out ++ b :: percentDecodeFrom 0 (bytes.drop j)) := by
        rw [ih _ (by omega) j _ rfl, append_assoc]
        rfl
      rw [if_pos hi, drop_eq_getElem_cons hi, getElem?_eq_getElem hi, percentDecodeFrom, hexPair_eq, length_drop]
      simp only [bind_eq_bind, bind_some]
      split
      · exact hstep _ _ (by omega)
      by_cases hp : bytes[i] = byte '%'
      · rw [if_pos hp]
        by_cases h2 : i + 2 < bytes.length
        · rw [if_pos ⟨hp, h2⟩, if_pos (by omega), if_pos (by omega)]
          cases (fromUtf8 ((bytes.drop (i + 1)).take 2)).bind (parseUnsigned 8 16) with
          | none => exact hstep _ _ (by omega)
          | some v =>
            simp only [map_some, percentDecodeFrom_skip 2, drop_drop]
            exact hstep _ _ (by omega)
        · rw [if_neg (fun h => h2 h.2), if_neg (by omega)]
          exact hstep _ _ (by omega)
      · rw [if_neg (fun h => hp h.1), if_neg hp]
        exact hstep _ _ (by omega)
    · rw [if_neg hi, drop_eq_nil_of_le (by omega), percentDecodeFrom, append_nil]

/-- A hexadecimal digit. -/
def isHex (c : Char) : Bool := (digitVal 16 c).isSome

/-- An unreserved character, or a percent sign with two hexadecimal digits. -/
def isUnit : Str → Bool
  | [c] => c.isAlphanum || "-_.~".toList.contains c
  | ['%', high, low] => isHex high && isHex low
  | _ => false

/-- How a query is decoded: a percent sign with two hexadecimal digits stands for a byte, a plus sign for a space, all else for
itself. -/
inductive Decodes : Bytes → Bytes → Prop
  | nil : Decodes [] []
  | plain {b : UInt8} {bs out : Bytes}
    (hb : ∀ high low rest, b :: bs = byte '%' :: byte high :: byte low :: rest → isUnit ['%', high, low] = false)
    (h : Decodes bs out) : Decodes (b :: bs) ((if b = byte '+' then byte ' ' else b) :: out)
  | escape {high low : Char} {v : UInt8} {bs out : Bytes} (hunit : isUnit ['%', high, low] = true)
    (hv : (parseUnsigned 8 16 [high, low]).map UInt8.ofNat = some v) (h : Decodes bs out) :
    Decodes (byte '%' :: byte high :: byte low :: bs) (v :: out)

/-- A percent sign, a plus sign and a hexadecimal digit stand in the text. -/
def Signed (bs : Bytes) : Prop := ∃ d, isHex d = true ∧ [byte '%', byte '+', byte d] <:+: bs

variable {c high low : Char} {v : UInt8} {bs out : Bytes}

theorem toNat_of_isHex (h : isHex c = true) : c.toNat < 0x80 := toNat_of_digitVal (some_get h).symm

theorem byte_ne_of_isHex {d : Char} (h : isHex c = true) (hd : isHex d = false) (hascii : d.toNat < 0x80) : byte c ≠ byte d := by
  intro heq
  rw [byte_inj (toNat_of_isHex h) hascii heq, hd] at h
  cases h

/-- Two characters are read as a byte if they are hexadecimal digits, or a plus sign and one. -/
theorem parseUnsigned_pair :
    (parseUnsigned 8 16 [high, low]).isSome = true ↔ (high = '+' ∨ isHex high = true) ∧ isHex low = true := by
  have hlt {c : Char} {e : Nat} (hc : digitVal 16 c = some e) : e < 16 := by
    obtain ⟨hlt, he⟩ := ite_none_right_eq_some.mp hc
    exact some.inj he ▸ hlt
  unfold isHex
  by_cases hplus : high = '+'
  · subst hplus
    cases hl : digitVal 16 low with
    | none => simp [parseUnsigned, parseDigits, parseDigitsFrom, hl]
    | some y =>
      have := hlt hl
      simp [parseUnsigned, parseDigits, parseDigitsFrom, hl]
      omega
  · rw [parseUnsigned_of_head (by simpa using hplus)]
    cases hh : digitVal 16 high with
    | none => simp [parseDigits, parseDigitsFrom, hh, hplus]
    | some x =>
      cases hl : digitVal 16 low with
      | none => simp [parseDigits, parseDigitsFrom, hh, hl]
      | some y =>
        have := hlt hh
        have := hlt hl
        simp [parseDigits, parseDigitsFrom, hh, hl]
        omega

/-- The bytes that are decoded after a percent sign. -/
theorem hexPair_eq_some : hexPair bs = some v ↔ ∃ high low rest, bs = byte high :: byte low :: rest ∧
      ((high = '+' ∨ isHex high = true) ∧ isHex low = true) ∧ (parseUnsigned 8 16 [high, low]).map UInt8.ofNat = some v := by
  constructor
  · intro h
    rcases bs with _ | ⟨a, _ | ⟨b, rest⟩⟩
    · cases h
    · cases h
    obtain ⟨n, hn, rfl⟩ := map_eq_some_iff.mp h
    obtain ⟨s, hs, hparse⟩ := bind_eq_some_iff.mp hn
    have hascii : ∀ c ∈ s, c.toNat < 0x80 := by
      obtain ⟨m, hm, -⟩ := bind_eq_some_iff.mp hparse
      have hdigits := (digitVal_of_parseDigits hm).2
      split at hdigits
      · refine forall_mem_cons.mpr ⟨by decide, fun c hc => ?_⟩
        exact (hdigits c hc).elim (fun _ => toNat_of_digitVal)
      · exact fun c hc => (hdigits c hc).elim (fun _ => toNat_of_digitVal)
    have hbytes := eq_of_decodeUtf8 (decodeUtf8_of_fromUtf8 hs) hascii
    rcases s with _ | ⟨high, _ | ⟨low, _ | ⟨_, _⟩⟩⟩ <;> cases hbytes
    exact ⟨high, low, rest, rfl, parseUnsigned_pair.mp (by rw [hparse]; rfl), by rw [hparse]; rfl⟩
  · rintro ⟨high, low, rest, rfl, ⟨hhigh, hlow⟩, hv⟩
    have hbytes : utf8 [high, low] = [byte high, byte low] := by
      refine utf8_ascii (forall_mem_cons.mpr ⟨?_, forall_mem_singleton.mpr (toNat_of_isHex hlow)⟩)
      rcases hhigh with rfl | hhigh
      · decide
      · exact toNat_of_isHex hhigh
    rw [hexPair, ← hbytes, fromUtf8_utf8]
    exact hv

theorem exists_hexPair (rest : Bytes) (h : (high = '+' ∨ isHex high = true) ∧ isHex low = true) :
    ∃ v, hexPair (byte high :: byte low :: rest) = some v := by
  obtain ⟨n, hn⟩ := isSome_iff_exists.mp (parseUnsigned_pair.mpr h)
  exact ⟨UInt8.ofNat n, hexPair_eq_some.mpr ⟨high, low, rest, rfl, h, by rw [hn]; rfl⟩⟩

theorem percentDecodeFrom_escape (h : hexPair bs = some v) : percentDecodeFrom 0 (byte '%' :: bs) = v :: percentDecodeFrom 2 bs := by
  rw [percentDecodeFrom, if_neg (by decide), if_pos rfl, h]

theorem percentDecodeFrom_plain {b : UInt8} (h : ¬(b = byte '%' ∧ ∃ v, hexPair bs = some v)) :
    percentDecodeFrom 0 (b :: bs) = (if b = byte '+' then byte ' ' else b) :: percentDecodeFrom 0 bs := by
  rw [percentDecodeFrom]
  split
  · rfl
  split
  · next hb =>
    rw [eq_none_iff_forall_ne_some.mpr (fun v hv => h ⟨hb, v, hv⟩)]
  · rfl

theorem signed_cons {b : UInt8} : Signed (b :: bs) ↔
    (∃ d rest, isHex d = true ∧ b :: bs = byte '%' :: byte '+' :: byte d :: rest) ∨ Signed bs := by
  simp only [Signed, infix_cons_iff, and_or_left, exists_or]
  refine or_congr_left ⟨?_, ?_⟩
  · rintro ⟨d, hd, r, hr⟩
    exact ⟨d, r, hd, hr.symm⟩
  · rintro ⟨d, r, hd, hr⟩
    exact ⟨d, hd, r, hr.symm⟩

theorem Signed.of_cons {b : UInt8} (h : Signed (b :: bs)) (hb : b ≠ byte '%') : Signed bs :=
  (signed_cons.mp h).resolve_left (fun ⟨_, _, _, heq⟩ => hb (cons.inj heq).1)

/-- Where no sign is taken for a part of an escape, whatever is no escape stays as it is. -/
theorem decodes_percentDecodeFrom (h : ¬Signed bs) (k : Nat) : Decodes (bs.drop k) (percentDecodeFrom k bs) := by
  induction bs generalizing k with
  | nil =>
    rw [drop_nil, percentDecodeFrom]
    exact .nil
  | cons b bs ih =>
    rw [signed_cons, not_or] at h
    obtain ⟨hhead, h⟩ := h
    cases k with
    | succ k => exact ih h k
    | zero =>
      by_cases hpair : b = byte '%' ∧ ∃ v, hexPair bs = some v
      · obtain ⟨rfl, v, hv⟩ := hpair
        rw [drop_zero, percentDecodeFrom_escape hv]
        obtain ⟨high, low, rest, rfl, ⟨rfl | hhigh, hlow⟩, hparse⟩ := hexPair_eq_some.mp hv
        · exact absurd ⟨low, rest, hlow, rfl⟩ hhead
        · exact .escape (Bool.and_eq_true_iff.mpr ⟨hhigh, hlow⟩) hparse (ih h 2)
      · rw [drop_zero, percentDecodeFrom_plain hpair]
        refine .plain (fun high low rest heq => ?_) (ih h 0)
        cases heq
        refine Bool.eq_false_iff.mpr (fun hunit => hpair ⟨rfl, exists_hexPair rest ?_⟩)
        exact (Bool.and_eq_true_iff.mp hunit).imp_left .inr

/-- Where a sign is taken for a part of an escape, ASCII characters of the text are lost. -/
theorem Decodes.countP_le (h : Decodes bs out) : (percentDecodeFrom 0 bs).countP isAscii ≤ out.countP isAscii ∧
    (Signed bs → (percentDecodeFrom 0 bs).countP isAscii < out.countP isAscii) := by
  induction h with
  | nil =>
    refine ⟨Nat.zero_le _, ?_⟩
    rintro ⟨d, -, hd⟩
    cases infix_nil.mp hd
  | @plain b bs out hb h ih =>
    by_cases hpair : b = byte '%' ∧ ∃ v, hexPair bs = some v
    · obtain ⟨rfl, v, hv⟩ := hpair
      rw [percentDecodeFrom_escape hv]
      obtain ⟨high, low, rest, rfl, ⟨rfl | hhigh, hlow⟩, hparse⟩ := hexPair_eq_some.mp hv
      · have hle := ih.1
        have hlow' : isAscii (byte low) = true := by
          rw [isAscii, decide_eq_true_eq, byte_toNat (toNat_of_isHex hlow)]
          exact toNat_of_isHex hlow
        rw [percentDecodeFrom_plain (fun hb => absurd hb.1 (by decide)),
          percentDecodeFrom_plain (fun hb => byte_ne_of_isHex hlow rfl (by decide) hb.1), if_pos rfl,
          if_neg (byte_ne_of_isHex hlow rfl (by decide)), countP_cons_of_pos rfl, countP_cons_of_pos hlow'] at hle
        have hskip : percentDecodeFrom 2 (byte '+' :: byte low :: rest) = percentDecodeFrom 0 rest := rfl
        have hv := countP_cons (p := isAscii) (a := v) (l := percentDecodeFrom 0 rest)
        rw [if_neg (by decide), countP_cons_of_pos (a := byte '%') rfl, hskip]
        split at hv <;> omega
      · cases (hb high low rest rfl).symm.trans (Bool.and_eq_true_iff.mpr ⟨hhigh, hlow⟩)
    · rw [percentDecodeFrom_plain hpair, countP_cons, countP_cons]
      refine ⟨Nat.add_le_add_right ih.1 _, fun hs => Nat.add_lt_add_right (ih.2 ?_) _⟩
      refine (signed_cons.mp hs).resolve_left ?_
      rintro ⟨d, rest, hd, heq⟩
      cases heq
      exact hpair ⟨rfl, exists_hexPair rest ⟨.inl rfl, hd⟩⟩
  | @escape high low v bs out hunit hv h ih =>
    obtain ⟨hhigh, hlow⟩ := Bool.and_eq_true_iff.mp hunit
    rw [percentDecodeFrom_escape (hexPair_eq_some.mpr ⟨high, low, bs, rfl, ⟨.inr hhigh, hlow⟩, hv⟩), countP_cons, countP_cons]
    refine ⟨Nat.add_le_add_right ih.1 _, fun hs => Nat.add_lt_add_right (ih.2 ?_) _⟩
    rcases signed_cons.mp hs with ⟨d, rest, -, heq⟩ | hs
    · exact absurd (cons.inj (cons.inj heq).2).1 (byte_ne_of_isHex hhigh rfl (by decide))
    · exact (hs.of_cons (byte_ne_of_isHex hhigh rfl (by decide))).of_cons (byte_ne_of_isHex hlow rfl (by decide))

set_option maxRecDepth 4096 in
theorem isUnit_encodeByte : ∀ b : UInt8, isUnit (encodeByte b) = true := forall_byte (by decide)

/-! ## Keys that stand for themselves -/

/-- An encoding is longer, unless every byte stands for itself. -/
theorem length_flatMap_encodeByte (bs : Bytes) : (∀ b ∈ bs, isUnreserved b = true) ∧ bs.length ≤ (bs.flatMap encodeByte).length ∨
    bs.length < (bs.flatMap encodeByte).length := by
  induction bs with
  | nil => exact .inl ⟨nofun, le_rfl⟩
  | cons b bs ih =>
    rw [flatMap_cons, length_append, length_cons]
    rcases h : isUnreserved b with _ | _
    · rw [encodeByte, h]
      simp only [Bool.false_eq_true, if_false, length_cons]
      omega
    · rw [encodeByte, h, if_pos rfl, length_singleton, forall_mem_cons]
      rcases ih with ⟨hall, hle⟩ | hlt
      · exact .inl ⟨⟨h, hall⟩, by omega⟩
      · exact .inr (by omega)

theorem urlEncode_of_unreserved (h : ∀ b ∈ utf8 s, isUnreserved b = true) : urlEncode s = s := by
  induction s with
  | nil => rfl
  | cons c s ih =>
    rw [utf8_cons, forall_mem_append] at h
    have hc : c.toNat < 0x80 := by
      by_contra hge
      have hne := ne_nil_of_length_pos (String.length_utf8EncodeChar c ▸ Char.utf8Size_pos c)
      obtain ⟨b, hb⟩ := exists_mem_of_ne_nil _ hne
      have hlt := (encodeByte_unreserved b (h.1 b hb)).2.2.2
      exact absurd (utf8EncodeChar_ge (not_lt.mp hge) b hb) (not_le.mpr hlt)
    have hb := h.1 (byte c) (by rw [utf8EncodeChar_ascii hc]; exact mem_singleton.mpr rfl)
    rw [urlEncode_eq, utf8_cons_ascii hc, flatMap_cons, encodeByte, if_pos hb, byte_toNat hc, Char.ofNat_toNat, ← urlEncode_eq,
      ih h.2, singleton_append]

/-- The encoding of a key that does not stand for itself is longer than the key. -/
theorem length_urlEncode (s : Str) : urlEncode s = s ∨ (utf8 s).length < (utf8 (urlEncode s)).length := by
  have hlen : (utf8 (urlEncode s)).length = (urlEncode s).length := by
    rw [utf8_ascii (fun c hc => (urlEncode_chars hc).2.2.2), length_map]
  rw [hlen]
  exact (length_flatMap_encodeByte (utf8 s)).imp (fun h => urlEncode_of_unreserved h.1) id

/-! ## Targets -/

/-- A query added to a URL without one is the query of the URL, and nothing else of it changes. -/
theorem parse_query {url : Str} {uri : Uri} (hurl : '?' ∉ url) (h : Uri.parse url = .ok uri) (q : Str) :
    uri.query = none ∧ '?' ∉ uri.path ∧ Uri.parse (url ++ '?' :: q) = .ok { uri with query := some q } := by
  unfold Uri.parse at h ⊢
  rcases hsplit : splitOnceStr "://".toList url with _ | ⟨scheme, rest⟩
  · rw [hsplit] at h
    cases h
  have hrest : '?' ∉ rest := fun hmem => hurl ((splitOnceStr_length (by decide) hsplit).2.subset hmem)
  have hauthority : (rest ++ '?' :: q).takeWhile (fun c => c != '/' && c != '?') = rest.takeWhile (fun c => c != '/' && c != '?') := by
    rw [takeWhile_append]
    split
    next hall => rw [takeWhile_cons_of_neg (by decide), append_nil, (List.takeWhile_prefix _).eq_of_length hall]
    · rfl
  have hremainder : (rest ++ '?' :: q).dropWhile (fun c => c != '/' && c != '?') =
      rest.dropWhile (fun c => c != '/' && c != '?') ++ '?' :: q := by
    rw [dropWhile_append]
    split
    next hnil => rw [isEmpty_iff.mp hnil, dropWhile_cons_of_neg (by decide), nil_append]
    · rfl
  have hnone : '?' ∉ rest.dropWhile (fun c => c != '/' && c != '?') := fun hmem => hrest ((dropWhile_suffix _).subset hmem)
  rw [splitOnceStr_append (by decide) hsplit]
  rw [hsplit] at h
  simp only [hremainder, splitTarget, splitOnce_append hnone, splitOnce_eq_none hnone] at h ⊢
  split at h
  · cases h
  split at h
  · cases h
  split at h
  · cases h
  cases h
  refine ⟨rfl, ?_, ?_⟩
  · split
    · show '?' ∉ "/".toList
      decide
    · exact hnone
  · simp [*]

/-- A pair as it stands in a query. -/
def pairText (p : Str × Str) : Str := urlEncode p.1 ++ '=' :: urlEncode p.2

/-- In the query of some pairs, a parameter is looked up by the encodings of the keys. -/
theorem findSome_pairs (query : List (Str × Str)) (name : Str) : (query.map pairText).findSome? (fun pair =>
      let (k, v) := (splitOnce '=' pair).getD (pair, [])
      if k = name then some (percentDecode v) else none) = (query.find? (fun p => urlEncode p.1 == name)).map Prod.snd := by
  induction query with
  | nil => rfl
  | cons p query ih =>
    have hsplit : splitOnce '=' (pairText p) = some (urlEncode p.1, urlEncode p.2) :=
      splitOnce_append (fun h => (urlEncode_chars h).2.1 rfl)
    rw [map_cons, findSome?_cons, find?_cons, hsplit, getD_some]
    by_cases h : urlEncode p.1 = name
    · simp only [h, if_true, percentDecode_urlEncode, beq_self_eq_true, map_some]
    · simp only [h, beq_eq_false_iff_ne.mpr h]
      exact ih

/-- What the server finds is looked up by the encodings of the keys. -/
theorem receivedParam_eq {url : Str} {uri : Uri} (hurl : '?' ∉ url) (h : Uri.parse url = .ok uri) (query : List (Str × Str)) :
    ∃ target, Uri.parse (appendQuery url query) = .ok target ∧ ∀ method headers body params name,
      receivedParam target method headers body params name = (query.find? (fun p => urlEncode p.1 == name)).map Prod.snd := by
  obtain ⟨hnone, hpath, hparse⟩ := parse_query hurl h (['&'].intercalate (query.map pairText))
  rcases query with _ | ⟨p, query⟩
  · refine ⟨uri, h, fun method headers body params name => ?_⟩
    rw [receivedParam, Ctx.queryParam, serverRequest, Uri.requestTarget, hnone]
    simp only [splitTarget, splitOnce_eq_none hpath, bind_none, find?_nil, map_none]
  · have happend : appendQuery url (p :: query) = url ++ '?' :: ['&'].intercalate ((p :: query).map pairText) := by
      have hq : url.contains '?' = false := by simpa using hurl
      rw [appendQuery, hq]
      rfl
    rw [happend]
    refine ⟨_, hparse, fun method headers body params name => ?_⟩
    have hsplit : split '&' (['&'].intercalate ((p :: query).map pairText)) = (p :: query).map pairText := by
      refine splitOn_intercalate _ (fun l hl hamp => ?_) (cons_ne_nil _ _)
      obtain ⟨e, -, rfl⟩ := mem_map.mp hl
      rcases mem_append.mp hamp with hk | hv
      · exact (urlEncode_chars hk).1 rfl
      · exact (urlEncode_chars ((mem_cons.mp hv).resolve_left (by decide))).1 rfl
    rw [receivedParam, Ctx.queryParam, serverRequest, Uri.requestTarget]
    simp only [splitTarget, splitOnce_append hpath, bind_some, hsplit]
    exact findSome_pairs (p :: query) name

end Ferroly.Turbo
