import Ferroly.Auth.Base64Url
import Ferroly.Lib.Utf8Scan

/-!
# Base64url, encoded and decoded

Decoding gives exactly the bytes a text stands for, encoding the one canonical text of the bytes.
-/

namespace Ferroly.Auth

open List Option

variable {bs : Bytes} {ds : List Nat} {s : Str}

/-! ## The alphabet -/

set_option maxRecDepth 2000 in
/-- Every digit has a character of its own, none of them a separator. -/
theorem b64urlChar_spec : ∀ d < 64, (b64urlChar d).toNat < 0x80 ∧ b64urlChar d ≠ '=' ∧ b64urlChar d ≠ '.' ∧
    b64urlVal (byte (b64urlChar d)) = some d := by
  decide

set_option maxRecDepth 8000 in
/-- A byte with a digit is the byte of that digit's character. -/
theorem byte_of_b64urlVal {b : UInt8} {d : Nat} (h : b64urlVal b = some d) : d < 64 ∧ byte (b64urlChar d) = b := by
  have hall : ∀ b : UInt8, ((b64urlVal b).all (fun d => decide (d < 64 ∧ byte (b64urlChar d) = b))) = true :=
    forall_byte (by decide)
  have hb := hall b
  rw [h] at hb
  exact of_decide_eq_true hb

theorem b64urlVal_of_ge {b : UInt8} (h : 0x80 ≤ b.toNat) : b64urlVal b = none := by
  cases hv : b64urlVal b with
  | none => rfl
  | some d =>
    obtain ⟨hd, rfl⟩ := byte_of_b64urlVal hv
    have hascii := (b64urlChar_spec d hd).1
    rw [byte, UInt8.toNat_ofNat'] at h
    omega

theorem filter_byte {c : Char} (h : c.toNat < 0x80) : (utf8 (c :: s)).filter (· != byte '=') =
      if c = '=' then (utf8 s).filter (· != byte '=') else byte c :: (utf8 s).filter (· != byte '=') := by
  rw [utf8_cons_ascii h]
  split
  next hc => rw [hc, filter_cons_of_neg (by decide)]
  next hc => exact filter_cons_of_pos (bne_iff_ne.mpr (fun hb => hc (byte_inj h (by decide) hb)))

/-- The digits of the bytes of a text are the digits of its characters. -/
theorem digits_iff : ((utf8 s).filter (· != byte '=')).mapM b64urlVal = some ds ↔
      s.filter (· != '=') = ds.map b64urlChar ∧ ∀ d ∈ ds, d < 64 := by
  induction s generalizing ds with
  | nil =>
    constructor
    · intro h
      cases h
      exact ⟨rfl, nofun⟩
    · rintro ⟨h, -⟩
      rw [map_eq_nil_iff.mp h.symm]
      rfl
  | cons c s ih =>
    by_cases hc : c.toNat < 0x80
    · rw [filter_byte hc]
      split
      next heq => rw [ih, filter_cons_of_neg (by rw [heq]; decide)]
      next hne =>
        have hkeep : (c :: s).filter (· != '=') = c :: s.filter (· != '=') := filter_cons_of_pos (bne_iff_ne.mpr hne)
        rw [hkeep, mapM_cons]
        constructor
        · intro h
          obtain ⟨d, hd, h⟩ := bind_eq_some_iff.mp h
          obtain ⟨es, hes, h⟩ := bind_eq_some_iff.mp h
          cases h
          obtain ⟨hs, hlt⟩ := ih.mp hes
          obtain ⟨hd64, hbyte⟩ := byte_of_b64urlVal hd
          rw [map_cons, byte_inj (b64urlChar_spec d hd64).1 hc hbyte, hs]
          exact ⟨rfl, forall_mem_cons.mpr ⟨hd64, hlt⟩⟩
        · rintro ⟨h, hlt⟩
          obtain ⟨d, es, rfl, rfl, hs⟩ := map_eq_cons_iff.mp h.symm
          rw [(b64urlChar_spec d (hlt d mem_cons_self)).2.2.2, ih.mpr ⟨hs.symm, fun e he => hlt e (mem_cons_of_mem _ he)⟩]
          rfl
    · -- no byte of a character outside ASCII has a digit
      have hne : c ≠ '=' := by
        rintro rfl
        exact hc (by decide)
      have hkeep : (c :: s).filter (· != '=') = c :: s.filter (· != '=') := filter_cons_of_pos (bne_iff_ne.mpr hne)
      rw [hkeep]
      constructor
      · intro h
        obtain ⟨b, r, hb⟩ := exists_cons_of_ne_nil (String.utf8EncodeChar_ne_nil (c := c))
        have hmem : b ∈ String.utf8EncodeChar c := by rw [hb]; exact mem_cons_self
        have hkept : (b :: (r ++ utf8 s)).filter (· != byte '=') = b :: (r ++ utf8 s).filter (· != byte '=') :=
          filter_cons_of_pos (bne_iff_ne.mpr (ne_byte_of_mem hmem (by decide) hne))
        rw [utf8_cons, hb, cons_append, hkept, mapM_cons, b64urlVal_of_ge (utf8EncodeChar_ge (not_lt.mp hc) b hmem)] at h
        cases h
      · rintro ⟨h, hlt⟩
        obtain ⟨d, es, rfl, rfl, hs⟩ := map_eq_cons_iff.mp h.symm
        exact absurd (b64urlChar_spec d (hlt d mem_cons_self)).1 hc

/-! ## Digits and bytes -/

/-- The bytes of digits, four at a time. -/
def pack : List Nat → Option Bytes
  | [] => some []
  | [_] => none
  | [a, b] => some [UInt8.ofNat ((a <<< 6 ||| b) >>> 4)]
  | [a, b, c] => some [UInt8.ofNat (((a <<< 6 ||| b) <<< 6 ||| c) >>> 10), UInt8.ofNat (((a <<< 6 ||| b) <<< 6 ||| c) >>> 2)]
  | a :: b :: c :: d :: ds =>
    let n := ((a <<< 6 ||| b) <<< 6 ||| c) <<< 6 ||| d
    (pack ds).map (fun bs => UInt8.ofNat (n >>> 16) :: UInt8.ofNat (n >>> 8) :: UInt8.ofNat n :: bs)

/-- The digits of bytes, three at a time. -/
def unpack : Bytes → List Nat
  | [] => []
  | [a] => [(a.toNat <<< 4) >>> 6 &&& 63, (a.toNat <<< 4) &&& 63]
  | [a, b] =>
    let n := (a.toNat <<< 8 ||| b.toNat) <<< 2
    [n >>> 12 &&& 63, n >>> 6 &&& 63, n &&& 63]
  | a :: b :: c :: bs =>
    let n := (a.toNat <<< 8 ||| b.toNat) <<< 8 ||| c.toNat
    (n >>> 18 &&& 63) :: (n >>> 12 &&& 63) :: (n >>> 6 &&& 63) :: (n &&& 63) :: unpack bs

theorem pack_isSome : (pack ds).isSome = decide (ds.length % 4 ≠ 1) := by
  induction ds using pack.induct with
  | case1 | case2 | case3 | case4 => rfl
  | case5 a b c d ds ih =>
    rw [pack, isSome_map, ih]
    exact decide_eq_decide.mpr (by simp only [length_cons]; omega)

theorem bits_two {a b : Nat} (hb : b < 64) : bits 12 (a <<< 6 ||| b) = bits 6 a ++ bits 6 b :=
  bits_push (v := 6) hb 6 a

theorem bits_three {a b c : Nat} (hb : b < 64) (hc : c < 64) :
    bits 18 ((a <<< 6 ||| b) <<< 6 ||| c) = bits 6 a ++ bits 6 b ++ bits 6 c := by
  rw [← bits_two hb]
  exact bits_push (v := 6) hc 12 _

/-- Packing keeps the bits, but for those past the last byte. -/
theorem pack_regroups (hlt : ∀ d ∈ ds, d < 64) (h : pack ds = some bs) : ∃ extra, Regroups ds bs extra := by
  induction ds using pack.induct generalizing bs with
  | case1 =>
    cases h
    exact ⟨[], rfl, by decide⟩
  | case2 => cases h
  | case3 a b =>
    cases h
    have hb := hlt b (by simp)
    refine ⟨bits 4 (a <<< 6 ||| b), ⟨?_, by rw [length_bits]; decide⟩⟩
    have hcut := bits_add 8 4 (a <<< 6 ||| b)
    rw [bits_two hb] at hcut
    simpa [bits_toNat_ofNat, -UInt8.toNat_ofNat'] using hcut
  | case4 a b c =>
    cases h
    have hb := hlt b (by simp)
    have hc := hlt c (by simp)
    refine ⟨bits 2 ((a <<< 6 ||| b) <<< 6 ||| c), ⟨?_, by rw [length_bits]; decide⟩⟩
    have hcut := bits_add 8 10 ((a <<< 6 ||| b) <<< 6 ||| c)
    rw [bits_three hb hc, bits_add 8 2] at hcut
    simpa [bits_toNat_ofNat, -UInt8.toNat_ofNat'] using hcut
  | case5 a b c d ds ih =>
    obtain ⟨bs, hbs, rfl⟩ := map_eq_some_iff.mp h
    obtain ⟨extra, hextra⟩ := ih (fun e he => hlt e (by simp [he])) hbs
    have hb := hlt b (by simp)
    have hc := hlt c (by simp)
    have hd := hlt d (by simp)
    refine ⟨extra, ⟨?_, hextra.short⟩⟩
    have hfour : bits 24 (((a <<< 6 ||| b) <<< 6 ||| c) <<< 6 ||| d) = bits 6 a ++ bits 6 b ++ bits 6 c ++ bits 6 d := by
      rw [← bits_three hb hc]
      exact bits_push (v := 6) hd 18 _
    have hcut := bits_add 8 16 (((a <<< 6 ||| b) <<< 6 ||| c) <<< 6 ||| d)
    rw [hfour, bits_add 8 8] at hcut
    simp only [bitsOf_cons, map_cons, bits_toNat_ofNat, hextra.bits]
    simp only [← append_assoc] at hcut ⊢
    rw [hcut]

/-- The bits of digits stand for at most one list of bytes. -/
theorem Regroups.inj {cs : Bytes} {x y : List Bool} (hb : Regroups ds bs x) (hc : Regroups ds cs y) : bs = cs ∧ x = y := by
  have heq := hb.bits.symm.trans hc.bits
  have hlen := congrArg length heq
  simp only [length_append, length_bitsOf, length_map] at hlen
  have hx := hb.short
  have hy := hc.short
  obtain ⟨hmap, hxy⟩ := bitsOf_inj (w := 8) (by simp only [length_map]; omega)
    (fun d hd => by obtain ⟨b, -, rfl⟩ := mem_map.mp hd; exact b.toNat_lt)
    (fun d hd => by obtain ⟨b, -, rfl⟩ := mem_map.mp hd; exact b.toNat_lt) heq
  exact ⟨map_injective_iff.mpr (fun _ _ h => UInt8.toNat_inj.mp h) hmap, hxy⟩

/-- Packing gives exactly the bytes that digits stand for. -/
theorem pack_eq_some_iff (hlt : ∀ d ∈ ds, d < 64) : pack ds = some bs ↔ ∃ extra, Regroups ds bs extra := by
  refine ⟨pack_regroups hlt, ?_⟩
  rintro ⟨extra, h⟩
  have hlen := congrArg length h.bits
  simp only [length_append, length_bitsOf] at hlen
  have hshort := h.short
  have hsome : (pack ds).isSome = true := by
    rw [pack_isSome]
    exact decide_eq_true (by omega)
  obtain ⟨cs, hcs⟩ := isSome_iff_exists.mp hsome
  obtain ⟨y, hy⟩ := pack_regroups hlt hcs
  rw [hcs, (h.inj hy).1]

/-! ## Decoding -/

/-- Aligning to the left and cutting from the left is cutting less. -/
theorem shiftRight_aligned (m i j : Nat) : (m <<< i) >>> (i + j) = m >>> j := by
  rw [Nat.shiftRight_add, Nat.shiftLeft_shiftRight]

/-- A chunk of at most four characters packs its digits. -/
theorem decodeChunk_eq {chunk : Bytes} (hne : chunk ≠ []) (h : chunk.length ≤ 4) :
    decodeChunk chunk = (chunk.mapM b64urlVal).bind pack := by
  match chunk, hne, h with
  | [a], _, _ => cases ha : b64urlVal a <;> simp [decodeChunk, ha, pack]
  | [a, b], _, _ =>
    cases ha : b64urlVal a <;> cases hb : b64urlVal b <;> simp [decodeChunk, ha, hb, pack]
    rw [shiftRight_aligned _ 12 4]
  | [a, b, c], _, _ =>
    cases ha : b64urlVal a <;> cases hb : b64urlVal b <;> cases hc : b64urlVal c <;> simp [decodeChunk, ha, hb, hc, pack]
    rw [shiftRight_aligned _ 6 10, shiftRight_aligned _ 6 2]
    exact ⟨rfl, rfl⟩
  | [a, b, c, d], _, _ =>
    cases ha : b64urlVal a <;> cases hb : b64urlVal b <;> cases hc : b64urlVal c <;> cases hd : b64urlVal d <;>
      simp [decodeChunk, ha, hb, hc, hd, pack]

theorem length_digits {bytes : Bytes} (h : bytes.mapM b64urlVal = some ds) : ds.length = bytes.length := by
  induction bytes generalizing ds with
  | nil =>
    cases h
    rfl
  | cons b bytes ih =>
    rw [mapM_cons] at h
    obtain ⟨d, -, h⟩ := bind_eq_some_iff.mp h
    obtain ⟨es, hes, h⟩ := bind_eq_some_iff.mp h
    cases h
    rw [length_cons, length_cons, ih hes]

/-- Decoding chunk by chunk packs the digits. -/
theorem decode_bytes (bytes : Bytes) : ((chunksOf 4 bytes).mapM decodeChunk).map flatten = (bytes.mapM b64urlVal).bind pack := by
  induction bytes using blocks_induction (n := 4) (by decide) with
  | rest l h =>
    by_cases hl : l = []
    · rw [hl]
      rfl
    · rw [chunksOf_of_lt hl h, mapM_cons, decodeChunk_eq hl h.le]
      cases (l.mapM b64urlVal).bind pack with
      | none => rfl
      | some bs => exact congrArg some (append_nil bs)
  | block b l hb ih =>
    have hne : b ≠ [] := by
      rintro rfl
      cases hb
    rw [chunksOf_append (by decide) hb, mapM_cons, decodeChunk_eq hne hb.le, mapM_append]
    generalize (chunksOf 4 l).mapM decodeChunk = chunks at ih ⊢
    cases hds : b.mapM b64urlVal with
    | none => rfl
    | some ds =>
      obtain ⟨p, q, r, t, rfl⟩ := length_eq_four.mp ((length_digits hds).trans hb)
      cases hes : l.mapM b64urlVal with
      | none =>
        rw [hes] at ih
        cases chunks with
        | none => rfl
        | some cs => cases ih
      | some es =>
        rw [hes] at ih
        replace ih : chunks.map flatten = pack es := ih
        show _ = pack (p :: q :: r :: t :: es)
        rw [pack, ← ih]
        cases chunks <;> rfl

/-- Decoding gives exactly the bytes a text stands for. -/
theorem b64urlDecode_eq_some_iff : b64urlDecode s = some bs ↔ Denotes s bs := by
  rw [b64urlDecode, decode_bytes, bind_eq_some_iff]
  constructor
  · rintro ⟨ds, hds, hpack⟩
    obtain ⟨hs, hlt⟩ := digits_iff.mp hds
    obtain ⟨extra, h⟩ := (pack_eq_some_iff hlt).mp hpack
    exact ⟨ds, extra, hs, hlt, h⟩
  · rintro ⟨ds, extra, hs, hlt, h⟩
    exact ⟨ds, digits_iff.mpr ⟨hs, hlt⟩, (pack_eq_some_iff hlt).mpr ⟨extra, h⟩⟩

/-- A text stands for at most one list of bytes. -/
theorem Denotes.inj {cs : Bytes} (hb : Denotes s bs) (hc : Denotes s cs) : bs = cs :=
  Option.some.inj ((b64urlDecode_eq_some_iff.mpr hb).symm.trans (b64urlDecode_eq_some_iff.mpr hc))

/-! ## Encoding -/

theorem unpack_lt : ∀ d ∈ unpack bs, d < 64 := by
  have hmask : ∀ n, n &&& 63 < 64 := fun n => Nat.lt_succ_of_le Nat.and_le_right
  induction bs using unpack.induct with
  | case1 => exact nofun
  | case2 a | case3 a b => simp [unpack, hmask]
  | case4 a b c bs ih => simpa [unpack, hmask] using ih

/-- The bits of the digits are those of the bytes, filled up with zeros. -/
theorem unpack_regroups : ∃ n, Regroups (unpack bs) bs (replicate n false) := by
  have hmask : ∀ n, bits 6 (n &&& 63) = bits 6 n := bits_mask 6
  induction bs using unpack.induct with
  | case1 => exact ⟨0, rfl, by decide⟩
  | case2 a =>
    refine ⟨4, ⟨?_, by decide⟩⟩
    have hcut := (bits_add 6 6 (a.toNat <<< 4)).symm.trans (bits_shiftLeft 8 4 a.toNat)
    simpa [unpack, hmask] using hcut
  | case3 a b =>
    refine ⟨2, ⟨?_, by decide⟩⟩
    have hcut := (bits_add 6 12 ((a.toNat <<< 8 ||| b.toNat) <<< 2)).symm.trans (bits_shiftLeft 16 2 _)
    rw [bits_add 6 6, bits_push (v := 8) b.toNat_lt 8 a.toNat] at hcut
    simpa [unpack, hmask] using hcut
  | case4 a b c bs ih =>
    obtain ⟨n, ih⟩ := ih
    refine ⟨n, ⟨?_, ih.short⟩⟩
    have hcut := (bits_add 6 18 ((a.toNat <<< 8 ||| b.toNat) <<< 8 ||| c.toNat)).symm.trans
      (bits_push (v := 8) c.toNat_lt 16 (a.toNat <<< 8 ||| b.toNat))
    rw [bits_add 6 12, bits_add 6 6, bits_push (v := 8) b.toNat_lt 8 a.toNat] at hcut
    simp only [unpack, bitsOf_cons, map_cons, hmask, ih.bits]
    simp only [← append_assoc] at hcut ⊢
    rw [hcut]

/-- A chunk of at most three bytes is written as its digits. -/
theorem encodeChunk_eq {chunk : Bytes} (hne : chunk ≠ []) (h : chunk.length ≤ 3) :
    encodeChunk chunk = (unpack chunk).map b64urlChar := by
  match chunk, hne, h with
  | [a], _, _ =>
    have h1 : (a.toNat <<< 16) >>> 18 = (a.toNat <<< 4) >>> 6 := by rw [shiftRight_aligned _ 16 2, shiftRight_aligned _ 4 2]
    have h2 : (a.toNat <<< 16) >>> 12 = a.toNat <<< 4 := by
      rw [show 16 = 4 + 12 from rfl, Nat.shiftLeft_add, Nat.shiftLeft_shiftRight]
    simp [encodeChunk, unpack, h1, h2]
  | [a, b], _, _ =>
    have hn : a.toNat <<< 16 ||| b.toNat <<< 8 = (a.toNat <<< 8 ||| b.toNat) <<< 8 := by
      rw [Nat.shiftLeft_or_distrib, ← Nat.shiftLeft_add]
    have hsix : ∀ n j, (n <<< 8) >>> (6 + j) = (n <<< 2) >>> j := by
      intro n j
      rw [show 8 = 2 + 6 from rfl, Nat.shiftLeft_add, shiftRight_aligned]
    simp [encodeChunk, unpack, hn, hsix _ 12, hsix _ 6, hsix _ 0]
  | [a, b, c], _, _ =>
    have hn : a.toNat <<< 16 ||| b.toNat <<< 8 = (a.toNat <<< 8 ||| b.toNat) <<< 8 := by
      rw [Nat.shiftLeft_or_distrib, ← Nat.shiftLeft_add]
    simp [encodeChunk, unpack, hn]

/-- Encoding writes the digits of the bytes. -/
theorem b64urlEncode_eq : b64urlEncode bs = (unpack bs).map b64urlChar := by
  induction bs using blocks_induction (n := 3) (by decide) with
  | rest l h =>
    by_cases hl : l = []
    · rw [hl, b64urlEncode]
      rfl
    · rw [b64urlEncode, chunksOf_of_lt hl h, flatMap_singleton, encodeChunk_eq hl h.le]
  | block b l hb ih =>
    obtain ⟨x, y, z, rfl⟩ := length_eq_three.mp hb
    rw [b64urlEncode, chunksOf_append (by decide) hb, flatMap_cons, ← b64urlEncode, ih, encodeChunk_eq (cons_ne_nil _ _) hb.le]
    rfl

theorem canonical_encode (bs : Bytes) : Canonical (b64urlEncode bs) bs := by
  obtain ⟨n, h⟩ := unpack_regroups
  exact ⟨unpack bs, n, b64urlEncode_eq, unpack_lt, h⟩

theorem filter_digits (hlt : ∀ d ∈ ds, d < 64) : (ds.map b64urlChar).filter (· != '=') = ds.map b64urlChar := by
  refine filter_eq_self.mpr (fun c hc => ?_)
  obtain ⟨d, hd, rfl⟩ := mem_map.mp hc
  exact bne_iff_ne.mpr (b64urlChar_spec d (hlt d hd)).2.1

theorem Canonical.denotes (h : Canonical s bs) : Denotes s bs := by
  obtain ⟨ds, n, rfl, hlt, h⟩ := h
  exact ⟨ds, _, filter_digits hlt, hlt, h⟩

theorem not_mem_encode : '.' ∉ b64urlEncode bs := by
  rw [b64urlEncode_eq]
  intro hmem
  obtain ⟨d, hd, heq⟩ := mem_map.mp hmem
  exact (b64urlChar_spec d (unpack_lt d hd)).2.2.1 heq

end Ferroly.Auth
