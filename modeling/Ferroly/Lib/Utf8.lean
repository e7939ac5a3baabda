import Mathlib.Algebra.GroupWithZero.Nat
import Mathlib.Data.Bool.Basic
import Mathlib.Data.List.Basic

/-!
# Strings and their UTF-8 bytes

A string is the list of its Unicode scalar values, and its bytes are their UTF-8 encodings put end to end. Decoding splits a
byte list into characters and maximal ill-formed parts (`decodeUtf8`): a strict reader refuses the first ill-formed part
(`fromUtf8`), a lossy one puts U+FFFD in the place of each (`fromUtf8Lossy`).
-/

namespace Ferroly

open List

variable {c : Char}

/-- A string: its Unicode scalar values in order. -/
abbrev Str := List Char

instance : LawfulBEq Str := inferInstance

/-- A byte string. -/
abbrev Bytes := List UInt8

/-- The UTF-8 bytes of a string. -/
def utf8 (s : Str) : Bytes := s.flatMap String.utf8EncodeChar

/-- The byte of an ASCII character. -/
def byte (c : Char) : UInt8 := UInt8.ofNat c.toNat

/-- A continuation byte, `10xxxxxx`. -/
def isCont (b : UInt8) : Bool := decide (0x80 ≤ b.toNat) && decide (b.toNat ≤ 0xBF)

/-- Which bytes may follow a lead byte of a three-byte sequence: no overlong form, no surrogate. -/
def second3 (b c : UInt8) : Bool :=
  let n := b.toNat
  let m := c.toNat
  if n = 0xE0 then decide (0xA0 ≤ m) && decide (m ≤ 0xBF)
  else if n = 0xED then decide (0x80 ≤ m) && decide (m ≤ 0x9F)
  else isCont c

/-- Which bytes may follow a lead byte of a four-byte sequence: no overlong form, nothing above U+10FFFF. -/
def second4 (b c : UInt8) : Bool :=
  let n := b.toNat
  let m := c.toNat
  if n = 0xF0 then decide (0x90 ≤ m) && decide (m ≤ 0xBF)
  else if n = 0xF4 then decide (0x80 ≤ m) && decide (m ≤ 0x8F)
  else isCont c

/-- The character that starts with lead byte `b`, and how many of the bytes `t` after it belong to it. An ill-formed part (the
lead byte and the continuation bytes it took before the sequence broke off) is no character. -/
def decodeUtf8Head (b : UInt8) (t : Bytes) : Option Char × Nat :=
  let n := b.toNat
  if n < 0x80 then (some (Char.ofNat n), 0)
  else if 0xC2 ≤ n ∧ n ≤ 0xDF then
    match t with
    | c :: _ => if isCont c then (some (Char.ofNat ((n - 0xC0) * 64 + (c.toNat - 0x80))), 1) else (none, 0)
    | [] => (none, 0)
  else if 0xE0 ≤ n ∧ n ≤ 0xEF then
    match t with
    | c :: d :: _ =>
      if second3 b c then
        if isCont d then
          (some (Char.ofNat ((n - 0xE0) * 4096 + (c.toNat - 0x80) * 64 + (d.toNat - 0x80))), 2)
        else (none, 1)
      else (none, 0)
    | [c] => if second3 b c then (none, 1) else (none, 0)
    | [] => (none, 0)
  else if 0xF0 ≤ n ∧ n ≤ 0xF4 then
    match t with
    | c :: d :: e :: _ =>
      if second4 b c then
        if isCont d then
          if isCont e then
            (some (Char.ofNat ((n - 0xF0) * 262144 + (c.toNat - 0x80) * 4096 + (d.toNat - 0x80) * 64 + (e.toNat - 0x80))), 3)
          else (none, 2)
        else (none, 1)
      else (none, 0)
    | [c, d] => if second4 b c then if isCont d then (none, 2) else (none, 1) else (none, 0)
    | [c] => if second4 b c then (none, 1) else (none, 0)
    | [] => (none, 0)
  else (none, 0)

/-- Decoding with `k` bytes still to skip, those of the character or ill-formed part just read. -/
def decodeUtf8From : Nat → Bytes → List (Option Char)
  | _, [] => []
  | k + 1, _ :: t => decodeUtf8From k t
  | 0, b :: t => (decodeUtf8Head b t).1 :: decodeUtf8From (decodeUtf8Head b t).2 t

/-- The characters of a byte string, an ill-formed part being one `none`. -/
def decodeUtf8 (bs : Bytes) : List (Option Char) := decodeUtf8From 0 bs

/-- A byte string read as UTF-8, if it is well-formed. -/
def fromUtf8 (bs : Bytes) : Option Str := (decodeUtf8 bs).mapM id

/-- What a strict reader says of the first ill-formed part, from index `i` on with `k` bytes still to skip. A part that the input
ends in is incomplete. -/
def utf8ErrorFrom (i : Nat) : Nat → Bytes → String
  | _, [] => ""
  | k + 1, _ :: t => utf8ErrorFrom (i + 1) k t
  | 0, b :: t =>
    match decodeUtf8Head b t with
    | (some _, k) => utf8ErrorFrom (i + 1) k t
    | (none, k) =>
      if k = t.length ∧ 0xC2 ≤ b.toNat ∧ b.toNat ≤ 0xF4 then "incomplete utf-8 byte sequence from index " ++ Nat.repr i
      else "invalid utf-8 sequence of " ++ Nat.repr (k + 1) ++ " bytes from index " ++ Nat.repr i

/-- What a strict reader says of an ill-formed byte string: the text of a `Utf8Error`. -/
def utf8Error (bs : Bytes) : String := utf8ErrorFrom 0 0 bs

/-- The character a lossy reader puts in the place of an ill-formed part. -/
def replacement : Char := Char.ofNat 0xFFFD

/-- A byte string read as UTF-8, each ill-formed part replaced by U+FFFD. -/
def fromUtf8Lossy (bs : Bytes) : Str := (decodeUtf8 bs).map (·.getD replacement)

/-! ## Encoding -/

@[simp] theorem utf8_nil : utf8 [] = [] := rfl

variable {s : Str}

theorem utf8_cons : utf8 (c :: s) = String.utf8EncodeChar c ++ utf8 s := rfl

@[simp] theorem utf8_append (s t : Str) : utf8 (s ++ t) = utf8 s ++ utf8 t := by
  simp [utf8]

/-- An ASCII character is its own byte. -/
theorem utf8EncodeChar_ascii (h : c.toNat < 0x80) : String.utf8EncodeChar c = [byte c] := by
  have h' : c.val.toNat ≤ 127 := Nat.le_of_lt_succ h
  unfold String.utf8EncodeChar
  simp only [h']
  rfl

theorem utf8_cons_ascii (h : c.toNat < 0x80) (s : Str) : utf8 (c :: s) = byte c :: utf8 s := by
  rw [utf8_cons, utf8EncodeChar_ascii h]
  rfl

/-- Text has at least as many bytes as characters. -/
theorem length_le_utf8 (s : Str) : s.length ≤ (utf8 s).length := by
  induction s with
  | nil => simp
  | cons c s ih =>
    have hc : 0 < (String.utf8EncodeChar c).length := by
      rw [String.length_utf8EncodeChar]
      exact c.utf8Size_pos
    rw [utf8_cons, length_append, length_cons]
    omega

/-- ASCII text is its own bytes. -/
theorem utf8_ascii (h : ∀ c ∈ s, c.toNat < 0x80) : utf8 s = s.map byte := by
  induction s with
  | nil => rfl
  | cons c s ih =>
    rw [utf8_cons_ascii (h c (by simp)), ih (forall_mem_cons.mp h).2, map_cons]

theorem byte_toNat (h : c.toNat < 0x80) : (byte c).toNat = c.toNat := by
  simp only [byte, UInt8.toNat_ofNat']
  omega

/-- Every byte of a character outside ASCII is outside ASCII. -/
theorem utf8EncodeChar_ge (h : 0x80 ≤ c.toNat) : ∀ b ∈ String.utf8EncodeChar c, 0x80 ≤ b.toNat := by
  intro b hb
  have hc : ¬c.val.toNat ≤ 127 := Nat.not_le.mpr h
  simp only [String.utf8EncodeChar, hc, if_false] at hb
  split at hb
  · simp only [mem_cons, not_mem_nil, or_false] at hb
    rcases hb with rfl | rfl <;> simp only [UInt8.toNat_ofNat'] <;> omega
  · split at hb
    · simp only [mem_cons, not_mem_nil, or_false] at hb
      rcases hb with rfl | rfl | rfl <;> simp only [UInt8.toNat_ofNat'] <;> omega
    · simp only [mem_cons, not_mem_nil, or_false] at hb
      rcases hb with rfl | rfl | rfl | rfl <;> simp only [UInt8.toNat_ofNat'] <;> omega

/-- The bytes of a character are not those of another, ASCII one. -/
theorem ne_byte_of_mem {q : Char} {b : UInt8} (hb : b ∈ String.utf8EncodeChar c) (hq : q.toNat < 0x80) (hcq : c ≠ q) :
    b ≠ byte q := by
  rintro rfl
  by_cases hc : c.toNat < 0x80
  · rw [utf8EncodeChar_ascii hc, mem_singleton] at hb
    have heq := congrArg UInt8.toNat hb
    rw [byte_toNat hq, byte_toNat hc] at heq
    exact hcq (Char.toNat_inj.mp heq.symm)
  · have hge := utf8EncodeChar_ge (by omega) _ hb
    rw [byte_toNat hq] at hge
    omega

/-! ## Decoding what was encoded -/

/-- A scalar value is below U+110000 and no surrogate. -/
theorem toNat_scalar (c : Char) : c.val.toNat < 0xD800 ∨ (0xDFFF < c.val.toNat ∧ c.val.toNat < 0x110000) := c.valid

theorem isCont_ofNat (w : Nat) : isCont (UInt8.ofNat (w % 64 + 128)) = true := by
  simp only [isCont, UInt8.toNat_ofNat', Bool.and_eq_true, decide_eq_true_eq]
  omega

/-- Decoding reads back the character encoded at the front, whatever follows it. -/
theorem decodeUtf8From_utf8EncodeChar (c : Char) (r : Bytes) :
    decodeUtf8From 0 (String.utf8EncodeChar c ++ r) = some c :: decodeUtf8From 0 r := by
  have hv := toNat_scalar c
  have hc : Char.ofNat c.val.toNat = c := Char.ofNat_toNat c
  unfold String.utf8EncodeChar
  generalize c.val.toNat = v at hv hc
  rw [← hc]
  dsimp only
  have hval : ∀ {n}, n = v → some (Char.ofNat n) :: decodeUtf8From 0 r = some (Char.ofNat v) :: decodeUtf8From 0 r := by
    rintro n rfl
    rfl
  split
  · simp only [cons_append, nil_append, decodeUtf8From, decodeUtf8Head, UInt8.toNat_ofNat']
    rw [if_pos (by omega), Nat.mod_eq_of_lt (by omega)]
  split
  · simp only [cons_append, nil_append, decodeUtf8From, decodeUtf8Head, UInt8.toNat_ofNat', isCont_ofNat, if_true]
    rw [if_neg (by omega), if_pos (by omega)]
    refine hval ?_
    omega
  split
  · have hs : second3 (UInt8.ofNat (v / 4096 % 16 + 224)) (UInt8.ofNat (v / 64 % 64 + 128)) = true := by
      simp only [second3, UInt8.toNat_ofNat', isCont_ofNat]
      split <;> (try split) <;> simp only [Bool.and_eq_true, decide_eq_true_eq] <;> omega
    simp only [cons_append, nil_append, decodeUtf8From, decodeUtf8Head, UInt8.toNat_ofNat', isCont_ofNat, hs, if_true]
    rw [if_neg (by omega), if_neg (by omega), if_pos (by omega)]
    refine hval ?_
    omega
  · have hs : second4 (UInt8.ofNat (v / 262144 % 8 + 240)) (UInt8.ofNat (v / 4096 % 64 + 128)) = true := by
      simp only [second4, UInt8.toNat_ofNat', isCont_ofNat]
      split <;> (try split) <;> simp only [Bool.and_eq_true, decide_eq_true_eq] <;> omega
    simp only [cons_append, nil_append, decodeUtf8From, decodeUtf8Head, UInt8.toNat_ofNat', isCont_ofNat, hs, if_true]
    rw [if_neg (by omega), if_neg (by omega), if_neg (by omega), if_pos (by omega)]
    refine hval ?_
    omega

/-- Decoding reads back the string encoded at the front, whatever follows it. -/
theorem decodeUtf8_utf8_append (s : Str) (r : Bytes) : decodeUtf8 (utf8 s ++ r) = s.map some ++ decodeUtf8 r := by
  induction s with
  | nil => rfl
  | cons c s ih =>
    rw [utf8_cons, append_assoc, decodeUtf8, decodeUtf8From_utf8EncodeChar, ← decodeUtf8, ih]
    rfl

theorem decodeUtf8_utf8 (s : Str) : decodeUtf8 (utf8 s) = s.map some := by
  have h := decodeUtf8_utf8_append s []
  rw [append_nil] at h
  rw [h, show decodeUtf8 [] = [] from rfl, append_nil]

/-- A string's own bytes are well-formed and read back as the string. -/
@[simp] theorem fromUtf8_utf8 : fromUtf8 (utf8 s) = some s := by
  rw [fromUtf8, decodeUtf8_utf8]
  induction s with
  | nil => rfl
  | cons c s ih =>
    rw [map_cons, mapM_cons, ih]
    rfl

theorem fromUtf8_cons_ascii (hc : c.toNat < 0x80) (bs : Bytes) : fromUtf8 (byte c :: bs) = (fromUtf8 bs).map (fun s => c :: s) := by
  have hdecode := decodeUtf8_utf8_append [c] bs
  rw [utf8_cons_ascii hc, utf8_nil, singleton_append, map_singleton, singleton_append] at hdecode
  rw [fromUtf8, hdecode, fromUtf8, mapM_cons]
  cases (decodeUtf8 bs).mapM id <;> rfl

/-- A strict reader's characters are all there. -/
theorem decodeUtf8_of_fromUtf8 {bs : Bytes} (h : fromUtf8 bs = some s) : decodeUtf8 bs = s.map some := by
  have hall : ∀ (l : List (Option Char)) (s : Str), l.mapM id = some s → l = s.map some := by
    intro l
    induction l with
    | nil =>
      intro s hs
      cases hs
      rfl
    | cons c l ih =>
      intro s hs
      rw [mapM_cons] at hs
      obtain ⟨c', hc', hrest⟩ := Option.bind_eq_some_iff.mp hs
      obtain ⟨s', hs', hpure⟩ := Option.bind_eq_some_iff.mp hrest
      cases hpure
      rw [ih s' hs', map_cons, show c = some c' from hc']
  exact hall _ s h

/-- A lossy reader changes nothing in well-formed bytes. -/
theorem fromUtf8Lossy_of_fromUtf8 {bs : Bytes} (h : fromUtf8 bs = some s) : fromUtf8Lossy bs = s := by
  rw [fromUtf8Lossy, decodeUtf8_of_fromUtf8 h, map_map]
  exact map_id s

@[simp] theorem fromUtf8Lossy_utf8 : fromUtf8Lossy (utf8 s) = s := fromUtf8Lossy_of_fromUtf8 fromUtf8_utf8

end Ferroly
