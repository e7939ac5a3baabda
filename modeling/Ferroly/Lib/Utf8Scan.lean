import Ferroly.Lib.Text

/-!
# Scanning text byte by byte

A scanner moves through the bytes of a text. Bytes of characters outside ASCII are outside ASCII, so wherever the scanner stops at
an ASCII byte or at the end, it stands between two characters, and what it went over is text.
-/

namespace Ferroly

open List

variable {r : Bytes} {s t : Str}

/-- The bytes are those of an end of the text: a scanner that has them before it stands between two characters. -/
def Within (t : Str) (r : Bytes) : Prop := ∃ s, s <:+ t ∧ r = utf8 s

/-- A text cut before an ASCII byte is cut between two characters. -/
theorem utf8_cut {a : Bytes} (h : a ++ r = utf8 s) (hr : ∀ b ∈ r.head?, b.toNat < 0x80) :
    ∃ u v, s = u ++ v ∧ a = utf8 u ∧ r = utf8 v := by
  induction s generalizing a with
  | nil =>
    obtain ⟨rfl, rfl⟩ := append_eq_nil_iff.mp h
    exact ⟨[], [], rfl, rfl, rfl⟩
  | cons c s ih =>
    rcases append_eq_append_iff.mp h with ⟨m, hc, hm⟩ | ⟨m, ha, hm⟩
    · cases m with
      | nil =>
        rw [append_nil] at hc
        exact ⟨[c], s, rfl, by rw [utf8_cons, hc, utf8_nil, append_nil], hm⟩
      | cons y m =>
        -- the cut is before a byte of the first character, which is ASCII then
        have hy : y ∈ String.utf8EncodeChar c := by rw [hc]; exact mem_append_right a mem_cons_self
        have hlt : y.toNat < 0x80 := hr y (by rw [hm]; rfl)
        have hascii : c.toNat < 0x80 := by
          by_contra hge
          have := utf8EncodeChar_ge (not_lt.mp hge) y hy
          omega
        rw [utf8EncodeChar_ascii hascii] at hc
        obtain rfl : a = [] := by
          cases a with
          | nil => rfl
          | cons x a => simp at hc
        exact ⟨[], c :: s, rfl, rfl, by rw [utf8_cons]; exact h⟩
    · obtain ⟨u, v, rfl, rfl, rfl⟩ := ih hm.symm
      exact ⟨c :: u, v, rfl, by rw [ha, utf8_cons], rfl⟩

theorem Within.cut {a : Bytes} (h : Within t (a ++ r)) (hr : ∀ b ∈ r.head?, b.toNat < 0x80) : (∃ u, a = utf8 u) ∧ Within t r := by
  obtain ⟨s, hs, hbytes⟩ := h
  obtain ⟨u, v, rfl, ha, hv⟩ := utf8_cut hbytes hr
  exact ⟨⟨u, ha⟩, v, (suffix_append u v).trans hs, hv⟩

/-- An ASCII byte is a character. -/
theorem utf8_eq_cons {b : UInt8} (h : b :: r = utf8 s) (hb : b.toNat < 0x80) :
    ∃ c s', s = c :: s' ∧ c.toNat < 0x80 ∧ byte c = b ∧ r = utf8 s' := by
  cases s with
  | nil => cases h
  | cons c s =>
    have hc : c.toNat < 0x80 := by
      by_contra hge
      obtain ⟨x, l, hx⟩ := exists_cons_of_ne_nil (String.utf8EncodeChar_ne_nil (c := c))
      rw [utf8_cons, hx, cons_append, cons.injEq] at h
      have := utf8EncodeChar_ge (not_lt.mp hge) x (by rw [hx]; exact mem_cons_self)
      rw [← h.1] at this
      omega
    rw [utf8_cons_ascii hc, cons.injEq] at h
    exact ⟨c, s, rfl, hc, h.1.symm, h.2⟩

theorem Within.tail {b : UInt8} (h : Within t (b :: r)) (hb : b.toNat < 0x80) : Within t r := by
  obtain ⟨s, hs, hbytes⟩ := h
  obtain ⟨c, s', rfl, -, -, hr⟩ := utf8_eq_cons hbytes hb
  exact ⟨s', (suffix_cons c s').trans hs, hr⟩

theorem byte_inj {c d : Char} (hc : c.toNat < 0x80) (hd : d.toNat < 0x80) (h : byte c = byte d) : c = d := by
  have hnat := congrArg UInt8.toNat h
  rw [byte_toNat hc, byte_toNat hd] at hnat
  exact Char.toNat_inj.mp hnat

theorem beq_byte {c d : Char} (hc : c.toNat < 0x80) (hd : d.toNat < 0x80) : (byte c == byte d) = (c == d) := by
  by_cases h : c = d
  · rw [h, beq_self_eq_true, beq_self_eq_true]
  · rw [beq_eq_false_iff_ne.mpr (fun hb => h (byte_inj hc hd hb)), beq_eq_false_iff_ne.mpr h]

theorem beq_byte_of_ge {b : UInt8} (hb : 0x80 ≤ b.toNat) {c : Char} (hc : c.toNat < 0x80) : (b == byte c) = false := by
  rw [beq_eq_false_iff_ne]
  rintro rfl
  rw [byte_toNat hc] at hb
  omega

/-- A property of all bytes, checked number by number. -/
theorem forall_byte {P : UInt8 → Prop} (h : ∀ n < 256, P (UInt8.ofNat n)) (b : UInt8) : P b := by
  have := h b.toNat b.toNat_lt
  rwa [UInt8.ofNat_toNat] at this

/-- A closed text is seen to be ASCII by running over it. -/
theorem ascii_of_all (h : s.all (fun c => decide (c.toNat < 0x80)) = true) : ∀ c ∈ s, c.toNat < 0x80 :=
  fun c hc => of_decide_eq_true (all_eq_true.mp h c hc)

/-- A test of bytes that does not look into the characters outside ASCII. -/
def Uniform (q : UInt8 → Bool) : Prop := (∀ b : UInt8, 0x80 ≤ b.toNat → q b = true) ∨ ∀ b : UInt8, 0x80 ≤ b.toNat → q b = false

theorem Uniform.of_all {q : UInt8 → Bool} (v : Bool) (h : ∀ k < 128, q (UInt8.ofNat (128 + k)) = v) : Uniform q := by
  have hall : ∀ b : UInt8, 0x80 ≤ b.toNat → q b = v := by
    intro b hb
    have hk := h (b.toNat - 128) (by have := b.toNat_lt; omega)
    rwa [Nat.add_sub_cancel' hb, UInt8.ofNat_toNat] at hk
  cases v with
  | true => exact .inl hall
  | false => exact .inr hall

theorem uniform_ne {c : Char} (hc : c.toNat < 0x80) : Uniform (fun b => b != byte c) := by
  left
  intro b hb
  simp only [bne, beq_byte_of_ge hb hc, Bool.not_false]

/-- What such a test goes over is text, and it stops between two characters. -/
theorem Within.span {q : UInt8 → Bool} (hq : Uniform q) (h : Within t r) :
    (∃ u, r.takeWhile q = utf8 u) ∧ Within t (r.dropWhile q) := by
  rcases hq with hq | hq
  · rw [← takeWhile_append_dropWhile (p := q) (l := r)] at h
    refine h.cut (fun b hb => ?_)
    by_contra hge
    have hfalse := head?_dropWhile_not q r
    rw [Option.mem_def.mp hb] at hfalse
    simp [hq b (not_lt.mp hge)] at hfalse
  · induction r with
    | nil => exact ⟨⟨[], rfl⟩, h⟩
    | cons b r ih =>
      cases hb : q b with
      | false =>
        rw [takeWhile_cons_of_neg (by simp [hb]), dropWhile_cons_of_neg (by simp [hb])]
        exact ⟨⟨[], rfl⟩, h⟩
      | true =>
        rw [takeWhile_cons_of_pos hb, dropWhile_cons_of_pos hb]
        have hlt : b.toNat < 0x80 := by
          by_contra hge
          rw [hq b (not_lt.mp hge)] at hb
          cases hb
        obtain ⟨⟨u, hu⟩, hrest⟩ := ih (h.tail hlt)
        obtain ⟨s, -, hs⟩ := h
        obtain ⟨c, -, -, hc, rfl, -⟩ := utf8_eq_cons hs hlt
        exact ⟨⟨c :: u, by rw [utf8_cons_ascii hc, hu]⟩, hrest⟩

end Ferroly
