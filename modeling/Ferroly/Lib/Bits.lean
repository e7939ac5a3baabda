import Mathlib.Data.Nat.Bitwise
import Mathlib.Data.List.Basic

/-!
# Numbers as strings of bits

The lowest bits of a number, the highest of them first, and the bits of a list of digits one after another. Shifting and joining
numbers appends their bits, so that regrouping digits of one width into digits of another is a fact about appending.
-/

namespace Ferroly

open List

/-- The lowest `w` bits of a number, the highest first. -/
def bits : Nat → Nat → List Bool
  | 0, _ => []
  | w + 1, n => n.testBit w :: bits w n

@[simp] theorem length_bits (w n : Nat) : (bits w n).length = w := by
  induction w with
  | zero => rfl
  | succ w ih => rw [bits, length_cons, ih]

theorem bits_eq_iff {w m n : Nat} : bits w m = bits w n ↔ ∀ i < w, m.testBit i = n.testBit i := by
  induction w with
  | zero => simp [bits]
  | succ w ih =>
    rw [bits, bits, cons.injEq, ih]
    constructor
    · rintro ⟨htop, hlow⟩ i hi
      rcases Nat.lt_succ_iff_lt_or_eq.mp hi with hlt | rfl
      · exact hlow i hlt
      · exact htop
    · intro h
      exact ⟨h w (Nat.lt_succ_self w), fun i hi => h i (Nat.lt_succ_of_lt hi)⟩

/-- The bits of a number determine it up to the bits left out. -/
theorem bits_inj {w m n : Nat} (hm : m < 2 ^ w) (hn : n < 2 ^ w) (h : bits w m = bits w n) : m = n := by
  refine Nat.eq_of_testBit_eq (fun i => ?_)
  rcases Nat.lt_or_ge i w with hi | hi
  · exact bits_eq_iff.mp h i hi
  · have hpow : 2 ^ w ≤ 2 ^ i := Nat.pow_le_pow_right (by decide) hi
    rw [Nat.testBit_lt_two_pow (hm.trans_le hpow), Nat.testBit_lt_two_pow (hn.trans_le hpow)]

theorem bits_mod (w n : Nat) : bits w (n % 2 ^ w) = bits w n := by
  rw [bits_eq_iff]
  intro i hi
  rw [Nat.testBit_mod_two_pow, decide_eq_true hi, Bool.true_and]

/-- The high bits, then the low ones. -/
theorem bits_add (w v n : Nat) : bits (w + v) n = bits w (n >>> v) ++ bits v n := by
  induction w with
  | zero => rw [Nat.zero_add, bits, nil_append]
  | succ w ih => rw [Nat.succ_add, bits, bits, ih, Nat.testBit_shiftRight, Nat.add_comm v w, cons_append]

/-- A digit pushed from the right. -/
theorem bits_push {v d : Nat} (hd : d < 2 ^ v) (w m : Nat) : bits (w + v) (m <<< v ||| d) = bits w m ++ bits v d := by
  have hlow : bits v (m <<< v ||| d) = bits v d := by
    rw [bits_eq_iff]
    intro i hi
    rw [Nat.testBit_or, Nat.testBit_shiftLeft, decide_eq_false (by omega), Bool.false_and, Bool.false_or]
  have hhigh : (m <<< v ||| d) >>> v = m := by
    refine Nat.eq_of_testBit_eq (fun i => ?_)
    have hpow : 2 ^ v ≤ 2 ^ (v + i) := Nat.pow_le_pow_right (by decide) (Nat.le_add_right v i)
    rw [Nat.testBit_shiftRight, Nat.testBit_or, Nat.testBit_shiftLeft, Nat.testBit_lt_two_pow (hd.trans_le hpow),
      decide_eq_true (Nat.le_add_right v i), Bool.true_and, Bool.or_false, Nat.add_sub_cancel_left]
  rw [bits_add, hhigh, hlow]

theorem bits_zero (w : Nat) : bits w 0 = replicate w false := by
  induction w with
  | zero => rfl
  | succ w ih => rw [bits, ih, Nat.zero_testBit, replicate_succ]

/-- Zeros shifted in from the right. -/
theorem bits_shiftLeft (w v m : Nat) : bits (w + v) (m <<< v) = bits w m ++ replicate v false := by
  rw [← bits_zero v, ← bits_push (Nat.two_pow_pos v) w m, Nat.or_zero]

/-- A digit masked out of a number. -/
theorem bits_mask (w n : Nat) : bits w (n &&& (2 ^ w - 1)) = bits w n := by
  rw [Nat.and_two_pow_sub_one_eq_mod, bits_mod]

theorem bits_toNat_ofNat (n : Nat) : bits 8 (UInt8.ofNat n).toNat = bits 8 n := by
  exact bits_mod 8 n

/-! ## Lists of digits -/

/-- The bits of digits of one width, one after another. -/
def bitsOf (w : Nat) (ds : List Nat) : List Bool := ds.flatMap (bits w)

@[simp] theorem bitsOf_nil (w : Nat) : bitsOf w [] = [] := rfl

@[simp] theorem bitsOf_cons (w d : Nat) (ds : List Nat) : bitsOf w (d :: ds) = bits w d ++ bitsOf w ds := flatMap_cons

@[simp] theorem length_bitsOf (w : Nat) (ds : List Nat) : (bitsOf w ds).length = w * ds.length := by
  induction ds with
  | nil => rfl
  | cons d ds ih => rw [bitsOf_cons, length_append, length_bits, ih, length_cons, Nat.mul_succ, Nat.add_comm]

/-- Digits are determined by the bits that begin with theirs. -/
theorem bitsOf_inj {w : Nat} {ds es : List Nat} {x y : List Bool} (hlen : ds.length = es.length) (hd : ∀ d ∈ ds, d < 2 ^ w)
    (he : ∀ e ∈ es, e < 2 ^ w) (h : bitsOf w ds ++ x = bitsOf w es ++ y) : ds = es ∧ x = y := by
  induction ds generalizing es with
  | nil =>
    obtain rfl := eq_nil_of_length_eq_zero hlen.symm
    exact ⟨rfl, h⟩
  | cons d ds ih =>
    obtain ⟨e, es, rfl⟩ := exists_cons_of_length_eq_add_one hlen.symm
    rw [bitsOf_cons, bitsOf_cons, append_assoc, append_assoc] at h
    obtain ⟨hhead, htail⟩ := append_inj h (by rw [length_bits, length_bits])
    obtain ⟨hds, hxy⟩ := ih (Nat.succ.inj hlen) (forall_mem_cons.mp hd).2 (forall_mem_cons.mp he).2 htail
    exact ⟨by rw [bits_inj (hd d mem_cons_self) (he e mem_cons_self) hhead, hds], hxy⟩

end Ferroly
