import Ferroly.Lib.Utf8

/-!
# Decoding byte strings in pieces

A byte string that is cut and decoded piece by piece gives what the whole gives, but for the characters and ill-formed parts that a cut
goes through: each of those becomes two or more ill-formed parts (`Broken`).
-/

namespace Ferroly

open List

/-- The second list is the first with some of its entries, none of them an ASCII character, broken into ill-formed parts. -/
inductive Broken : List (Option Char) → List (Option Char) → Prop
  | nil : Broken [] []
  | keep (x : Option Char) {w d : List (Option Char)} (h : Broken w d) : Broken (x :: w) (x :: d)
  | part (x : Option Char) (n : Nat) {w d : List (Option Char)} (hx : ∀ c, x = some c → 0x80 ≤ c.toNat) (h : Broken w d) :
    Broken (x :: w) (replicate (n + 2) none ++ d)

variable {c : Char}

namespace Broken

variable {d e w : List (Option Char)}

theorem refl (w : List (Option Char)) : Broken w w := by
  induction w with
  | nil => exact .nil
  | cons x w ih => exact .keep x ih

theorem append_left (p : List (Option Char)) (h : Broken w d) : Broken (p ++ w) (p ++ d) := by
  induction p with
  | nil => exact h
  | cons x p ih => exact .keep x ih

/-- Ill-formed parts that break become more of them. -/
theorem of_replicate {k : Nat} (h : Broken (replicate k none ++ w) e) : ∃ m d, e = replicate (k + m) none ++ d ∧ Broken w d := by
  induction k generalizing e with
  | zero => exact ⟨0, e, rfl, h⟩
  | succ k ih =>
    cases h with
    | keep x h =>
      obtain ⟨m, d, rfl, hd⟩ := ih h
      refine ⟨m, d, ?_, hd⟩
      rw [← cons_append, ← replicate_succ, Nat.add_right_comm]
    | part x n hx h =>
      obtain ⟨m, d, rfl, hd⟩ := ih h
      refine ⟨m + n + 1, d, ?_, hd⟩
      rw [← append_assoc, ← replicate_add]
      congr 2
      omega

theorem trans (h : Broken w d) (h' : Broken d e) : Broken w e := by
  induction h generalizing e with
  | nil => exact h'
  | keep x h ih =>
    cases h' with
    | keep x h' => exact .keep x (ih h')
    | part x n hx h' => exact .part x n hx (ih h')
  | part x n hx h ih =>
    obtain ⟨m, d, rfl, hd⟩ := of_replicate h'
    rw [show n + 2 + m = n + m + 2 by omega]
    exact .part x (n + m) hx (ih hd)

/-- An ASCII character is in the same place on both sides. -/
theorem of_append (hc : c.toNat < 0x80) {l : List (Option Char)} (h : Broken (l ++ some c :: w) e) :
    ∃ m d, e = m ++ some c :: d ∧ Broken l m ∧ Broken w d := by
  induction l generalizing e with
  | nil =>
    cases h with
    | keep x h => exact ⟨[], _, rfl, .nil, h⟩
    | part x n hx h => exact absurd (hx c rfl) (by omega)
  | cons y l ih =>
    cases h with
    | keep x h =>
      obtain ⟨m, d, rfl, hm, hd⟩ := ih h
      exact ⟨y :: m, d, rfl, .keep y hm, hd⟩
    | part x n hx h =>
      obtain ⟨m, d, rfl, hm, hd⟩ := ih h
      exact ⟨replicate (n + 2) none ++ m, d, (append_assoc _ _ _).symm, .part y n hx hm, hd⟩

theorem eq_nil (h : Broken w []) : w = [] := by
  generalize he : ([] : List (Option Char)) = e at h
  cases h with
  | nil => rfl
  | keep x h | part x n hx h => cases he

/-- A character at the end on the right is at the end on the left. -/
theorem getLast? (h : Broken w d) (hd : d.getLast? = some (some c)) : w.getLast? = some (some c) := by
  induction h with
  | nil => exact hd
  | @keep x w d h ih =>
    rw [getLast?_cons] at hd ⊢
    rcases hlast : d.getLast? with _ | y
    · rw [getLast?_eq_none_iff] at hlast
      subst hlast
      rw [h.eq_nil]
      exact hd
    · rw [hlast] at hd
      rw [ih (hlast.trans hd)]
      rfl
  | @part x n w d hx h ih =>
    rcases eq_nil_or_concat d with rfl | ⟨d, y, rfl⟩
    · rw [append_nil] at hd
      cases eq_of_mem_replicate (mem_of_getLast? hd)
    · rw [concat_eq_append, ← append_assoc, getLast?_concat] at hd
      rw [concat_eq_append, getLast?_concat] at ih
      rw [getLast?_cons, ih hd]
      rfl

theorem not_mem (h : Broken w d) (hw : some c ∉ w) : some c ∉ d := by
  induction h with
  | nil => exact hw
  | keep x h ih =>
    rw [mem_cons, not_or] at hw ⊢
    exact ⟨hw.1, ih hw.2⟩
  | part x n hx h ih =>
    rw [mem_cons, not_or] at hw
    rw [mem_append, not_or]
    refine ⟨fun hmem => ?_, ih hw.2⟩
    cases eq_of_mem_replicate hmem

end Broken

/-! ## One character or ill-formed part -/

@[grind →] theorem isCont_of_second3 {b c : UInt8} (h : second3 b c = true) : isCont c = true := by
  unfold second3 at h
  grind [isCont]

@[grind →] theorem isCont_of_second4 {b c : UInt8} (h : second4 b c = true) : isCont c = true := by
  unfold second4 at h
  grind [isCont]

variable (b : UInt8) (t : Bytes)

/-- With fewer bytes to look at, a part that is complete is the same and one that is not is ill-formed up to the end. -/
theorem decodeUtf8Head_take (j : Nat) : decodeUtf8Head b (t.take j) =
      if (decodeUtf8Head b t).2 ≤ j then decodeUtf8Head b t else (none, j) := by
  unfold decodeUtf8Head
  by_cases h1 : b.toNat < 0x80
  · simp only [h1, if_true, Nat.zero_le]
  simp only [h1, if_false]
  by_cases h2 : 0xC2 ≤ b.toNat ∧ b.toNat ≤ 0xDF
  · simp only [h2, and_self]
    rcases t with _ | ⟨c, t⟩ <;> rcases j with _ | j <;> simp only [take_nil, Nat.zero_le, if_true]
    all_goals (by_cases hc : isCont c = true <;> simp [hc])
  simp only [h2, if_false]
  by_cases h3 : 0xE0 ≤ b.toNat ∧ b.toNat ≤ 0xEF
  · simp only [h3, and_self]
    rcases t with _ | ⟨c, _ | ⟨d, t⟩⟩ <;> rcases j with _ | _ | j <;> simp only [take_nil, Nat.zero_le, if_true]
    all_goals (by_cases hc : second3 b c = true <;> simp [hc])
    all_goals (by_cases hd : isCont d = true <;> simp [hd])
  simp only [h3, if_false]
  by_cases h4 : 0xF0 ≤ b.toNat ∧ b.toNat ≤ 0xF4
  · simp only [h4, and_self]
    rcases t with _ | ⟨c, _ | ⟨d, _ | ⟨e, t⟩⟩⟩ <;> rcases j with _ | _ | _ | j <;> simp only [take_nil, Nat.zero_le, if_true]
    all_goals (by_cases hc : second4 b c = true <;> simp [hc])
    all_goals (by_cases hd : isCont d = true <;> simp [hd])
    all_goals (by_cases he : isCont e = true <;> simp [he])
  simp only [h4, if_false, Nat.zero_le, if_true]

/-- A part takes only continuation bytes, and none that are not there. -/
theorem decodeUtf8Head_cont :
    (decodeUtf8Head b t).2 ≤ t.length ∧ ∀ x ∈ t.take (decodeUtf8Head b t).2, isCont x = true := by
  fun_cases decodeUtf8Head b t <;> grind

theorem toNat_ofNat {n : Nat} (h : n.isValidChar) : (Char.ofNat n).toNat = n := by
  rw [Char.ofNat, dif_pos h]
  rfl

/-- An ASCII character is one byte. -/
theorem decodeUtf8Head_ascii {b : UInt8} {t : Bytes} (h : (decodeUtf8Head b t).1 = some c) (hc : c.toNat < 0x80) :
    (decodeUtf8Head b t).2 = 0 ∧ b = byte c := by
  have hof : ∀ n, some (Char.ofNat n) = some c → 0x80 ≤ n → n.isValidChar → False := by
    intro n h hn hv
    rw [← Option.some.inj h, toNat_ofNat hv] at hc
    omega
  revert h
  fun_cases decodeUtf8Head b t <;> intro h <;> try contradiction
  · rw [← Option.some.inj h, byte, toNat_ofNat (.inl (by omega)), UInt8.ofNat_toNat]
    exact ⟨rfl, rfl⟩
  all_goals
    -- the tests of the second byte leave no overlong form and no surrogate
    refine (hof _ h ?_ ?_).elim
    all_goals grind [second3, second4, isCont]

theorem decodeUtf8From_eq (k : Nat) (t : Bytes) : decodeUtf8From k t = decodeUtf8 (t.drop k) := by
  induction k generalizing t with
  | zero => rfl
  | succ k ih =>
    rcases t with _ | ⟨x, t⟩
    · rfl
    · rw [decodeUtf8From, ih, drop_succ_cons]

theorem decodeUtf8_cons :
    decodeUtf8 (b :: t) = (decodeUtf8Head b t).1 :: decodeUtf8 (t.drop (decodeUtf8Head b t).2) := by
  rw [decodeUtf8, decodeUtf8From, decodeUtf8From_eq]

/-- Continuation bytes by themselves are ill-formed parts of one byte each. -/
theorem eq_of_decodeUtf8 {bs : Bytes} {s : Str} (h : decodeUtf8 bs = s.map some) (hs : ∀ c ∈ s, c.toNat < 0x80) : bs = s.map byte := by
  induction s generalizing bs with
  | nil =>
    rcases bs with _ | ⟨b, t⟩
    · rfl
    · cases h
  | cons c s ih =>
    rcases bs with _ | ⟨b, t⟩
    · cases h
    rw [decodeUtf8_cons] at h
    obtain ⟨hc, ht⟩ := cons.inj h
    obtain ⟨hskip, rfl⟩ := decodeUtf8Head_ascii hc (hs c mem_cons_self)
    rw [hskip] at ht
    rw [map_cons, ← ih ht (forall_mem_cons.mp hs).2, drop_zero]

/-- An ASCII byte. -/
def isAscii (b : UInt8) : Bool := decide (b.toNat < 0x80)

/-- The head of some bytes is read as an ASCII character exactly if it is one. -/
theorem decodeUtf8Head_lossy (b : UInt8) (t : Bytes) : ((decodeUtf8Head b t).1.getD replacement).toNat < 0x80 ↔ b.toNat < 0x80 := by
  constructor
  · intro hc
    cases h : (decodeUtf8Head b t).1 with
    | none => exact absurd (h ▸ hc) (by decide)
    | some c =>
      rw [h, Option.getD_some] at hc
      rw [(decodeUtf8Head_ascii h hc).2, byte_toNat hc]
      exact hc
  · intro hb
    have h : decodeUtf8Head b t = (some (Char.ofNat b.toNat), 0) := if_pos hb
    rw [h, Option.getD_some, toNat_ofNat (.inl (by omega))]
    exact hb

/-- The lossy reader keeps the ASCII bytes and adds none. -/
theorem countP_decodeUtf8From (k : Nat) (bs : Bytes) :
    ((decodeUtf8From k bs).map (·.getD replacement)).countP (·.toNat < 0x80) = (bs.drop k).countP isAscii := by
  induction bs generalizing k with
  | nil =>
    rw [drop_nil, decodeUtf8From]
    rfl
  | cons b bs ih =>
    cases k with
    | succ k => exact ih k
    | zero =>
      have hskip : (bs.take (decodeUtf8Head b bs).2).countP isAscii = 0 := by
        refine countP_eq_zero.mpr (fun x hx => ?_)
        grind [isAscii, isCont, decodeUtf8Head_cont b bs]
      have hsplit := (take_append_drop (decodeUtf8Head b bs).2 bs).symm
      rw [decodeUtf8From, map_cons, countP_cons, ih, drop_zero, countP_cons, isAscii, decide_eq_decide.mpr (decodeUtf8Head_lossy b bs)]
      nth_rewrite 3 [hsplit]
      rw [countP_append, hskip, Nat.zero_add]

theorem decodeUtf8_cont {t : Bytes} (h : ∀ x ∈ t, isCont x = true) (rest : Bytes) :
    decodeUtf8 (t ++ rest) = replicate t.length none ++ decodeUtf8 rest := by
  induction t with
  | nil => rfl
  | cons x t ih =>
    have hx := h x mem_cons_self
    rw [isCont, Bool.and_eq_true, decide_eq_true_eq, decide_eq_true_eq] at hx
    have hhead : decodeUtf8Head x (t ++ rest) = (none, 0) := by
      unfold decodeUtf8Head
      rw [if_neg (by omega), if_neg (by omega), if_neg (by omega), if_neg (by omega)]
    rw [cons_append, decodeUtf8_cons, hhead, drop_zero, ih (forall_mem_cons.mp h).2, length_cons, replicate_succ, cons_append]

/-! ## Pieces -/

/-- Two pieces: at most the part that the cut goes through is broken. -/
theorem broken_append (a b : Bytes) : Broken (decodeUtf8 (a ++ b)) (decodeUtf8 a ++ decodeUtf8 b) := by
  -- part by part, as long as the next one is in the first piece
  induction hn : a.length using Nat.strongRecOn generalizing a with
  | ind n ih =>
    subst hn
    rcases a with _ | ⟨x, a⟩
    · exact .refl _
    · rw [cons_append, decodeUtf8_cons, decodeUtf8_cons]
      have htake := decodeUtf8Head_take x (a ++ b) a.length
      rw [take_left] at htake
      obtain ⟨hle, hcont⟩ := decodeUtf8Head_cont x (a ++ b)
      by_cases hk : (decodeUtf8Head x (a ++ b)).2 ≤ a.length
      · rw [if_pos hk] at htake
        rw [htake, drop_append_of_le_length hk]
        refine .keep _ (ih _ ?_ _ rfl)
        rw [length_drop, length_cons]
        omega
      · rw [if_neg hk] at htake
        rw [htake, drop_length]
        obtain ⟨k, hsum⟩ : ∃ k, (decodeUtf8Head x (a ++ b)).2 = a.length + (k + 1) := ⟨(decodeUtf8Head x (a ++ b)).2 - a.length - 1, by omega⟩
        rw [length_append] at hle
        rw [hsum, take_length_add_append] at hcont
        have hb : decodeUtf8 b = replicate (k + 1) none ++ decodeUtf8 (b.drop (k + 1)) := by
          have h := decodeUtf8_cont (t := b.take (k + 1)) (fun y hy => hcont y (mem_append_right _ hy)) (b.drop (k + 1))
          rw [take_append_drop, length_take, Nat.min_eq_left (by omega)] at h
          exact h
        rw [hsum, drop_length_add_append, hb]
        refine .part _ k ?_ (.refl _)
        intro c hc
        by_contra hlt
        have := (decodeUtf8Head_ascii hc (Nat.lt_of_not_le hlt)).1
        omega

/-- Any pieces: only the parts that cuts go through are broken. -/
theorem broken_pieces (pieces : List Bytes) : Broken (decodeUtf8 pieces.flatten) (pieces.flatMap decodeUtf8) := by
  induction pieces with
  | nil => exact .nil
  | cons a pieces ih =>
    exact (broken_append a pieces.flatten).trans (ih.append_left (decodeUtf8 a))

end Ferroly
