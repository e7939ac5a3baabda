import Ferroly.Lib.Text

/-!
# Cutting a list into blocks

A list is cut into blocks of one length and a rest that is shorter. A hash that works block by block takes a message in pieces:
what does not fill a block waits in a buffer, and the state after any pieces is the state after their concatenation.
-/

namespace Ferroly

open List

variable {n : Nat}

variable {α : Type}

/-! ## Blocks and a rest -/

/-- Cut off blocks of length `n` while there are any; the fuel bounds their number. -/
def cutBlocksFuel (n : Nat) : Nat → List α → List (List α) × List α
  | 0, l => ([], l)
  | fuel + 1, l =>
    if n ≤ l.length then (l.take n :: (cutBlocksFuel n fuel (l.drop n)).1, (cutBlocksFuel n fuel (l.drop n)).2) else ([], l)

/-- The whole blocks of a list and what is left. -/
def cutBlocks (n : Nat) (l : List α) : List (List α) × List α := cutBlocksFuel n l.length l

/-- The blocks of a list, the last one shorter if need be: Rust's `chunks`. -/
def chunksOf (n : Nat) (l : List α) : List (List α) :=
  (cutBlocks n l).1 ++ (if (cutBlocks n l).2 = [] then [] else [(cutBlocks n l).2])

theorem cutBlocksFuel_of_lt {l : List α} (h : l.length < n) (fuel : Nat) : cutBlocksFuel n fuel l = ([], l) := by
  cases fuel with
  | zero => rfl
  | succ fuel => rw [cutBlocksFuel, if_neg (by omega)]

variable {bs : List (List α)} {r : List α}

theorem cutBlocksFuel_flatten (hb : ∀ b ∈ bs, b.length = n) (hr : r.length < n) {fuel : Nat} (hf : bs.length ≤ fuel)
    : cutBlocksFuel n fuel (bs.flatten ++ r) = (bs, r) := by
  induction bs generalizing fuel with
  | nil => exact cutBlocksFuel_of_lt hr fuel
  | cons b bs ih =>
    have hlen := hb b mem_cons_self
    rcases fuel with _ | fuel
    · rw [length_cons] at hf
      omega
    have hrest := ih (forall_mem_cons.mp hb).2 (Nat.le_of_succ_le_succ hf)
    have htake : (b ++ (bs.flatten ++ r)).take n = b := by rw [← hlen, take_left]
    have hdrop : (b ++ (bs.flatten ++ r)).drop n = bs.flatten ++ r := by rw [← hlen, drop_left]
    rw [flatten_cons, append_assoc, cutBlocksFuel, if_pos (by rw [length_append]; omega), htake, hdrop, hrest]

theorem length_flatten_blocks (hb : ∀ b ∈ bs, b.length = n) : bs.flatten.length = bs.length * n := by
  induction bs with
  | nil => simp
  | cons b bs ih =>
    rw [flatten_cons, length_append, hb b mem_cons_self, ih (forall_mem_cons.mp hb).2, length_cons, Nat.succ_mul, Nat.add_comm]

/-- A loop that appends to the first `k` values of a function its next value, computed from those before. -/
theorem foldl_append_values {W : Nat → α} {f : List α → Nat → α} {k : Nat} (hf : ∀ i, f ((range (i + k)).map W) i = W (i + k))
    (n : Nat) : (range n).foldl (fun w i => w ++ [f w i]) ((range k).map W) = (range (n + k)).map W := by
  induction n with
  | zero => rw [range_zero, foldl_nil, Nat.zero_add]
  | succ n ih => rw [range_succ, foldl_append, ih, foldl_cons, foldl_nil, hf, Nat.add_right_comm, range_succ, map_append, map_singleton]

/-- The blocks and the rest of a list are the ones it is made of. -/
theorem cutBlocks_flatten (hn : 0 < n) (hb : ∀ b ∈ bs, b.length = n) (hr : r.length < n) :
    cutBlocks n (bs.flatten ++ r) = (bs, r) := by
  refine cutBlocksFuel_flatten hb hr ?_
  rw [length_append, length_flatten_blocks hb]
  exact (Nat.le_mul_of_pos_right _ hn).trans (Nat.le_add_right _ _)

/-- Every list is made of blocks and a rest. -/
theorem exists_blocks (hn : 0 < n) (l : List α) :
    ∃ (bs : List (List α)) (r : List α), l = bs.flatten ++ r ∧ (∀ b ∈ bs, b.length = n) ∧ r.length < n := by
  induction hk : l.length using Nat.strongRecOn generalizing l with
  | ind k ih =>
    by_cases hlt : l.length < n
    · exact ⟨[], l, rfl, nofun, hlt⟩
    · obtain ⟨bs, r, hl, hb, hr⟩ := ih (l.drop n).length (by rw [length_drop]; omega) (l.drop n) rfl
      refine ⟨l.take n :: bs, r, ?_, ?_, hr⟩
      · rw [flatten_cons, append_assoc, ← hl, take_append_drop]
      · intro b hmem
        rcases mem_cons.mp hmem with rfl | hmem
        · rw [length_take]
          omega
        · exact hb b hmem

/-- Induction by blocks: a list is shorter than a block, or a block and a list. -/
theorem blocks_induction (hn : 0 < n) {P : List α → Prop} (rest : ∀ l, l.length < n → P l)
    (block : ∀ b l, b.length = n → P l → P (b ++ l)) (l : List α) : P l := by
  obtain ⟨bs, r, rfl, hb, hr⟩ := exists_blocks hn l
  induction bs with
  | nil => exact rest _ hr
  | cons b bs ih =>
    rw [flatten_cons, append_assoc]
    exact block _ _ (hb b mem_cons_self) (ih (forall_mem_cons.mp hb).2)

theorem chunksOf_flatten (hn : 0 < n) (hb : ∀ b ∈ bs, b.length = n) (hr : r.length < n) :
    chunksOf n (bs.flatten ++ r) = bs ++ (if r = [] then [] else [r]) := by
  rw [chunksOf, cutBlocks_flatten hn hb hr]

theorem chunksOf_of_lt {l : List α} (hne : l ≠ []) (h : l.length < n) : chunksOf n l = [l] := by
  rw [chunksOf, cutBlocks, cutBlocksFuel_of_lt h, if_neg hne, nil_append]

theorem chunksOf_append (hn : 0 < n) {b : List α} (hb : b.length = n) (l : List α) : chunksOf n (b ++ l) = b :: chunksOf n l := by
  obtain ⟨bs, r, rfl, hbs, hr⟩ := exists_blocks hn l
  have hcons : ∀ c ∈ b :: bs, c.length = n := by
    intro c hc
    rcases mem_cons.mp hc with rfl | hc
    · exact hb
    · exact hbs c hc
  rw [← append_assoc, ← flatten_cons, chunksOf_flatten hn hcons hr, chunksOf_flatten hn hbs hr, cons_append]

/-! ## A hash that works block by block -/

/-- A hash under way: its state, the bytes that wait for a block to fill, and the count of all bytes taken, kept in 64 bits. -/
structure BlockHash (σ : Type) (n : Nat) where
  h : σ
  buf : List UInt8
  total : UInt64
  short : buf.length < n

namespace BlockHash

variable {σ : Type} (compress : σ → List UInt8 → σ)

/-- Before any byte. -/
def new (hn : 0 < n) (init : σ) : BlockHash σ n := ⟨init, [], 0, hn⟩

/-- A buffer that holds something is filled up first: the state, the buffer and the data left to take. -/
def topUp (s : BlockHash σ n) (data : List UInt8) : σ × List UInt8 × List UInt8 :=
  let take := min (n - s.buf.length) data.length
  if s.buf = [] then (s.h, s.buf, data)
  else if (s.buf ++ data.take take).length = n then (compress s.h (s.buf ++ data.take take), [], data.drop take)
  else (s.h, s.buf ++ data.take take, data.drop take)

/-- What filling up does: the bytes stay the same, and either the buffer is empty or no data is left. -/
theorem topUp_spec (s : BlockHash σ n) (data : List UInt8) :
    ∃ bs : List (List UInt8), s.buf ++ data = bs.flatten ++ (topUp compress s data).2.1 ++ (topUp compress s data).2.2 ∧
      (∀ b ∈ bs, b.length = n) ∧ (topUp compress s data).1 = bs.foldl compress s.h ∧
      (topUp compress s data).2.1.length < n ∧ ((topUp compress s data).2.1 = [] ∨ (topUp compress s data).2.2 = []) := by
  have hshort := s.short
  have hnil : ∀ b ∈ ([] : List (List UInt8)), b.length = n := nofun
  simp only [topUp]
  split
  next hbuf => exact ⟨[], rfl, hnil, rfl, hshort, .inl hbuf⟩
  split
  next hfull =>
    refine ⟨[s.buf ++ data.take (min (n - s.buf.length) data.length)], ?_, ?_, rfl, by rw [length_nil]; omega, .inl rfl⟩
    · rw [flatten_singleton, append_nil, append_assoc, take_append_drop]
    · intro b hb
      rw [mem_singleton.mp hb]
      exact hfull
  next hpart =>
    rw [length_append, length_take] at hpart
    refine ⟨[], ?_, hnil, rfl, ?_, .inr (drop_eq_nil_of_le (by omega))⟩
    · rw [flatten_nil, nil_append, append_assoc, take_append_drop]
    · rw [length_append, length_take]
      omega

/-- The rest that is left when all blocks are taken, or the buffer when nothing is left. -/
def leftOver (n : Nat) (buf data : List UInt8) : List UInt8 := if (cutBlocks n data).2 = [] then buf else (cutBlocks n data).2

theorem leftOver_length {buf data : List UInt8} (h : buf.length < n) : (leftOver n buf data).length < n := by
  rw [leftOver]
  split
  · exact h
  · obtain ⟨bs, r, rfl, hb, hr⟩ := exists_blocks (Nat.lt_of_le_of_lt (Nat.zero_le _) h) data
    rw [cutBlocks_flatten (Nat.lt_of_le_of_lt (Nat.zero_le _) h) hb hr]
    exact hr

/-- Take more bytes: fill up the buffer, take the whole blocks, keep what is left. -/
def update (s : BlockHash σ n) (data : List UInt8) : BlockHash σ n where
  h := (cutBlocks n (topUp compress s data).2.2).1.foldl compress (topUp compress s data).1
  buf := leftOver n (topUp compress s data).2.1 (topUp compress s data).2.2
  total := s.total + UInt64.ofNat data.length
  short := by
    obtain ⟨bs, -, -, -, hlt, -⟩ := topUp_spec compress s data
    exact leftOver_length hlt

/-- A hash that has taken a message: the state is the fold over its whole blocks and the buffer holds its rest. -/
structure Took (init : σ) (m : List UInt8) (s : BlockHash σ n) : Prop where
  blocks : ∃ bs : List (List UInt8), m = bs.flatten ++ s.buf ∧ (∀ b ∈ bs, b.length = n) ∧ s.h = bs.foldl compress init
  total : s.total = UInt64.ofNat m.length

variable {compress}

theorem took_new (hn : 0 < n) (init : σ) : Took compress init [] (new hn init) :=
  ⟨⟨[], rfl, nofun, rfl⟩, rfl⟩

/-- Taking more bytes takes the message they are appended to. -/
theorem Took.update {init : σ} {m : List UInt8} {s : BlockHash σ n} (h : Took compress init m s) (data : List UInt8) :
    Took compress init (m ++ data) (s.update compress data) := by
  obtain ⟨bs, hm, hb, hh⟩ := h.blocks
  obtain ⟨cs, hbytes, hc, htop, -, hor⟩ := topUp_spec compress s data
  have hn : 0 < n := Nat.lt_of_le_of_lt (Nat.zero_le _) s.short
  obtain ⟨ds, r, hdata, hd, hr⟩ := exists_blocks hn (topUp compress s data).2.2
  have hcut : cutBlocks n (topUp compress s data).2.2 = (ds, r) := by rw [hdata, cutBlocks_flatten hn hd hr]
  -- the buffer is empty or no data is left, so the blocks of the data come right after those before
  have hrest : (topUp compress s data).2.1 ++ (topUp compress s data).2.2 = ds.flatten ++ (s.update compress data).buf := by
    show _ = ds.flatten ++ leftOver n (topUp compress s data).2.1 (topUp compress s data).2.2
    rw [leftOver, hcut]
    rcases hor with hbuf | hnone
    · rw [hbuf, hdata, nil_append]
      split
      next hnil => rw [show r = [] from hnil]
      · rfl
    · rw [hnone] at hdata
      obtain ⟨hds, rfl⟩ := append_eq_nil_iff.mp hdata.symm
      rw [hnone, hds, if_pos rfl, append_nil, nil_append]
  refine ⟨⟨bs ++ cs ++ ds, ?_, ?_, ?_⟩, ?_⟩
  · calc m ++ data = bs.flatten ++ (s.buf ++ data) := by rw [hm, append_assoc]
      _ = bs.flatten ++ (cs.flatten ++ ((topUp compress s data).2.1 ++ (topUp compress s data).2.2)) := by
          rw [hbytes, append_assoc]
      _ = (bs ++ cs ++ ds).flatten ++ (s.update compress data).buf := by
          rw [hrest, flatten_append, flatten_append, append_assoc, append_assoc]
  · intro b hmem
    rcases mem_append.mp hmem with hmem | hmem
    · exact (mem_append.mp hmem).elim (hb b) (hc b)
    · exact hd b hmem
  · rw [foldl_append, foldl_append, ← hh, ← htop]
    show (cutBlocks n (topUp compress s data).2.2).1.foldl compress (topUp compress s data).1 = _
    rw [hcut]
  · show s.total + UInt64.ofNat data.length = _
    rw [h.total, length_append, UInt64.ofNat_add]

end BlockHash

end Ferroly
