import Ferroly.Hash.Sha256

/-!
# The incremental hash is the hash

However a message is split into updates, the digest is the one of the padded message, and the keyed hash is the one of the two
pads.
-/

namespace Ferroly.Hash

open List

theorem length_toBeBytes64 (w : UInt64) : (toBeBytes64 w).length = 8 := rfl

/-! ## The last blocks -/

section LastBlocks

variable {σ : Type} {compress : σ → Bytes → σ} {init : σ} (s : BlockHash σ BLOCK)

/-- The blocks that finishing a hash adds. -/
def lastBlocks : List Bytes :=
  let buf := s.buf ++ [0x80]
  if BLOCK - 8 < buf.length then
    [buf ++ replicate (BLOCK - buf.length) 0, replicate (BLOCK - 8) 0 ++ toBeBytes64 (s.total * 8)]
  else [buf ++ replicate (BLOCK - 8 - buf.length) 0 ++ toBeBytes64 (s.total * 8)]

theorem length_lastBlocks : ∀ b ∈ lastBlocks s, b.length = BLOCK := by
  have hshort : s.buf.length < 64 := s.short
  intro b hb
  simp only [lastBlocks, BLOCK, length_append, length_singleton] at hb ⊢
  split at hb
  · rcases mem_cons.mp hb with rfl | hb
    · simp only [length_append, length_singleton, length_replicate]
      omega
    · rw [mem_singleton.mp hb, length_append, length_replicate, length_toBeBytes64]
  · rw [mem_singleton.mp hb]
    simp only [length_append, length_singleton, length_replicate, length_toBeBytes64]
    omega

/-- Together they are the rest of the message with its padding. -/
theorem flatten_lastBlocks :
    (lastBlocks s).flatten = s.buf ++ 0x80 :: replicate ((55 + (64 - s.buf.length)) % 64) 0 ++ toBeBytes64 (s.total * 8) := by
  have hshort : s.buf.length < 64 := s.short
  simp only [lastBlocks, BLOCK, length_append, length_singleton]
  split
  next hlong =>
    -- the zeros fill one block and begin the next
    have hzeros : (55 + (64 - s.buf.length)) % 64 = (64 - (s.buf.length + 1)) + (64 - 8) := by omega
    rw [hzeros, replicate_add]
    simp
  next hfits =>
    have hzeros : (55 + (64 - s.buf.length)) % 64 = 64 - 8 - (s.buf.length + 1) := by omega
    rw [hzeros]
    simp

variable {s}

/-- With its last blocks a hash that took a message has folded in the blocks of the padded message. -/
theorem foldl_lastBlocks {m : Bytes} (h : BlockHash.Took compress init m s) :
    (lastBlocks s).foldl compress s.h = (chunksOf BLOCK (Spec.pad m)).foldl compress init := by
  obtain ⟨bs, hm, hb, hh⟩ := h.blocks
  have hshort : s.buf.length < 64 := s.short
  have hmod : m.length % 64 = s.buf.length := by
    have hlen : m.length = bs.length * 64 + s.buf.length := by
      rw [hm, length_append, length_flatten_blocks hb]
      rfl
    omega
  have hbits : s.total * 8 = UInt64.ofNat (8 * m.length) := by
    rw [h.total, Nat.mul_comm 8, UInt64.ofNat_mul]
    rfl
  have hpad : Spec.pad m = (bs ++ lastBlocks s).flatten ++ [] := by
    rw [append_nil, flatten_append, flatten_lastBlocks, hbits, Spec.pad]
    simp only [BLOCK, hmod, append_assoc]
    nth_rewrite 1 [hm]
    rw [append_assoc]
  have hall : ∀ b ∈ bs ++ lastBlocks s, b.length = BLOCK := by
    intro b hmem
    exact (mem_append.mp hmem).elim (hb b) (length_lastBlocks s b)
  rw [hpad, chunksOf_flatten (by decide) hall (by decide), if_pos rfl, append_nil, foldl_append, hh]

end LastBlocks

/-! ## One block -/

theorem getD_map_range {W : Nat → UInt32} {i n : Nat} (h : i < n) : ((range n).map W).getD i 0 = W i := by
  rw [getD_eq_getElem?_getD, getElem?_map, getElem?_range h]
  rfl

/-- The schedule of the code, filled in a loop, is that of the standard. -/
theorem schedule_eq (block : Bytes) : schedule block = (range 64).map (Spec.word block) := by
  have hwords : (range 16).map (fun i => fromBeBytes block (i * 4)) = (range 16).map (Spec.word block) := by
    refine map_congr_left (fun i hi => ?_)
    rw [Spec.word, if_pos (mem_range.mp hi), Nat.mul_comm]
  rw [schedule, hwords]
  refine foldl_append_values (fun i => ?_) 48
  rw [Spec.word, if_neg (by omega), scheduleWord, getD_map_range (by omega), getD_map_range (by omega), getD_map_range (by omega),
    getD_map_range (by omega)]
  change Spec.word block i + Spec.smallSigma0 (Spec.word block (i + 1)) + Spec.word block (i + 9) + Spec.smallSigma1 (Spec.word block (i + 14)) =
    Spec.smallSigma1 (Spec.word block (i + 14)) + Spec.word block (i + 9) + Spec.smallSigma0 (Spec.word block (i + 1)) + Spec.word block i
  ac_rfl

/-- The constants of the code are the roots of the standard. -/
theorem SHA256_K_eq : SHA256_K = (range 64).map (fun t => Spec.roundConstants.getD t 0) := by decide +kernel

theorem SHA256_H0_eq : SHA256_H0 = Spec.H0 := by decide +kernel

theorem sha256Compress_eq : sha256Compress = Spec.compress := by
  funext h block
  have hrounds : (SHA256_K.zip (schedule block)).foldl round h = (range 64).foldl (Spec.step block) h := by
    rw [SHA256_K_eq, schedule_eq, zip_map', foldl_map]
    rfl
  rw [sha256Compress, hrounds]
  rfl

/-- Finishing a hash that took a message gives the digest of the message. -/
theorem finalize_took {m : Bytes} {s : Sha256} (h : BlockHash.Took sha256Compress SHA256_H0 m s) : s.finalize = Spec.sha256 m := by
  rw [Spec.sha256, ← sha256Compress_eq, ← SHA256_H0_eq, ← foldl_lastBlocks h]
  simp only [Sha256.finalize, lastBlocks]
  split <;> rfl

/-! ## The hashes -/

theorem took_update (m : Bytes) : BlockHash.Took sha256Compress SHA256_H0 m (Sha256.new.update m) :=
  (BlockHash.took_new (by decide) SHA256_H0).update m

theorem sha256_eq (m : Bytes) : sha256 m = Spec.sha256 m := finalize_took (took_update m)

example : sha256 "abc".toUTF8.toList = [
    0xba, 0x78, 0x16, 0xbf, 0x8f, 0x01, 0xcf, 0xea, 0x41, 0x41, 0x40, 0xde, 0x5d, 0xae, 0x22, 0x23,
    0xb0, 0x03, 0x61, 0xa3, 0x96, 0x17, 0x7a, 0x9c, 0xb4, 0x10, 0xff, 0x61, 0xf2, 0x00, 0x15, 0xad] := by
  decide +kernel

theorem blockKey_eq (key : Bytes) : HmacSha256.blockKey key = Spec.keyBlock key := by
  simp only [HmacSha256.blockKey, Spec.keyBlock, sha256_eq]

/-- A keyed hash that took a message, however it was split, is finished with the hash of the two pads. -/
theorem hmac_finalize_took {key msg : Bytes} {s : HmacSha256} (hkey : s.oKey = (HmacSha256.new key).oKey)
    (h : BlockHash.Took sha256Compress SHA256_H0 ((Spec.keyBlock key).map (0x36 ^^^ ·) ++ msg) s.inner) :
    s.finalize = Spec.hmacSha256 key msg := by
  have houter := (took_update ((Spec.keyBlock key).map (0x5c ^^^ ·))).update
    (Spec.sha256 ((Spec.keyBlock key).map (0x36 ^^^ ·) ++ msg))
  rw [HmacSha256.finalize, hkey, finalize_took h, HmacSha256.new, blockKey_eq]
  exact finalize_took houter

theorem took_new_hmac (key : Bytes) :
    BlockHash.Took sha256Compress SHA256_H0 ((Spec.keyBlock key).map (0x36 ^^^ ·)) (HmacSha256.new key).inner := by
  rw [HmacSha256.new, blockKey_eq]
  exact took_update _

theorem hmacSha256_eq (key msg : Bytes) : hmacSha256 key msg = Spec.hmacSha256 key msg :=
  hmac_finalize_took rfl ((took_new_hmac key).update msg)

end Ferroly.Hash
