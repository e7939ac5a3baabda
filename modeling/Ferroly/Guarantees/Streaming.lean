import Ferroly.Hash.Sha1
import Ferroly.Lemmas.Sha256

/-!
# Hashing in pieces

However a message is split into updates, the hashers give the digest of the padded message that their standards define. A message
shorter than 2^61 bytes has its length in bits written out in full; longer ones have it modulo 2^64, in the hashers as in `Spec.pad`.
-/

namespace Ferroly.Hash

open List

variable {σ : Type} {n : Nat} {compress : σ → Bytes → σ} {init : σ}

theorem took_foldl {m : Bytes} {s : BlockHash σ n} (h : BlockHash.Took compress init m s) (parts : List Bytes) :
    BlockHash.Took compress init (m ++ parts.flatten) (parts.foldl (BlockHash.update compress) s) := by
  induction parts generalizing m s with
  | nil =>
    rw [flatten_nil, append_nil]
    exact h
  | cons part parts ih =>
    rw [flatten_cons, ← append_assoc]
    exact ih (h.update part)

/-- The source joins disjoint bits with `|` where the standard has an exclusive or. -/
theorem sha1F_eq : sha1F = Spec.sha1F := by
  funext i b c d
  have hch : (b &&& c) ||| (~~~b &&& d) = (b &&& c) ^^^ (~~~b &&& d) := by
    refine UInt32.toBitVec_inj.mp (BitVec.eq_of_getLsbD_eq fun j hj => ?_)
    simp only [UInt32.toBitVec_or, UInt32.toBitVec_and, UInt32.toBitVec_xor, UInt32.toBitVec_not, BitVec.getLsbD_or,
      BitVec.getLsbD_and, BitVec.getLsbD_xor, BitVec.getLsbD_not, hj, decide_true, Bool.true_and]
    cases b.toBitVec.getLsbD j <;> simp
  have hmaj : (b &&& c) ||| (b &&& d) ||| (c &&& d) = (b &&& c) ^^^ (b &&& d) ^^^ (c &&& d) := by
    refine UInt32.toBitVec_inj.mp (BitVec.eq_of_getLsbD_eq fun j hj => ?_)
    simp only [UInt32.toBitVec_or, UInt32.toBitVec_and, UInt32.toBitVec_xor, BitVec.getLsbD_or, BitVec.getLsbD_and, BitVec.getLsbD_xor]
    cases b.toBitVec.getLsbD j <;> cases c.toBitVec.getLsbD j <;> simp
  rw [sha1F, Spec.sha1F, Spec.ch, Spec.maj, hch, hmaj]

theorem sha1Schedule_eq (block : Bytes) : sha1Schedule block = (range 80).map (Spec.sha1Word block) := by
  have hwords : (range 16).map (fun i => fromBeBytes block (i * 4)) = (range 16).map (Spec.sha1Word block) := by
    refine map_congr_left (fun i hi => ?_)
    rw [Spec.sha1Word, if_pos (mem_range.mp hi), Nat.mul_comm]
  rw [sha1Schedule, hwords]
  refine foldl_append_values (fun i => ?_) 64
  rw [Spec.sha1Word, if_neg (by omega), getD_map_range (by omega), getD_map_range (by omega), getD_map_range (by omega),
    getD_map_range (by omega)]
  rfl

theorem sha1Compress_eq : sha1Compress = Spec.sha1Compress := by
  funext h block
  have hrounds : (sha1Schedule block).zipIdx.foldl sha1Round h = (range 80).foldl (Spec.sha1Step block) h := by
    rw [sha1Schedule_eq, zipIdx_eq_zip_range', length_map, length_range, ← range_eq_range']
    nth_rewrite 2 [← map_id (range 80)]
    rw [zip_map', foldl_map]
    simp only [sha1Round, sha1F_eq]
    rfl
  rw [sha1Compress, hrounds]
  rfl

theorem sha1_finalize_took {m : Bytes} {s : Sha1} (h : BlockHash.Took sha1Compress SHA1_H0 m s) : s.finalize = Spec.sha1 m := by
  rw [Spec.sha1, ← sha1Compress_eq]
  change _ = ((chunksOf BLOCK (Spec.pad m)).foldl sha1Compress SHA1_H0).toBytes
  rw [← foldl_lastBlocks h]
  simp only [Sha1.finalize, lastBlocks]
  split <;> rfl

theorem hmac_foldl (parts : List Bytes) (s : HmacSha256) :
    parts.foldl HmacSha256.update s = { s with inner := parts.foldl Sha256.update s.inner } := by
  induction parts generalizing s with
  | nil => rfl
  | cons part parts ih => exact ih _

/-- Any message in any pieces, empty ones included: SHA-256, SHA-1 and the keyed hash under any key. -/
theorem streaming_hashes (parts : List Bytes) : (parts.foldl Sha256.update Sha256.new).finalize = Spec.sha256 parts.flatten ∧
      (parts.foldl Sha1.update Sha1.new).finalize = Spec.sha1 parts.flatten ∧
      ∀ key, (parts.foldl HmacSha256.update (HmacSha256.new key)).finalize = Spec.hmacSha256 key parts.flatten := by
  refine ⟨?_, ?_, fun key => ?_⟩
  · exact finalize_took (took_foldl (BlockHash.took_new (by decide) SHA256_H0) parts)
  · exact sha1_finalize_took (took_foldl (BlockHash.took_new (by decide) SHA1_H0) parts)
  · rw [hmac_foldl]
    exact hmac_finalize_took rfl (took_foldl (took_new_hmac key) parts)

end Ferroly.Hash
