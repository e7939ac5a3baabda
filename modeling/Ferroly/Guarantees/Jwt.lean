import Ferroly.Lemmas.Jwt

/-!
# Tokens

Verification accepts exactly the valid tokens, and a minted token is accepted exactly while it is in time. A signature has one
canonical text but others that are accepted as well.
-/

namespace Ferroly.Auth

/-! ## Acceptance -/

/-- A token is accepted exactly when it is valid: three segments, the algorithm named, the signature that of the two segments
before it, the claims in time, all numbers compared exactly. A minted token gives its claims back, the unsigned integers that fit an
`i64` as signed ones, exactly when the claims are in time. -/
theorem acceptance_exact (D : FloatDisplay binary64) (now : Nat) (hnow : now < 2 ^ 53) :
    (∀ token secret c, decodeHs256 now token secret = .ok c ↔ Valid now secret token c) ∧
      ∀ c secret, c.isPlain = true → c.depth ≤ 128 →
        (decodeHs256 now (encodeHs256 D c secret) secret = .ok c.norm ↔ InTime now c) := by
  refine ⟨fun token secret c => decodeHs256_eq_ok_iff hnow, fun c secret hplain hdepth => ?_⟩
  obtain ⟨h, p, s, hsplit, hsigned⟩ := signed_mint D hplain hdepth secret
  rw [decode_segments hnow hsplit, inTime_norm]
  exact ⟨fun h => h.2, fun h => ⟨hsigned, h⟩⟩

/-- Claims that expire half a second after the clock, and have been valid since a time given as an unsigned integer. -/
def sampleClaims : Value :=
  .object [("exp".toList, .float (.ofCode binary64 false 0)), ("nbf".toList, .uint ⟨5, by decide⟩),
    ("exp".toList, .float (.ofCode binary64 false (1025 * 2 ^ 52 + 7 * 2 ^ 49)))]

theorem acceptance_exact_sampleClaims :
    (decodeHs256 7 (encodeHs256 exactDisplay sampleClaims [1, 2, 3]) [1, 2, 3] = .ok sampleClaims.norm) ∧
      ¬decodeHs256 8 (encodeHs256 exactDisplay sampleClaims [1, 2, 3]) [1, 2, 3] = .ok sampleClaims.norm := by
  have hplain : sampleClaims.isPlain = true := by decide
  have hdepth : sampleClaims.depth ≤ 128 := by decide
  have hexp : sampleClaims.get "exp".toList = some (.float (.ofCode binary64 false (1025 * 2 ^ 52 + 7 * 2 ^ 49))) := rfl
  constructor
  · refine ((acceptance_exact exactDisplay 7 (by decide)).2 sampleClaims [1, 2, 3] hplain hdepth).mpr ⟨?_, ?_⟩
    · intro v hv
      cases hv
      decide +kernel
    · intro v hv
      cases hv
      rfl
  · intro h
    have htime := ((acceptance_exact exactDisplay 8 (by decide)).2 sampleClaims [1, 2, 3] hplain hdepth).mp h
    exact absurd (htime.exp _ hexp) (by decide +kernel)

/-! ## Uniqueness -/

/-- A header and a payload that a token can be accepted with: the header names the algorithm, and the payload has claims in time. -/
def Acceptable (now : Nat) (h p : Str) : Prop :=
  NamesHs256 h ∧ ∃ bytes c, Denotes p bytes ∧ Json.fromSlice bytes = .ok c ∧ InTime now c

/-- A token with some signature segment is accepted. -/
def Accepted (now : Nat) (secret : Bytes) (h p s : Str) : Prop := ∃ c, decodeHs256 now (h ++ '.' :: p ++ '.' :: s) secret = .ok c

/-- A segment stands for the keyed hash of a header and a payload. -/
def Signs (secret : Bytes) (h p s : Str) : Prop := Denotes s (Hash.Spec.hmacSha256 secret (utf8 (h ++ '.' :: p)))

variable {now : Nat} {secret : Bytes} {h p s : Str}

theorem accepted_iff (hnow : now < 2 ^ 53) (hh : '.' ∉ h) (hp : '.' ∉ p) (hs : '.' ∉ s) :
    Accepted now secret h p s ↔ Acceptable now h p ∧ Signs secret h p s := by
  simp only [Accepted, decode_segments hnow (split_eq_three.mpr ⟨rfl, hh, hp, hs⟩)]
  constructor
  · rintro ⟨c, ⟨hheader, hsignature, bytes, hbytes, hc⟩, htime⟩
    exact ⟨⟨hheader, bytes, c, hbytes, hc, htime⟩, hsignature⟩
  · rintro ⟨⟨hheader, bytes, c, hbytes, hc, htime⟩, hsignature⟩
    exact ⟨c, ⟨hheader, hsignature, bytes, hbytes, hc⟩, htime⟩

/-- A text stands for the same bytes with another `=` sign. -/
theorem Denotes.append_pad {bs : Bytes} (h : Denotes s bs) : Denotes (s ++ ['=']) bs := by
  obtain ⟨ds, extra, hs, hds⟩ := h
  exact ⟨ds, extra, by rw [List.filter_append, hs]; exact List.append_nil _, hds⟩

/-- Of two tokens that differ in their signature segments only, both are accepted exactly if the header and the payload can be accepted
and both segments stand for the keyed hash. So at most one token is accepted for a header and a payload exactly if none can be. -/
theorem signature_unique_iff (now : Nat) (hnow : now < 2 ^ 53) (secret : Bytes) (h p : Str) (hh : '.' ∉ h) (hp : '.' ∉ p) :
    (∀ s s', '.' ∉ s → '.' ∉ s' → s ≠ s' → (¬(Accepted now secret h p s ∧ Accepted now secret h p s') ↔
        ¬(Acceptable now h p ∧ Signs secret h p s ∧ Signs secret h p s'))) ∧
    ((∀ s s', '.' ∉ s → '.' ∉ s' → s ≠ s' → ¬(Accepted now secret h p s ∧ Accepted now secret h p s')) ↔ ¬Acceptable now h p) := by
  have hpair : ∀ s s', '.' ∉ s → '.' ∉ s' → (Accepted now secret h p s ∧ Accepted now secret h p s' ↔
      Acceptable now h p ∧ Signs secret h p s ∧ Signs secret h p s') := by
    intro s s' hs hs'
    rw [accepted_iff hnow hh hp hs, accepted_iff hnow hh hp hs']
    exact ⟨fun h => ⟨h.1.1, h.1.2, h.2.2⟩, fun h => ⟨⟨h.1, h.2.1⟩, h.1, h.2.2⟩⟩
  refine ⟨fun s s' hs hs' _ => not_congr (hpair s s' hs hs'), ?_⟩
  constructor
  · intro hunique hacceptable
    -- the encoding of the keyed hash is accepted, and so it is with an `=` sign more
    have hmac := (canonical_encode (Hash.Spec.hmacSha256 secret (utf8 (h ++ '.' :: p)))).denotes
    have hdot : '.' ∉ b64urlEncode (Hash.Spec.hmacSha256 secret (utf8 (h ++ '.' :: p))) ++ ['='] := by
      rw [List.mem_append, not_or]
      exact ⟨not_mem_encode, by decide⟩
    exact hunique _ _ not_mem_encode hdot (by simp) ((hpair _ _ not_mem_encode hdot).mpr ⟨hacceptable, hmac, hmac.append_pad⟩)
  · intro hnot s s' hs hs' _ hboth
    exact hnot ((hpair s s' hs hs').mp hboth).1

theorem sampleSignatures_accepted : ∀ s ∈ sampleSignatures,
    decodeHs256 0 (sampleHeader ++ '.' :: samplePayload ++ '.' :: s) [107] = .ok (.object []) := by
  obtain ⟨-, hh, hp, hall⟩ := sampleSignatures_decode
  intro s hs
  obtain ⟨hdot, hmac⟩ := hall s hs
  refine (decode_segments (by decide) (split_eq_three.mpr ⟨rfl, hh, hp, hdot⟩)).mpr ⟨⟨?_, ?_, ?_⟩, ?_, ?_⟩
  · exact namesHs256_header
  · rw [← Hash.hmacSha256_eq, sampleMac_eq]
    exact b64urlDecode_eq_some_iff.mp hmac
  · rw [← samplePayload_encoded]
    exact ⟨_, (canonical_encode _).denotes, by rw [fromSlice_utf8]; rfl⟩
  · intro v hv
    cases hv
  · intro v hv
    cases hv

/-- Three distinct tokens of one header and payload are accepted under one secret. -/
theorem signature_malleable : sampleSignatures.Nodup ∧ sampleSignatures.length = 3 ∧ ∀ s ∈ sampleSignatures,
      decodeHs256 0 (sampleHeader ++ '.' :: samplePayload ++ '.' :: s) [107] = .ok (.object []) :=
  ⟨sampleSignatures_decode.1, rfl, sampleSignatures_accepted⟩

theorem signature_unique_iff_sample : Acceptable 0 sampleHeader samplePayload ∧
    ¬∀ s s', '.' ∉ s → '.' ∉ s' → s ≠ s' →
      ¬(Accepted 0 [107] sampleHeader samplePayload s ∧ Accepted 0 [107] sampleHeader samplePayload s') := by
  obtain ⟨-, hh, hp, hall⟩ := sampleSignatures_decode
  obtain ⟨hacceptable, -⟩ := (accepted_iff (by decide) hh hp (hall _ List.mem_cons_self).1).mp
    ⟨_, sampleSignatures_accepted _ List.mem_cons_self⟩
  exact ⟨hacceptable, fun hunique => (signature_unique_iff 0 (by decide) [107] sampleHeader samplePayload hh hp).2.mp hunique hacceptable⟩

end Ferroly.Auth
