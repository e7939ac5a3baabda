import Ferroly.Lemmas.Query

/-!
# Query parameters on the wire

The client encodes keys and values, the server decodes the values only.
-/

namespace Ferroly.Turbo

open Http Rest List

/-- Percent coding: every text is read back from its encoding, which holds only unreserved characters and escapes. On every text the
decoder reads nothing out of range. What is no escape is left as it is exactly if no percent sign has a plus sign and a hexadecimal
digit after it. -/
theorem percent_coding (s t : Str) :
    percentDecode (urlEncode s) = s ∧ (∃ units : List Str, urlEncode s = units.flatten ∧ ∀ u ∈ units, isUnit u = true) ∧
      (percentDecodeAt (utf8 t) 0 []).map fromUtf8Lossy = some (percentDecode t) ∧
      ((∃ out, Decodes (utf8 t) out ∧ percentDecode t = fromUtf8Lossy out) ↔ ¬Signed (utf8 t)) := by
  refine ⟨percentDecode_urlEncode, ⟨(utf8 s).map encodeByte, rfl, ?_⟩, ?_, ?_⟩
  · intro u hu
    obtain ⟨b, -, rfl⟩ := mem_map.mp hu
    exact isUnit_encodeByte b
  · rw [percentDecodeAt_eq, drop_zero, nil_append, Option.map_some, percentDecode]
  · constructor
    · rintro ⟨out, hdecodes, heq⟩ hsigned
      have hcount := congrArg (countP (·.toNat < 0x80)) heq
      rw [percentDecode, fromUtf8Lossy, decodeUtf8, countP_decodeUtf8From, fromUtf8Lossy, decodeUtf8, countP_decodeUtf8From] at hcount
      exact (hdecodes.countP_le.2 hsigned).ne hcount
    · intro h
      exact ⟨_, decodes_percentDecodeFrom h 0, rfl⟩

/-- A malformed escape is read as a byte. -/
theorem signedEscape_decoded : isUnit "%+5".toList = false ∧ percentDecode "%+5".toList = [Char.ofNat 5] := by
  decide

/-- For every URL without a query and all pairs the client adds: the server finds for every name the value of the first pair with that
key, and none if there is none, exactly if every key stands for itself in a query. -/
theorem queryParam_received_iff (url : Str) (uri : Uri) (query : List (Str × Str)) (hurl : '?' ∉ url) (huri : Uri.parse url = .ok uri) :
    (∃ target, Uri.parse (appendQuery url query) = .ok target ∧ ∀ method headers body params name,
      receivedParam target method headers body params name = firstValue query name) ↔ ∀ p ∈ query, urlEncode p.1 = p.1 := by
  obtain ⟨target, htarget, hreceived⟩ := receivedParam_eq hurl huri query
  constructor
  · rintro ⟨target', htarget', hfirst⟩ p hp
    cases htarget.symm.trans htarget'
    -- by induction on the length of the key: the name is found as the encoding of a key that is no longer
    induction hn : (utf8 p.1).length using Nat.strongRecOn generalizing p with
    | ind n ih =>
      have hsome : (firstValue query p.1).isSome = true := by
        rw [firstValue, Option.isSome_map, find?_isSome]
        exact ⟨p, hp, beq_self_eq_true _⟩
      rw [← hfirst .get HeaderMap.new [] [], hreceived, Option.isSome_map, find?_isSome] at hsome
      obtain ⟨e, he, heq⟩ := hsome
      have hkey := beq_iff_eq.mp heq
      rcases length_urlEncode e.1 with hself | hlonger
      · rw [← hkey, hself, hself]
      · rw [hkey, hn] at hlonger
        rw [← hkey, ih _ hlonger e he rfl, ih _ hlonger e he rfl]
  · intro hself
    refine ⟨target, htarget, fun method headers body params name => ?_⟩
    have hkeys : query.filter (fun p => urlEncode p.1 == name) = query.filter (fun p => p.1 == name) :=
      filter_congr (fun p hp => by rw [hself p hp])
    rw [hreceived, firstValue, ← head?_filter, ← head?_filter, hkeys]

/-- A key with a space. -/
def spacedQuery : List (Str × Str) := [("a b".toList, "1".toList)]

theorem queryParam_received_plain : ∃ target, Uri.parse (appendQuery "http://h/".toList [("a".toList, "1 2".toList)]) = .ok target ∧
      ∀ method headers body params name,
        receivedParam target method headers body params name = firstValue [("a".toList, "1 2".toList)] name :=
  (queryParam_received_iff "http://h/".toList ⟨"http".toList, "h".toList, 80, "/".toList, none⟩ _ (by decide) (by decide)).mpr (by decide)

/-- The parameter with that key is not found. -/
theorem spacedQuery_lost : ∃ target, Uri.parse (appendQuery "http://h/".toList spacedQuery) = .ok target ∧
      receivedParam target .get HeaderMap.new [] [] "a b".toList = none ∧ firstValue spacedQuery "a b".toList = some "1".toList := by
  have huri : Uri.parse "http://h/".toList = .ok ⟨"http".toList, "h".toList, 80, "/".toList, none⟩ := by decide
  obtain ⟨target, htarget, hreceived⟩ := receivedParam_eq (by decide) huri spacedQuery
  refine ⟨target, htarget, ?_, by decide⟩
  rw [hreceived]
  decide

end Ferroly.Turbo
