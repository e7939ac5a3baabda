import Ferroly.Lemmas.HttpResponse

/-!
# Response framing from end to end

The server chooses the framing of a response by the request's method, the client by the status and the fields it reads, without
the method. A response is read back exactly when the two choices agree.
-/

namespace Ferroly.Http

open List

section ReadBack

variable {resp : HttpResponse} {method : Method} {keep : Bool}

/-- The values of a field as they are read back. -/
abbrev HttpResponse.sent (resp : HttpResponse) (name : Str) : List Str := valuesOf name (resp.headers.entries.map wireField)

/-- All fields as they are read back. -/
abbrev HttpResponse.back (resp : HttpResponse) (method : Method) (keep : Bool) : HeaderMap :=
  readBack HeaderMap.new (responseFields resp method keep)

/-- A stream is handed over if the fields read back say that it is chunked. -/
theorem handsOver_stream {chunks : List Bytes} (h : resp.Unframed) (hfinal : resp.status.isFinal)
    (hno : noContent resp.status = false) (hmethod : method ≠ .head) (hstream : resp.stream = some chunks)
    (hmax : ∀ chunk ∈ chunks, chunk.length ≤ MAX_CHUNK_SIZE) :
    HandsOver resp.status (resp.back method keep) (responseBody resp method) (resp.entity method) ↔
      (resp.sent "transfer-encoding".toList).head?.all mentionsChunked = true := by
  have hbody : bodyless method resp.status = false := by
    rw [bodyless, hno, Bool.or_false, beq_eq_false_iff_ne]
    exact hmethod
  have hwritten : responseBody resp method = chunks.flatMap chunkBytes ++ utf8 "0\r\n\r\n".toList := by
    rw [responseBody, hbody, hstream]
    rfl
  have hentity : resp.entity method = chunks.flatten := by
    rw [HttpResponse.entity, hbody, hstream]
    rfl
  have hfields : framingFields resp method = [("Transfer-Encoding".toList, "chunked".toList)] := by
    rw [framingFields, hbody, hstream]
    rfl
  have hchunked : (resp.back method keep).isChunked = (resp.sent "transfer-encoding".toList).head?.all mentionsChunked := by
    rw [HeaderMap.isChunked_eq, HeaderMap.transferEncodings, readBack_values h (by decide), hfields, HttpResponse.sent]
    rcases valuesOf "transfer-encoding".toList (resp.headers.entries.map wireField) with _ | ⟨v, vs⟩
    · decide
    · rfl
  have hframing := responseFraming_of_content (resp.back method keep) hfinal.not_isInterim hno
  rw [hchunked] at hframing
  rw [hwritten, hentity]
  rcases hall : (resp.sent "transfer-encoding".toList).head?.all mentionsChunked with _ | _
  · refine iff_of_false ?_ Bool.false_ne_true
    rw [hall] at hframing
    rcases hlen : (resp.back method keep).contentLength with _ | n
    · rw [hlen] at hframing
      exact not_handsOver_eof hframing
    · rw [hlen] at hframing
      rw [handsOver_length hframing]
      rintro ⟨-, heq⟩
      -- what is written is more than its data
      obtain ⟨cut, hdata, hcuts⟩ := cuts_chunkBytes (by decide) hmax .eof []
      obtain ⟨t, ht, hlt, -⟩ := hcuts.coding
      rw [← append_assoc] at ht
      rw [hdata, heq, append_cancel_right ht] at hlt
      exact Nat.lt_irrefl _ hlt
  · rw [hall] at hframing
    exact iff_of_true (handsOver_chunked hframing hmax) rfl

/-- A fixed body, or none for `HEAD`, is handed over if the length read back is that of what is written. -/
theorem handsOver_fixed (h : resp.Unframed) (hfinal : resp.status.isFinal) (hno : noContent resp.status = false)
    (hfixed : (resp.stream.isSome && method != .head) = false) (hlen : resp.body.length < 2 ^ 64) :
    HandsOver resp.status (resp.back method keep) (responseBody resp method) (resp.entity method) ↔
      (resp.sent "transfer-encoding".toList).head?.any mentionsChunked = false ∧
      ((resp.sent "content-length".toList).head?.map HeaderMap.parseLength).getD
        (some resp.body.length) = some (if method = .head then 0 else resp.body.length) := by
  have hwritten : responseBody resp method = resp.entity method ∧
      (resp.entity method).length = if method = .head then 0 else resp.body.length := by
    rw [responseBody, HttpResponse.entity, bodyless, hno]
    by_cases hm : method = .head
    · rw [hm]
      exact ⟨rfl, rfl⟩
    · have hnone : resp.stream = none := by
        rcases hs : resp.stream with _ | chunks
        · rfl
        · rw [hs] at hfixed
          exact absurd (by simpa using hfixed) hm
      rw [hnone, if_neg hm]
      have hb : (method == .head) = false := beq_eq_false_iff_ne.mpr hm
      rw [hb]
      exact ⟨rfl, rfl⟩
  have hfields : framingFields resp method = [("Content-Length".toList, Nat.toDigits 10 resp.body.length)] := by
    have hstreaming : (resp.stream.isSome && !bodyless method resp.status) = false := by
      rw [bodyless, hno, Bool.or_false]
      exact hfixed
    rw [framingFields, hstreaming, hno]
    rfl
  have hdigits := parseDigits_toDigits (b := 10) (by decide) (by decide) resp.body.length
  have hwire : wireField ("Content-Length".toList, Nat.toDigits 10 resp.body.length) =
      ("Content-Length".toList, Nat.toDigits 10 resp.body.length) := by
    rw [wireField_of_not_mem (by decide), trim_of_parseDigits hdigits]
    have htrim : trim "Content-Length".toList = "Content-Length".toList := by decide
    rw [htrim]
  have hchunked : (resp.back method keep).isChunked = (resp.sent "transfer-encoding".toList).head?.any mentionsChunked := by
    rw [HeaderMap.isChunked_eq, HeaderMap.transferEncodings, readBack_values h (by decide), hfields, map_cons, hwire, valuesOf_cons]
    exact congrArg _ (congrArg _ (append_nil _))
  have hlength : (resp.back method keep).contentLength =
      ((resp.sent "content-length".toList).head?.map HeaderMap.parseLength).getD (some resp.body.length) := by
    rw [HeaderMap.contentLength, HeaderMap.get_eq_head, readBack_values h (by decide), hfields,
      map_cons, hwire, valuesOf_cons, HttpResponse.sent]
    rcases valuesOf "content-length".toList (resp.headers.entries.map wireField) with _ | ⟨v, vs⟩
    · have hparse : HeaderMap.parseLength (Nat.toDigits 10 resp.body.length) = some resp.body.length := by
        rw [HeaderMap.parseLength, trim_of_parseDigits hdigits, parseUnsigned_of_parseDigits 64 hdigits, if_pos hlen]
      exact hparse
    · rfl
  have hframing := responseFraming_of_content (resp.back method keep) hfinal.not_isInterim hno
  rw [hchunked, hlength] at hframing
  rw [hwritten.1]
  rcases hany : (resp.sent "transfer-encoding".toList).head?.any mentionsChunked with _ | _
  · rw [hany] at hframing
    rcases hl : ((resp.sent "content-length".toList).head?.map HeaderMap.parseLength).getD (some resp.body.length) with _ | n
    · rw [hl] at hframing
      exact iff_of_false (not_handsOver_eof hframing) (fun hc => by cases hc.2)
    · rw [hl] at hframing
      rw [handsOver_length hframing, hwritten.2]
      simp
  · rw [hany] at hframing
    exact iff_of_false (not_handsOver_chunked hframing (Nat.le_refl _)) (fun hc => by cases hc.1)

end ReadBack

/-- The client obtains exactly the body and leaves exactly what follows it, in whatever portions the bytes arrive, just in case the
head fits the client's limits and the framing read back is that of the bytes written. The length of a body fits a `u64`. -/
theorem response_read_back_iff (resp : HttpResponse) (method : Method) (keep : Bool) (hfinal : resp.status.isFinal)
    (hheaders : resp.Unframed) (hchunks : ∀ chunks, resp.stream = some chunks → ∀ chunk ∈ chunks, chunk.length ≤ MAX_CHUNK_SIZE)
    (hlen : resp.body.length < 2 ^ 64) :
    (∀ key conn R, conn.input = responseBytes resp method keep ++ R →
      ∃ r conn0 conn', receive key conn = (.ok r, conn0) ∧ r.finish = (.ok (resp.entity method), some conn') ∧ conn'.input = R) ↔
    resp.isReadBack method keep = true := by
  rw [receive_handsOver]
  unfold HttpResponse.isReadBack
  rw [Bool.and_eq_true]
  refine and_congr Iff.rfl ?_
  rcases hno : noContent resp.status with _ | _
  · rcases hstream : (resp.stream.isSome && method != .head) with _ | _
    · rw [handsOver_fixed hheaders hfinal hno hstream hlen]
      simp
    · rw [Bool.and_eq_true, Option.isSome_iff_exists] at hstream
      obtain ⟨⟨chunks, hs⟩, hm⟩ := hstream
      rw [handsOver_stream hheaders hfinal hno (by simpa using hm) hs (hchunks chunks hs)]
      rfl
  · have hbodyless : bodyless method resp.status = true := by rw [bodyless, hno, Bool.or_true]
    have hwritten : responseBody resp method = [] := by rw [responseBody, if_pos hbodyless]
    have hentity : resp.entity method = [] := by rw [HttpResponse.entity, if_pos hbodyless]
    rw [hwritten, hentity]
    exact iff_of_true (handsOver_done (responseFraming_of_noContent _ hno)) rfl

/-! ## Two responses -/

/-- A response with a short body. -/
def sampleResponse : HttpResponse := HttpResponse.text .OK "hi".toList

theorem response_read_back_get : sampleResponse.isReadBack .get true = true ∧
    ∀ key conn R, conn.input = responseBytes sampleResponse .get true ++ R →
      ∃ r conn0 conn', receive key conn = (.ok r, conn0) ∧ r.finish = (.ok (sampleResponse.entity .get), some conn') ∧
        conn'.input = R := by
  have hback : sampleResponse.isReadBack .get true = true := rfl
  refine ⟨hback, (response_read_back_iff sampleResponse .get true ⟨by decide, by decide⟩ ?_ ?_ (by decide)).mpr hback⟩
  · unfold HttpResponse.Unframed
    decide
  · intro chunks hchunks
    cases hchunks

/-- The same response to `HEAD`, at the end of the stream: the client waits for the two bytes that are not written, and drops the
connection. -/
theorem response_read_back_head : ¬∀ key conn R, conn.input = responseBytes sampleResponse .head true ++ R →
      ∃ r conn0 conn', receive key conn = (.ok r, conn0) ∧ r.finish = (.ok (sampleResponse.entity .head), some conn') ∧
        conn'.input = R := by
  intro hback
  obtain ⟨r, conn0, conn', hr, hbytes, -⟩ := hback ([], 0, false)
    ⟨responseBytes sampleResponse .head true, .eof, [], false, [], none, none⟩ [] (append_nil _).symm
  have hlost : ((receive ([], 0, false) ⟨responseBytes sampleResponse .head true, .eof, [], false, [], none, none⟩).1.toOption.map
      (fun r => r.finish.2)) = some none := by decide +kernel
  rw [hr] at hlost
  simp [Except.toOption, hbytes] at hlost

end Ferroly.Http
