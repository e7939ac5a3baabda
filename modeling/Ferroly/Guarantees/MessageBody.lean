import Ferroly.Lemmas.HttpChunks
import Ferroly.Lemmas.HttpResponse
import Ferroly.Lemmas.HttpServer

/-!
# Bodies cut short, and bodies in chunks

The client takes the end of the stream for the end of a body of a given length, and both decoders of chunked bodies take it for the end
of the trailers. What the server writes in chunks is read back by both. They take more than the standard's chunked coding: the two bytes
after a chunk are not looked at.
-/

namespace Ferroly.Http

open List

/-! ## Truncated bodies -/

section Truncated

variable (key : PoolKey) (status : StatusCode) (h : HeaderMap) (conn : Conn)

/-- A response is whole or an error: a body of a given length has so many bytes, and a chunked one its last chunk and the end of its
trailers. -/
def WholeOrError : Prop :=
  (∀ n, responseFraming status h = .length n →
    (conn.input.length < n → conn.ending ≠ .stall → ∃ e, (openResponse key status h conn).bytes.1 = .error (.error e)) ∧
      ∀ o, (openResponse key status h conn).bytes.1 = .ok o → n ≤ conn.input.length ∧ o = conn.input.take n) ∧
  (responseFraming status h = .chunked → ∀ o, (openResponse key status h conn).bytes.1 = .ok o →
    ∃ used, used <+: conn.input ∧ ChunkedCoding used)

/-- A response is whole or an error exactly if its stream does not end early: before the given length, or, where it can be cut into
chunks and trailers, before the end of the line that ends them. -/
theorem wholeOrError_iff : WholeOrError key status h conn ↔
      (∀ n, responseFraming status h = .length n → conn.ending = .eof → n ≤ conn.input.length) ∧
      (responseFraming status h = .chunked → ∀ cut rest, CutsChunks conn.ending MAX_CHUNK_SIZE cut conn.input rest →
        Conn.IsLine cut.final) := by
  have hshort : ∀ n, responseFraming status h = .length n → conn.input.length < n →
      (openResponse key status h conn).bytes.1 = _ :=
    fun n hf hlt => (finish_short (b := (openResponse key status h conn).body) rfl hf hlt (Nat.lt_succ_self _) []).1
  constructor
  · rintro ⟨hlength, hchunked⟩
    refine ⟨fun n hf heof => ?_, fun hf cut rest hcuts => ?_⟩
    · by_contra hlt
      obtain ⟨e, he⟩ := (hlength n hf).1 (by omega) (by rw [heof]; exact Ending.noConfusion)
      rw [hshort n hf (by omega), heof] at he
      cases he
    · obtain ⟨d, hd, -⟩ := finish_of_cuts hcuts (b := (openResponse key status h conn).body) rfl hf rfl rfl (Nat.lt_succ_self _) []
      obtain ⟨used, ⟨more, hused⟩, hcoding⟩ := hchunked hf cut.data (congrArg Prod.fst hd)
      exact hcuts.isLine_final hcoding hused.symm
  · rintro ⟨hlength, hchunked⟩
    refine ⟨fun n hf => ⟨fun hlt hstall => ?_, fun o ho => ?_⟩, fun hf o ho => ?_⟩
    · rw [hshort n hf hlt]
      rcases hend : conn.ending with _ | _ | _
      · exact absurd (hlength n hf hend) (by omega)
      · exact ⟨_, rfl⟩
      · exact absurd hend hstall
    · by_cases hlt : conn.input.length < n
      · rw [hshort n hf hlt] at ho
        rcases hend : conn.ending with _ | _ | _
        · exact absurd (hlength n hf hend) (by omega)
        · rw [hend] at ho
          cases ho
        · rw [hend] at ho
          cases ho
      · have hn : (conn.input.take n).length = n := length_take_of_le (by omega)
        obtain ⟨d, hd, -⟩ := bytes_length (b := (openResponse key status h conn).body) rfl hf
          (take_append_drop n conn.input).symm hn (Nat.lt_succ_of_le (Nat.le_of_not_lt hlt)) []
        exact ⟨by omega, Except.ok.inj (ho.symm.trans (congrArg Prod.fst hd))⟩
    · obtain ⟨cut, d, -, -, hcuts⟩ := finish_cuts (b := (openResponse key status h conn).body) rfl hf (Prod.ext ho rfl)
      obtain ⟨used, hused, -, ⟨-, hcoding⟩ | ⟨hcut, -⟩⟩ := hcuts.coding
      · exact ⟨used, ⟨d.input, hused.symm⟩, hcoding⟩
      · exact absurd (hchunked hf cut d.input hcuts) hcut

end Truncated

/-- A response with a length of five bytes. -/
def fiveBytes : HeaderMap := HeaderMap.new.append "Content-Length".toList "5".toList

/-- Three of five bytes arrive before the stream ends, and `bytes` returns them. -/
theorem fiveBytes_cut : (openResponse ([], 0, false) .OK fiveBytes ⟨utf8 "abc".toList, .eof, [], false, [], none, none⟩).bytes.1 =
        .ok (utf8 "abc".toList) ∧
      ¬WholeOrError ([], 0, false) .OK fiveBytes ⟨utf8 "abc".toList, .eof, [], false, [], none, none⟩ := by
  have hok : (openResponse ([], 0, false) .OK fiveBytes ⟨utf8 "abc".toList, .eof, [], false, [], none, none⟩).bytes.1 =
      .ok (utf8 "abc".toList) := by decide
  refine ⟨hok, fun hwhole => absurd ((hwhole.1 5 (by decide)).2 _ hok).1 (by decide)⟩

/-! ## Chunked coding, written and read back -/

/-- What the server writes in chunks is read back by the client and, within the limit, by the server, whatever comes after it. Over the
limit it is found too large. -/
theorem chunks_read_back (resp : HttpResponse) (method : Method) {chunks : List Bytes} (hstream : resp.stream = some chunks)
    (hbody : bodyless method resp.status = false) (hmax : ∀ chunk ∈ chunks, chunk.length ≤ MAX_CHUNK_SIZE) (R : Bytes) (c : Conn)
    (hin : c.input = responseBody resp method ++ R) :
    (∀ b : Body, b.reader = some c → b.framing = .chunked → ∃ d, b.finish b.fuel [] = (.ok chunks.flatten, some d) ∧ d.input = R) ∧
    ∀ limit, (chunks.flatten.length ≤ limit → ∃ d, readChunkedBody limit c = (.ok (some chunks.flatten), d) ∧ d.input = R) ∧
      (limit < chunks.flatten.length → chunks.flatten.length < 2 ^ 64 → ∃ d, readChunkedBody limit c = (.ok none, d)) := by
  have hwritten : responseBody resp method = chunks.flatMap chunkBytes ++ utf8 "0\r\n\r\n".toList := by
    rw [responseBody, hbody, hstream]
    rfl
  rw [hwritten, append_assoc] at hin
  obtain ⟨cut, hdata, hcuts⟩ := cuts_chunkBytes (by decide) hmax c.ending R
  rw [← hin] at hcuts
  rw [← hdata]
  refine ⟨fun b hr hf => ?_, fun limit => ?_⟩
  · exact finish_of_cuts hcuts hr hf rfl rfl (by rw [Body.fuel, hr]; exact Nat.lt_succ_self _) []
  · obtain ⟨d, hfits, hlarge⟩ := readChunkedLoop_of_cuts limit [] hcuts rfl rfl (Nat.lt_succ_self _) (Nat.zero_le _)
    rw [nil_append] at hfits hlarge
    refine ⟨fun hle => ⟨d, hfits ?_⟩, fun hlt hsize => ⟨d, hlarge ?_⟩⟩
    · exact Nat.le_trans (Nat.min_le_left _ _) hle
    · omega

/-- A stream of three chunks, one of them empty. -/
def threeChunks : HttpResponse := { HttpResponse.new .OK with stream := some [utf8 "ab".toList, [], utf8 "0\r\n".toList] }

theorem chunks_read_back_three :
    ∃ d, readChunkedBody 5 ⟨responseBody threeChunks .get ++ utf8 "GET".toList, .eof, [], false, [], none, none⟩ =
      (.ok (some [utf8 "ab".toList, [], utf8 "0\r\n".toList].flatten), d) ∧ d.input = utf8 "GET".toList := by
  have hmax : ∀ chunk ∈ [utf8 "ab".toList, [], utf8 "0\r\n".toList], chunk.length ≤ MAX_CHUNK_SIZE := by decide
  have hread := chunks_read_back threeChunks .get rfl (by decide) hmax (utf8 "GET".toList)
    ⟨responseBody threeChunks .get ++ utf8 "GET".toList, .eof, [], false, [], none, none⟩ rfl
  exact (hread.2 5).1 (by decide)

/-! ## The chunked coding of the standard -/

/-- The bodies that the server takes are in the chunked coding of the standard exactly if the pieces into which the stream can be cut,
within the limit, are: bare digits in its size lines, CRLF after each chunk, fields in the trailer lines and an empty line at the
end. -/
theorem readChunkedBody_strict_iff (limit : Nat) (c : Conn) :
    (∀ body d, readChunkedBody limit c = (.ok (some body), d) → ∃ used, c.input = used ++ d.input ∧ ChunkedBody body used) ↔
      ∀ cut rest, CutsChunks c.ending (2 ^ 64) cut c.input rest → fits limit cut.data.length → cut.Strict := by
  constructor
  · intro hstrict cut rest hcuts hfits
    obtain ⟨d, hread, -⟩ := readChunkedLoop_of_cuts limit [] hcuts rfl rfl (Nat.lt_succ_self _) (Nat.zero_le _)
    obtain ⟨hok, rfl⟩ := hread hfits
    obtain ⟨used, hused, hbody⟩ := hstrict cut.data d hok
    exact (hcuts.strict hbody hused).1
  · intro hall body d hread
    have hloop : readChunkedLoop limit (c.input.length + 1) [] c = (.ok (some body), d) := hread
    obtain ⟨cut, hbody, hfits, hcuts⟩ := readChunkedLoop_cuts (Nat.zero_le _) hloop
    subst hbody
    exact hcuts.body (hall cut d.input hcuts hfits)

/-- A chunk with two other bytes where its line end belongs. -/
def looseChunk : Conn := ⟨utf8 "1\r\naXX0\r\n\r\n".toList, .eof, [], false, [], none, none⟩

theorem looseChunk_taken : ∃ d, readChunkedBody 10 looseChunk = (.ok (some (utf8 "a".toList)), d) ∧
      ¬∃ used, looseChunk.input = used ++ d.input ∧ ChunkedBody (utf8 "a".toList) used := by
  refine ⟨{ looseChunk with input := [] }, by decide +kernel, ?_⟩
  rintro ⟨used, hused, hbody⟩
  -- the one way to cut the stream, in which the bytes after the chunk are not CRLF
  have htrailers : CutsTrailers .eof [] (utf8 "\r\n".toList) (utf8 "\r\n".toList ++ []) [] := .blank (.inl rfl) fromUtf8_utf8 (by decide)
  have hlast : CutsChunks .eof (2 ^ 64) _ (utf8 "0\r\n".toList ++ (utf8 "\r\n".toList ++ [])) [] :=
    .last (.inl rfl) fromUtf8_utf8 (chunkSize_iff.mp (by decide)) htrailers
  have hcuts : CutsChunks .eof (2 ^ 64) _ (utf8 "1\r\n".toList ++ (utf8 "a".toList ++ (utf8 "XX".toList ++ _))) [] :=
    .chunk (.inl rfl) fromUtf8_utf8 (chunkSize_iff.mp (by decide)) (by decide) (by decide) rfl hlast
  exact absurd ((hcuts.strict hbody hused).1.gaps _ mem_cons_self) (by decide)

end Ferroly.Http
