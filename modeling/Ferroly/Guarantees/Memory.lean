import Ferroly.Lemmas.HttpMemory
import Ferroly.Lemmas.HttpRequest

/-!
# The memory of a request

The head and the body of a request are limited, but the lines of a chunked body, its sizes and trailers, are read without a limit.
A server holds a bounded number of bytes for every request whose lines are no longer than those of a head may be, and there is no
bound for all requests.
-/

namespace Ferroly.Http

open List Ferroly.Task

/-- On every connection whose requests all have short lines in their bodies, the server holds at most so many bytes as its limit for
bodies gives. -/
theorem memory_bounded (config : ServerConfig) (handler : Nat → Request → HttpResponse) (drained : Nat → Bool) (conn : Conn)
    (hmax : config.maxBodyBytes < 2 ^ 64 - 1)
    (hshort : ∀ x ∈ (serveConn config handler drained conn).2.2, x.hasShortLines config = true) :
    peakBytes config handler drained conn ≤ memoryBound config.maxBodyBytes := by
  have hshort' : ∀ x ∈ (meteredServe config handler drained conn).2.notes, x.hasShortLines config = true := by
    intro x hx
    refine hshort x ?_
    rw [meteredServe_eq]
    exact mem_reverse.mpr hx
  exact Nat.add_le_add_right (loop_within hmax (Nat.zero_le _) hshort') BUFFER_BYTES

/-- A server with limits, and a connection with a chunked body that has an extension and a trailer. -/
def limitedConfig : ServerConfig := ⟨16, 2⟩

def chunkedConn : Conn :=
  ⟨utf8 "POST / HTTP/1.1\r\nTransfer-Encoding: chunked\r\n\r\n3;a=b\r\nabc\r\n0\r\nT: t\r\n\r\n".toList, .eof, [], false, [], none, none⟩

theorem memory_bounded_chunked :
    (serveConn limitedConfig (fun _ _ => HttpResponse.new .OK) (fun _ => false) chunkedConn).2.2.length = 1 ∧
      peakBytes limitedConfig (fun _ _ => HttpResponse.new .OK) (fun _ => false) chunkedConn ≤ memoryBound 16 := by
  obtain ⟨hone, hshort⟩ : (serveConn limitedConfig (fun _ _ => HttpResponse.new .OK) (fun _ => false) chunkedConn).2.2.length = 1 ∧
        ∀ x ∈ (serveConn limitedConfig (fun _ _ => HttpResponse.new .OK) (fun _ => false) chunkedConn).2.2,
          x.hasShortLines limitedConfig = true := by decide +kernel
  exact ⟨hone, memory_bounded limitedConfig _ _ chunkedConn (by decide) hshort⟩

/-! ## A size line without an end -/

/-- A head that announces a chunked body, as its method, target and lines. -/
def endlessLines : List Str := ["Transfer-Encoding: chunked\r".toList]

def endlessHead : RequestHead := ⟨.post, "/".toList, linesHeaders HeaderMap.new endlessLines⟩

/-- The head, and a size line of `n` zeros whose end never comes. -/
def endlessConn (n : Nat) : Conn :=
  ⟨utf8 ("POST".toList ++ " ".toList ++ "/".toList ++ " HTTP/1.1\r\n".toList) ++
    (utf8 (endlessLines.flatMap (fun l => l ++ "\n".toList)) ++ (utf8 "\r\n".toList ++ replicate n (byte '0'))),
    .stall, [], false, [], none, none⟩

theorem readRequestHead_endless (n : Nat) :
    readRequestHead (endlessConn n) = (.ok endlessHead, ⟨replicate n (byte '0'), .stall, [], false, [], none, none⟩) := by
  have hlines : ∀ l ∈ endlessLines, '\n' ∉ l := by decide
  refine (readRequestHead_words rfl rfl rfl).mpr ⟨by decide, linesHeaders HeaderMap.new endlessLines, ?_, rfl⟩
  exact ((readHeadersLoop_lines hlines rfl).mpr ⟨by decide, rfl, rfl⟩).1

/-- All of a size line without an end is held. -/
theorem chunkedBody_stalled {limit : Nat} {m : MeteredConn} (hin : byte '\n' ∉ m.conn.input) (hstall : m.conn.ending = .stall) :
    meteredChunkedBody limit m = (.error .diverge,
      ⟨{ m.conn with input := [] }, m.held + m.conn.input.length, max m.most (m.held + m.conn.input.length)⟩) := by
  have hread : Conn.readLine m.conn = (.error .diverge, { m.conn with input := [] }) := by
    refine bind_of_error ?_
    simp only [Conn.readUntilNewline, Conn.splitLine_of_not_mem hin, Conn.atEnd, hstall]
  have hheld : hold (Conn.readLine.mapErr HttpError.io) m = (.error .diverge,
      ⟨{ m.conn with input := [] }, m.held + m.conn.input.length, max m.most (m.held + m.conn.input.length)⟩) := by
    simp only [hold, mapErr, hread, length_nil, Nat.sub_zero]
  rw [meteredChunkedBody, bind_of_ok (get_apply _), meteredChunkedLoop, bind_of_ok (get_apply _), bind_of_error hheld]

/-- The whole of the line is held when the body is read. -/
theorem handleOne_endless (handler : Nat → Request → HttpResponse) {m : MeteredServer} {n : Nat}
    (hin : m.reader.conn.input = replicate n (byte '0')) (hstall : m.reader.conn.ending = .stall) :
    ∃ e m', meteredHandleOne ⟨0, 1⟩ handler endlessHead 1 m = (.error e, m') ∧ n ≤ m'.reader.most := by
  have hnot : byte '\n' ∉ m.reader.conn.input := by
    rw [hin]
    exact fun h => absurd (eq_of_mem_replicate h) (by decide)
  have hbody : ∀ notes, onReader (meteredBody ⟨0, 1⟩ true none) ⟨m.reader, notes⟩ = (.error (.error .timeout),
      ⟨⟨{ m.reader.conn with input := [] }, m.reader.held + m.reader.conn.input.length,
        max m.reader.most (m.reader.held + m.reader.conn.input.length)⟩, notes⟩) := by
    intro notes
    simp only [onReader, zoom, meteredBody, timeout, if_true, chunkedBody_stalled hnot hstall]
  have hone : meteredHandleOne ⟨0, 1⟩ handler endlessHead 1 = (do
      unmetered (note (fun x => { x with framing := some .chunked }))
      unmetered (sendContinue endlessHead.headers true)
      let read ← onReader (meteredBody ⟨0, 1⟩ true none)
      unmetered (respond ⟨0, 1⟩ handler endlessHead 1 read)) := rfl
  have hnote : unmetered (note (fun x => { x with framing := some .chunked })) m =
      (.ok (), ⟨m.reader, m.notes.modifyHead (fun x => { x with framing := some .chunked })⟩) := rfl
  have hcontinue : ∀ m : MeteredServer, unmetered (sendContinue endlessHead.headers true) m = (.ok (), m) := fun _ => rfl
  rw [hone, bind_of_ok hnote, bind_of_ok (hcontinue _), bind_of_error (hbody _)]
  refine ⟨_, _, rfl, ?_⟩
  simp only [hin, length_replicate]
  omega

/-- No bound by the limit for bodies alone holds for every connection. -/
theorem memory_unbounded : ¬∃ bound : Nat → Nat, ∀ config handler drained conn,
      peakBytes config handler drained conn ≤ bound config.maxBodyBytes := by
  rintro ⟨bound, hbound⟩
  have hle := hbound ⟨0, 1⟩ (fun _ _ => HttpResponse.new .OK) (fun _ => false) (endlessConn (bound 0))
  have hdrop : onReader (keepHeld 0) ⟨⟨endlessConn (bound 0), 0, 0⟩, []⟩ =
      ((.ok (), ⟨⟨endlessConn (bound 0), 0, 0⟩, []⟩) : Except (Fault HttpError) Unit × MeteredServer) := rfl
  have hhead : ∃ held most, ((onReader (hold (readRequestHead.timeout .timeout))).attempt : Task MeteredServer HttpError _)
      ⟨⟨endlessConn (bound 0), 0, 0⟩, []⟩ = (.ok (.ok endlessHead),
        ⟨⟨⟨replicate (bound 0) (byte '0'), .stall, [], false, [], none, none⟩, held, most⟩, []⟩) := by
    simp only [onReader, zoom, attempt, hold, timeout, readRequestHead_endless]
    exact ⟨_, _, rfl⟩
  obtain ⟨held, most, hhead⟩ := hhead
  obtain ⟨e, m', hone, hmost⟩ := handleOne_endless (fun _ _ => HttpResponse.new .OK) (n := bound 0)
    (m := ⟨⟨⟨replicate (bound 0) (byte '0'), .stall, [], false, [], none, none⟩, held, most⟩,
      [⟨(endlessConn (bound 0)).input, endlessHead, replicate (bound 0) (byte '0'), none, none, none⟩]⟩) rfl rfl
  have hrun : meteredServe ⟨0, 1⟩ (fun _ _ => HttpResponse.new .OK) (fun _ => false) (endlessConn (bound 0)) = (.error e, m') := by
    rw [meteredServe, meteredLoop, if_neg Bool.false_ne_true, bind_of_ok hdrop, bind_of_ok (get_apply _), bind_of_ok hhead]
    exact (bind_of_ok rfl).trans (bind_of_error hone)
  rw [peakBytes, hrun] at hle
  have hroom : 0 < BUFFER_BYTES := by decide
  simp only at hle
  omega

end Ferroly.Http
