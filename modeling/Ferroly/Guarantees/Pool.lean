import Ferroly.Lemmas.ClientRun

/-!
# The connections of the pool

A client whose servers answer clearly puts a connection into its pool only when the final response has been read to its end and
nothing after it. An interim response is taken for a final one: its connection goes back to the pool with the final response unread.
-/

namespace Ferroly.Http

open List

/-- In every run of a client whose actions are all clear, every connection put into the pool is drained. -/
theorem pool_puts_drained (as : List Action) (has : ClientRun.new.AllClear as) :
    ∀ e ∈ ClientRun.new.puts as, Drained e.flight.method e.flight.start e.put.2 :=
  ClientRun.puts_drained ClientRun.good_new has

/-! ## Two runs -/

/-- A `GET` of `http://h/`. -/
def sampleGet : Request := ⟨.get, ⟨"http".toList, "h".toList, 80, "/".toList, none⟩, HeaderMap.new, []⟩

/-- A connection that takes everything, with some input that is not closed. -/
def answerConn (input : Str) : Conn := ⟨utf8 input, .stall, [], false, [], none, none⟩

/-- A request, and two calls for a chunk of its response. -/
def sampleRun (conn : Conn) : List Action := [.send false sampleGet (.ok conn), .chunk 0, .chunk 0]

/-- The answer of a stream that stays open is clear if the head that is read from it has the right framing. -/
theorem clearAnswer_of_read {method : Method} {conn : Conn} (hopen : conn.ending ≠ .eof)
    (hread : ((readResponseHead conn).1.toOption.map (fun r => rightFraming method r.1 r.2)) = some true) :
    ClearAnswer method conn := by
  refine ⟨fun hend => absurd hend hopen, fun head rest status h hin hhead => ?_⟩
  rcases hr : readResponseHead conn with ⟨e | ⟨status', h'⟩, after⟩
  · rw [hr] at hread
    cases hread
  · obtain ⟨rfl, rfl, -⟩ := readResponseHead_head hhead hin hr
    rw [hr] at hread
    exact Option.some.inj hread

/-- Of a response: whether a call for it has failed, and whether its body is in chunked coding. -/
def ClientRun.troubles (s : ClientRun) (i : Nat) : Option (Bool × Bool) :=
  (s.flights[i]?).map (fun x => (x.broken, x.body.framing == .chunked))

/-- A chunk may be asked for where no call has failed and the body is not in chunked coding. -/
theorem clear_chunk {s : ClientRun} {i : Nat} (h : s.troubles i = some (false, false)) : s.Clear (.chunk i) := by
  intro x hx
  rw [ClientRun.troubles, hx] at h
  obtain ⟨hbroken, hframing⟩ := Prod.mk.inj (Option.some.inj h)
  refine ⟨hbroken, fun conn _ hchunked => ?_⟩
  rw [hchunked] at hframing
  cases hframing

/-- A complete response with two bytes of body. -/
def completeConn : Conn := answerConn "HTTP/1.1 200 OK\r\nContent-Length: 2\r\n\r\nhi".toList

/-- A client that has this response. -/
def answeredRun : ClientRun := (ClientRun.new.step (.send false sampleGet (.ok completeConn))).1

theorem pool_puts_drained_complete : (ClientRun.new.puts (sampleRun completeConn)).length = 1 ∧
      ∀ e ∈ ClientRun.new.puts (sampleRun completeConn), Drained e.flight.method e.flight.start e.put.2 := by
  obtain ⟨hputs, hconn, hread, hfirst, hsecond⟩ : (ClientRun.new.puts (sampleRun completeConn)).length = 1 ∧
      answering (send false Pool.new sampleGet (.ok completeConn)).2.2 = some completeConn ∧
      (readResponseHead completeConn).1.toOption.map (fun r => rightFraming .get r.1 r.2) = some true ∧
      answeredRun.troubles 0 = some (false, false) ∧ (answeredRun.step (.chunk 0)).1.troubles 0 = some (false, false) := by
    decide +kernel
  refine ⟨hputs, pool_puts_drained _ ⟨?_, clear_chunk hfirst, clear_chunk hsecond, trivial⟩⟩
  intro resp pool attempts conn hsend hanswering
  have heq : send false Pool.new sampleGet (.ok completeConn) = (.ok resp, pool, attempts) := hsend
  rw [heq, hanswering] at hconn
  cases hconn
  exact clearAnswer_of_read (by decide) hread

/-- An interim response. -/
def hints : Str := "HTTP/1.1 103 Early Hints\r\n\r\n".toList

/-- The same answer after an interim response. -/
def interimConn : Conn := answerConn (hints ++ "HTTP/1.1 200 OK\r\nContent-Length: 2\r\n\r\nhi".toList)

/-- One interim response and nothing more is no final response. -/
theorem not_finalResponse_of_interim {method : Method} {conn after : Conn} {status : StatusCode} {h : HeaderMap}
    (hread : readResponseHead conn = (.ok (status, h), after)) (hinterim : status.isInterim) (hafter : after.input = []) :
    ¬FinalResponse method conn.input := by
  intro hfinal
  generalize hin : conn.input = input at hfinal
  rcases hfinal with ⟨hhead, -, hrest⟩ | ⟨hhead, hnot, -⟩
  · obtain ⟨-, -, rfl⟩ := readResponseHead_head hhead hin hread
    subst hafter
    generalize hnil : ([] : Bytes) = rest at hrest
    have hempty : ∀ {head rest : Bytes} {status : StatusCode} {h : HeaderMap}, ResponseHead head status h → [] ≠ head ++ rest := by
      intro head rest status h hhead hnil
      obtain ⟨hline, -, -⟩ := hhead
      rw [append_assoc] at hnil
      exact Conn.ne_nil_of_isLine hline (append_eq_nil_iff.mp hnil.symm).1
    rcases hrest with ⟨hhead, -, -⟩ | ⟨hhead, -, -⟩ <;> exact hempty hhead hnil
  · obtain ⟨rfl, -, -⟩ := readResponseHead_head hhead hin hread
    exact hnot hinterim

/-- The interim response is read as a response without a body, and the connection is put into the pool with the final response
unread. -/
theorem pool_put_interim : ¬∀ e ∈ ClientRun.new.puts (sampleRun interimConn), Drained e.flight.method e.flight.start e.put.2 := by
  intro hdrained
  obtain ⟨hputs, happend, hcode, hafter⟩ :
      (ClientRun.new.puts (sampleRun interimConn)).map (fun e => (e.flight.start, e.put.2.input)) =
          [(interimConn.input, completeConn.input)] ∧
        interimConn.input = (answerConn hints).input ++ completeConn.input ∧
        (readResponseHead (answerConn hints)).1.toOption.map (fun r => r.1) = some ⟨103⟩ ∧
        (readResponseHead (answerConn hints)).2.input = [] := by decide +kernel
  obtain ⟨e, he, hpair⟩ := mem_map.mp (hputs ▸ mem_singleton_self _)
  obtain ⟨hstart, hinput⟩ := Prod.mk.inj hpair
  obtain ⟨used, hused, hfinal⟩ := (hdrained e he).1
  rw [hstart, hinput] at hused
  have hhints : used = (answerConn hints).input := append_cancel_right (hused.symm.trans happend)
  rcases hread : readResponseHead (answerConn hints) with ⟨e | ⟨status, h⟩, after⟩
  · rw [hread] at hcode
    cases hcode
  · rw [hread] at hcode hafter
    obtain rfl : status = ⟨103⟩ := Option.some.inj hcode
    rw [hhints] at hfinal
    exact not_finalResponse_of_interim hread ⟨by decide, by decide⟩ hafter hfinal

end Ferroly.Http
