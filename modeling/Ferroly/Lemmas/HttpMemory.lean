import Ferroly.Http.Memory
import Ferroly.Lemmas.HttpServer

/-!
# What the meter shows

The server with a meter is the server, and the meter stays within what the limits on heads and bodies and the lengths of the lines
in chunked bodies allow.
-/

namespace Ferroly.Http

open List Ferroly.Task Conn

variable {c : Conn} {m : MeteredConn} {B cap fuel k n : Nat} {config : ServerConfig}

/-! ## The meter changes nothing -/

theorem refines_hold {ε α : Type} (p : Task Conn ε α) : Task.Refines MeteredConn.conn (hold p) p := fun _ => ⟨rfl, rfl⟩

theorem refines_unmetered {α : Type} (p : Task ServerConn HttpError α) : Task.Refines MeteredServer.plain (unmetered p) p :=
  fun _ => ⟨rfl, rfl⟩

theorem refines_onReader {α : Type} {q : Task MeteredConn HttpError α} {p : Task Conn HttpError α}
    (h : Task.Refines MeteredConn.conn q p) : Task.Refines MeteredServer.plain (onReader q) (onConn p) := by
  intro m
  obtain ⟨h1, h2⟩ := h m.reader
  exact ⟨h1, congrArg (fun c => (⟨c, m.notes⟩ : ServerConn)) h2⟩

theorem refines_trailers : Task.Refines MeteredConn.conn (meteredTrailers fuel) (skipTrailers fuel) := by
  induction fuel with
  | zero => exact .diverge
  | succ fuel ih =>
    refine .get_bind (fun m => .bind (refines_hold _) (fun ⟨line, n⟩ => .ite (.pure ()) ?_))
    exact .modify_bind (fun _ => rfl) ih

theorem refines_chunkedLoop (limit fuel : Nat) (body : Bytes) :
    Task.Refines MeteredConn.conn (meteredChunkedLoop limit fuel body) (readChunkedLoop limit fuel body) := by
  induction fuel generalizing body with
  | zero => exact .diverge
  | succ fuel ih =>
    refine .get_bind (fun m => .bind (refines_hold _) (fun ⟨line, n⟩ => .ite (.fail _) ?_))
    rcases chunkSize line with e | size
    · exact .fail e
    · refine .ite (.get_get (fun m' => .bind refines_trailers (fun _ => .pure _))) (.ite (.pure _) ?_)
      refine .bind (refines_hold _) (fun buf => .bind (refines_hold _) (fun _ => ?_))
      exact .modify_bind (fun _ => rfl) (ih _)

theorem refines_body (chunked : Bool) (contentLength : Option Nat) :
    Task.Refines MeteredConn.conn (meteredBody config chunked contentLength) (readBody config chunked contentLength) := by
  cases chunked with
  | true => exact .timeout (.get_get (fun m => refines_chunkedLoop _ _ _))
  | false => exact refines_hold _

theorem refines_handleOne (config : ServerConfig) (handler : Nat → Request → HttpResponse) (head : RequestHead) (served : Nat) :
    Task.Refines MeteredServer.plain (meteredHandleOne config handler head served) (handleOne config handler head served) := by
  unfold meteredHandleOne
  rcases hlen : head.headers.contentLengthChecked with e | contentLength
  · exact refines_unmetered _
  · simp only
    split
    · exact refines_unmetered _
    · next hclash =>
      rw [handleOne, hlen]
      simp only [if_neg hclash]
      refine .bind (refines_unmetered _) (fun _ => .bind (refines_unmetered _) (fun _ => ?_))
      exact .bind (refines_onReader (refines_body _ _)) (fun _ => refines_unmetered _)

theorem refines_loop (config : ServerConfig) (handler : Nat → Request → HttpResponse) (drained : Nat → Bool) (fuel served : Nat) :
    Task.Refines MeteredServer.plain (meteredLoop config handler drained fuel served) (serveLoop config handler drained fuel served) := by
  induction fuel generalizing served with
  | zero => exact .diverge
  | succ fuel ih =>
    refine .ite (.pure ()) (.modify_bind (fun _ => rfl) (.get_get (fun s => ?_)))
    refine .bind (.attempt (refines_onReader (refines_hold _))) (fun r => ?_)
    rcases r with e | head
    · exact .pure ()
    · exact .bind (refines_unmetered _) (fun _ => .bind (refines_handleOne _ _ _ _) (fun _ => .ite (ih _) (.pure ())))

/-- The server with a meter serves a connection as the server does. -/
theorem meteredServe_eq (config : ServerConfig) (handler : Nat → Request → HttpResponse) (drained : Nat → Bool) (conn : Conn) :
    serveConn config handler drained conn =
      ((meteredServe config handler drained conn).1, (meteredServe config handler drained conn).2.reader.conn,
        (meteredServe config handler drained conn).2.notes.reverse) := by
  have hrun := (refines_loop config handler drained (config.maxKeepAliveRequests + 1) 0).run_eq ⟨⟨conn, 0, 0⟩, []⟩
  unfold serveConn
  rw [show (⟨conn, []⟩ : ServerConn) = MeteredServer.plain ⟨⟨conn, 0, 0⟩, []⟩ from rfl, hrun]
  rfl

/-! ## What reads take -/

/-- A read takes at most `k` bytes off the connection, whatever its outcome. -/
def Takes {ε α : Type} (k : Nat) (p : Task Conn ε α) (c : Conn) : Prop := c.input.length ≤ (p c).2.input.length + k

theorem hold_held_le {ε α : Type} {p : Task Conn ε α} (h : Takes k p m.conn) : (hold p m).2.held ≤ m.held + k := by
  have h' : m.conn.input.length ≤ (p m.conn).2.input.length + k := h
  change m.held + (m.conn.input.length - (p m.conn).2.input.length) ≤ _
  omega

theorem hold_most_le {ε α : Type} {p : Task Conn ε α} (h : Takes k p m.conn) (hmost : m.most ≤ B) (hB : m.held + k ≤ B) :
    (hold p m).2.most ≤ B :=
  max_le hmost ((hold_held_le h).trans hB)

theorem takes_mapErr {ε δ α : Type} {f : ε → δ} {p : Task Conn ε α} (h : Takes k p c) : Takes k (p.mapErr f) c := by
  unfold Takes
  rw [mapErr_snd]
  exact h

theorem takes_timeout {ε α : Type} {e : ε} {p : Task Conn ε α} (h : Takes k p c) : Takes k (p.timeout e) c := by
  unfold Takes
  rw [timeout_snd]
  exact h

theorem atEnd_input {α : Type} (r : Except (Fault IoError) α) : (atEnd r c).2.input = c.input := by
  unfold atEnd
  split <;> rfl

theorem takes_readExact (n : Nat) (c : Conn) : Takes n (readExact n) c := by
  unfold Takes readExact
  split
  · simp only [length_drop]
    omega
  · rw [atEnd_input]
    omega

/-- Whatever its outcome, a read of a line leaves what is after the line. -/
theorem readLine_input : (readLine c).2.input = (splitLine c.input).2.1 := by
  have huntil : (readUntilNewline c).2.input = (splitLine c.input).2.1 := by
    unfold readUntilNewline
    rcases splitLine_cases with ⟨line, rest, -, -, hs⟩ | hs
    · rw [hs]
    · rw [hs]
      exact atEnd_input _
  rw [← huntil]
  refine bind_post (P := fun out => input out.2 = _) (fun e d h => by rw [h]) (fun line d h => ?_)
  rw [h]
  rcases fromUtf8 line with _ | s <;> rfl

/-- It takes the line. -/
theorem takes_readLine (h : (splitLine c.input).1.length ≤ cap) : Takes cap readLine c := by
  unfold Takes
  rw [readLine_input]
  rcases splitLine_cases with ⟨line, rest, hc, -, hs⟩ | hs
  · rw [hs] at h ⊢
    rw [hc, length_append]
    simp only at h ⊢
    omega
  · rw [hs] at h ⊢
    simp only at h ⊢
    omega

/-- A line that is read is the first line of the input. -/
theorem readLine_eq_splitLine {d : Conn} {s : Str} (h : readLine c = (.ok (s, n), d)) :
    fromUtf8 (splitLine c.input).1 = some s ∧ n = (splitLine c.input).1.length := by
  obtain ⟨line, hread, hs, rfl⟩ := readLine_eq_ok.mp h
  have hline : (splitLine c.input).1 = line := by
    rcases readUntilNewline_eq_ok.mp hread with ⟨hl, hin, -⟩ | ⟨hl, hin, -⟩
    · rw [hin, splitLine_append hl]
    · rw [hin, hl]
  rw [hline]
  exact ⟨hs, rfl⟩

/-- A step of a metered task that succeeds is a step of the task. -/
theorem hold_eq_ok {ε α : Type} {p : Task Conn ε α} {d : MeteredConn} {a : α} (h : hold p m = (.ok a, d)) :
    p m.conn = (.ok a, d.conn) := by
  obtain ⟨h1, h2⟩ := Prod.mk.inj h
  exact Prod.ext h1 (congrArg MeteredConn.conn h2)

/-- A line that is read into a buffer: its text, what is left of the input, and what the meter shows if it is short. -/
theorem hold_readLine (hcap : (splitLine m.conn.input).1.length ≤ cap) (hmost : m.most ≤ B) (hB : m.held + cap ≤ B)
    {out : Except (Fault HttpError) (Str × Nat) × MeteredConn} (hout : hold (readLine.mapErr HttpError.io) m = out) :
    out.2.most ≤ B ∧ out.2.held ≤ m.held + cap ∧ out.2.conn.input = (splitLine m.conn.input).2.1 ∧
      ∀ r, out.1 = .ok r → fromUtf8 (splitLine m.conn.input).1 = some r.1 := by
  have htakes := takes_mapErr (f := HttpError.io) (takes_readLine hcap)
  subst hout
  refine ⟨hold_most_le htakes hmost hB, hold_held_le htakes, ?_, fun r hr => ?_⟩
  · rw [← readLine_input]
    exact congrArg input (mapErr_snd _)
  · exact (readLine_eq_splitLine (mapErr_eq_ok.mp (hold_eq_ok (Prod.ext hr rfl)))).1

/-- Exactly so many bytes read into a buffer. -/
theorem hold_readExact (hmost : m.most ≤ B) (hB : m.held + n ≤ B) {out : Except (Fault HttpError) Bytes × MeteredConn}
    (hout : hold ((readExact n).mapErr HttpError.io) m = out) :
    out.2.most ≤ B ∧ out.2.held ≤ m.held + n ∧ ∀ b, out.1 = .ok b → b.length = n ∧ out.2.conn.input = m.conn.input.drop n := by
  have htakes := takes_mapErr (f := HttpError.io) (takes_readExact n m.conn)
  subst hout
  refine ⟨hold_most_le htakes hmost hB, hold_held_le htakes, fun b hb => ?_⟩
  obtain ⟨hlen, hin, -⟩ := readExact_eq_ok.mp (mapErr_eq_ok.mp (hold_eq_ok (Prod.ext hb rfl)))
  exact ⟨hlen, by rw [hin, ← hlen, drop_left]⟩

/-! ## Heads -/

theorem takes_readLineLoop (room : Nat) (buf : Bytes) (c : Conn) : Takes (room + 1) (readLineLoop room buf) c := by
  unfold Takes
  induction room generalizing buf c with
  | zero =>
    rcases hc : c.input with _ | ⟨b, rest⟩
    · simp
    · rw [readLineLoop_cons hc]
      simp
  | succ room ih =>
    rcases hc : c.input with _ | ⟨b, rest⟩
    · simp
    · rw [readLineLoop_cons hc]
      simp only
      split
      · simp
      · have := ih (buf ++ [b]) { c with input := rest }
        simp only [length_cons] at this ⊢
        omega

theorem takes_readLineCapped (cap : Nat) (c : Conn) : Takes (cap + 1) (readLineCapped cap) c := by
  have hloop := takes_readLineLoop cap [] c
  unfold Takes at hloop ⊢
  refine bind_post (P := fun out => c.input.length ≤ (input out.2).length + (cap + 1)) (fun e d h => ?_) (fun l d h => ?_)
  all_goals
    rw [h] at hloop
    exact hloop

/-- A line that is read is counted. -/
theorem readLineCapped_takes {s : Str} {d : Conn} (h : readLineCapped cap c = (.ok (s, n), d)) :
    n ≤ cap ∧ c.input.length = d.input.length + n := by
  obtain ⟨l, -, rfl, hcap, hread⟩ := readLineCapped_eq_ok.mp h
  refine ⟨hcap, ?_⟩
  rcases readUntilNewline_eq_ok.mp hread with ⟨-, hin, -⟩ | ⟨-, hin, -, rfl⟩
  · rw [hin, length_append, Nat.add_comm]
  · rw [hin, length_nil, Nat.zero_add]

/-- Of `n` bytes of input at most `any` are taken, and at most `ok` by a task that has succeeded. -/
def Spent {α : Type} (any ok n : Nat) (out : Except (Fault HttpError) α × Conn) : Prop :=
  n ≤ out.2.input.length + any ∧ ∀ a, out.1 = .ok a → n ≤ out.2.input.length + ok

section Spent

variable {α : Type} {any ok : Nat} {out : Except (Fault HttpError) α × Conn}

theorem Spent.error {e : Fault HttpError} (h : n ≤ c.input.length + any) : Spent any ok n ((.error e, c) : Except _ α × Conn) :=
  ⟨h, fun _ hok => by cases hok⟩

theorem Spent.returned {a : α} (h : n ≤ c.input.length + ok) (hle : ok ≤ any) : Spent any ok n (.ok a, c) :=
  ⟨h.trans (Nat.add_le_add_left hle _), fun _ _ => h⟩

/-- What is spent after `k` bytes. -/
theorem Spent.after (h : Spent any ok c.input.length out) (hn : n = c.input.length + k) : Spent (k + any) (k + ok) n out := by
  refine ⟨?_, fun a ha => ?_⟩
  · have := h.1
    omega
  · have := h.2 a ha
    omega

theorem Spent.mono {any' ok' : Nat} (h : Spent any ok n out) (hany : any ≤ any') (hok : ok ≤ ok') : Spent any' ok' n out :=
  ⟨h.1.trans (Nat.add_le_add_left hany _), fun a ha => (h.2 a ha).trans (Nat.add_le_add_left hok _)⟩

/-- A line, and what is spent after it. -/
theorem Spent.line {f : Str × Nat → Task Conn HttpError α} (hany : MAX_LINE_BYTES + 1 ≤ any)
    (h : ∀ line n d, n ≤ MAX_LINE_BYTES → c.input.length = d.input.length + n → Spent any ok c.input.length (f (line, n) d)) :
    Spent any ok c.input.length ((readLineCapped MAX_LINE_BYTES >>= f) c) := by
  refine bind_post (P := Spent _ _ _) (fun e d hread => ?_) (fun r d hread => ?_)
  · have hline := takes_readLineCapped MAX_LINE_BYTES c
    rw [Takes, hread] at hline
    exact .error (hline.trans (Nat.add_le_add_left hany _))
  · obtain ⟨hn, hlen⟩ := readLineCapped_takes hread
    exact h r.1 r.2 d hn hlen

end Spent

/-- Headers take what is left of the limit on their total, and at most one line more when they fail. -/
theorem spent_readHeadersLoop (room total : Nat) (h : HeaderMap) (c : Conn) (htotal : total ≤ MAX_HEADER_TOTAL_BYTES) :
    Spent (MAX_HEADER_TOTAL_BYTES - total + (MAX_LINE_BYTES + 1)) (MAX_HEADER_TOTAL_BYTES - total) c.input.length
      (readHeadersLoop room total h c) := by
  induction room using Nat.strong_induction_on generalizing total h c with
  | _ room ih =>
    rw [readHeadersLoop]
    refine Spent.line (by omega) (fun line n d hn hlen => ?_)
    simp only [Task.ite_apply]
    split
    · exact .returned (by omega) (by omega)
    split
    · exact .error (by omega)
    next hfits =>
    split
    · exact .returned (by omega) (by omega)
    -- one more header
    rcases room with _ | room
    · exact .error (by omega)
    · have hnext : ∀ h1 : HeaderMap, Spent (MAX_HEADER_TOTAL_BYTES - total + (MAX_LINE_BYTES + 1))
          (MAX_HEADER_TOTAL_BYTES - total) c.input.length (readHeadersLoop room (total + n) h1 d) := fun h1 =>
        ((ih room (Nat.lt_succ_self room) (total + n) h1 d (by omega)).after hlen).mono (by omega) (by omega)
      rcases splitOnce ':' (trimEndCrlf line) with _ | ⟨k, v⟩
      · exact hnext h
      · exact hnext _

/-- A head takes at most what its limits allow, and one line more when it is refused. -/
theorem spent_readRequestHead (c : Conn) :
    Spent (MAX_LINE_BYTES + MAX_HEADER_TOTAL_BYTES + (MAX_LINE_BYTES + 1)) (MAX_LINE_BYTES + MAX_HEADER_TOTAL_BYTES) c.input.length
      (readRequestHead c) := by
  refine Spent.line (by omega) (fun line n d hn hlen => ?_)
  simp only [Task.ite_apply]
  split
  · exact .error (by omega)
  rcases split ' ' (trimEnd line) with _ | ⟨method, _ | ⟨target, parts⟩⟩
  · exact .error (by omega)
  · exact .error (by omega)
  · have hheaders := ((spent_readHeadersLoop MAX_HEADERS 0 HeaderMap.new d (Nat.zero_le _)).after hlen)
    refine bind_post (P := Spent _ _ _) (fun e d' hread' => ?_) (fun headers d' hread' => ?_)
    · rw [readHeaders] at hread'
      rw [hread'] at hheaders
      exact .error (hheaders.1.trans (by simp only; omega))
    · rw [readHeaders] at hread'
      rw [hread'] at hheaders
      exact .returned ((hheaders.2 headers rfl).trans (by simp only; omega)) (by omega)

/-! ## Chunked bodies -/

/-- Trailers keep the meter within a bound that leaves room for one line. -/
theorem trailers_most_le (hmost : m.most ≤ B) (hB : m.held + cap ≤ B) (hshort : shortTrailers cap fuel m.conn.input = true) :
    (meteredTrailers fuel m).2.most ≤ B := by
  induction fuel generalizing m with
  | zero => exact hmost
  | succ fuel ih =>
    rw [shortTrailers, Bool.and_eq_true, decide_eq_true_eq] at hshort
    obtain ⟨hcap, hrest⟩ := hshort
    rw [meteredTrailers, bind_of_ok (get_apply m)]
    refine bind_post (P := fun out => MeteredConn.most out.2 ≤ B) (fun e d h => ?_) (fun r d h => ?_)
    · exact (hold_readLine hcap hmost hB h).1
    · obtain ⟨hmost', -, hinput, htext⟩ := hold_readLine hcap hmost hB h
      obtain ⟨line, n⟩ := r
      simp only [Task.ite_apply]
      split
      · exact hmost'
      next hmore =>
      refine ih hmost' hB ?_
      simp only [htext _ rfl, Bool.or_eq_true, decide_eq_true_eq] at hrest
      rw [hinput]
      exact hrest.resolve_left (fun hblank => hmore (.inr hblank))

/-- The dechunker keeps the meter within a bound that leaves room for the rest of the body, a chunk's line end, and two lines. -/
theorem chunkedLoop_most_le {H limit : Nat} {body : Bytes} (hlimit : limit < 2 ^ 64 - 1) (hB : H + limit + 2 * cap + 2 ≤ B)
    (hmost : m.most ≤ B) (hheld : m.held ≤ H + body.length) (hbody : body.length ≤ limit)
    (hshort : shortLines cap fuel (limit - body.length) m.conn.input = true) :
    (meteredChunkedLoop limit fuel body m).2.most ≤ B := by
  induction fuel generalizing body m with
  | zero => exact hmost
  | succ fuel ih =>
    rw [shortLines, Bool.and_eq_true, decide_eq_true_eq] at hshort
    obtain ⟨hcap, hrest⟩ := hshort
    rw [meteredChunkedLoop, bind_of_ok (get_apply m)]
    refine bind_post (P := fun out => MeteredConn.most out.2 ≤ B) (fun e d h => ?_) (fun r d h => ?_)
    · exact (hold_readLine hcap hmost (by omega) h).1
    obtain ⟨hmost1, hheld1, hinput1, htext⟩ := hold_readLine hcap hmost (by omega) h
    obtain ⟨line, n⟩ := r
    simp only [htext _ rfl, Option.map_some] at hrest
    simp only at hmost1 hheld1 hinput1
    simp only [Task.ite_apply]
    split
    · exact hmost1
    rcases hsize : chunkSize line with e | size
    · exact hmost1
    rw [hsize] at hrest
    simp only at hrest
    simp only [Task.ite_apply]
    split
    · -- the last chunk
      next hzero =>
      rw [if_pos hzero] at hrest
      have htrailers : (meteredTrailers (d.conn.input.length + 1) d).2.most ≤ B :=
        trailers_most_le hmost1 (show d.held + cap ≤ B by omega) (by rw [hinput1]; exact hrest)
      rw [bind_of_ok (get_apply d)]
      refine bind_post (P := fun out => MeteredConn.most out.2 ≤ B) (fun e d' h' => ?_) (fun _ d' h' => ?_)
      all_goals
        rw [h'] at htrailers
        exact htrailers
    next hzero =>
    rw [if_neg hzero] at hrest
    split
    · exact hmost1
    next hfits =>
    -- the data of the chunk and its line end
    refine bind_post (P := fun out => MeteredConn.most out.2 ≤ B) (fun e d2 h2 => ?_) (fun buf d2 h2 => ?_)
    · exact (hold_readExact hmost1 (by omega) h2).1
    obtain ⟨hmost2, hheld2, hok2⟩ := hold_readExact hmost1 (by omega) h2
    obtain ⟨hbuf, hinput2⟩ := hok2 buf rfl
    refine bind_post (P := fun out => MeteredConn.most out.2 ≤ B) (fun e d3 h3 => ?_) (fun crlf d3 h3 => ?_)
    · exact (hold_readExact hmost2 (by omega) h3).1
    obtain ⟨hmost3, -, hok3⟩ := hold_readExact hmost2 (by omega) h3
    obtain ⟨-, hinput3⟩ := hok3 crlf rfl
    refine ih hmost3 ?_ ?_ ?_
    · simp only [length_append]
      omega
    · simp only [length_append]
      omega
    · simp only [Bool.or_eq_true, decide_eq_true_eq] at hrest
      have hnext := hrest.resolve_left (by omega)
      rw [length_append, hbuf, hinput3, hinput2, hinput1, drop_drop, ← Nat.sub_sub]
      exact hnext

/-! ## One request -/

/-- A body of a given length takes no more than the limit on bodies. -/
theorem takes_readBody (config : ServerConfig) (contentLength : Option Nat) (c : Conn) :
    Takes config.maxBodyBytes (readBody config false contentLength) c := by
  unfold Takes readBody
  simp only [Bool.false_eq_true, if_false]
  rcases contentLength with _ | len
  · exact Nat.le_add_right _ _
  · simp only [Task.ite_apply]
    split
    · exact Nat.le_add_right _ _
    · next hlen =>
      have htakes := takes_timeout (e := HttpError.timeout) (takes_mapErr (f := HttpError.io) (takes_readExact len c))
      unfold Takes at htakes
      refine bind_post (P := fun out => c.input.length ≤ (input out.2).length + config.maxBodyBytes)
        (fun e d h => ?_) (fun b d h => ?_)
      all_goals
        rw [h] at htakes
        simp only [pure_apply] at htakes ⊢
        omega

theorem body_most_le {chunked : Bool} {contentLength : Option Nat} (hmax : config.maxBodyBytes < 2 ^ 64 - 1)
    (hmost : m.most ≤ heldBound config.maxBodyBytes) (hheld : m.held ≤ headBytes)
    (hshort : chunked = true → shortLines MAX_LINE_BYTES (m.conn.input.length + 1) config.maxBodyBytes m.conn.input = true) :
    (meteredBody config chunked contentLength m).2.most ≤ heldBound config.maxBodyBytes := by
  cases chunked with
  | true =>
    rw [meteredBody, if_pos rfl, timeout_snd, meteredChunkedBody]
    exact chunkedLoop_most_le hmax (Nat.le_refl _) hmost hheld (Nat.zero_le _) (hshort rfl)
  | false =>
    refine hold_most_le (takes_readBody config contentLength m.conn) hmost ?_
    unfold heldBound
    omega

/-- The meter is within the bound if the lines in the bodies noted are short. -/
def Within (config : ServerConfig) {α : Type} (out : Except (Fault HttpError) α × MeteredServer) : Prop :=
  (∀ x ∈ out.2.notes, x.hasShortLines config = true) → out.2.reader.most ≤ heldBound config.maxBodyBytes

/-- A request whose head has been noted. -/
theorem handleOne_within (handler : Nat → Request → HttpResponse) (served : Nat) {x : Exchange} {l : List Exchange}
    (hmax : config.maxBodyBytes < 2 ^ 64 - 1) (hmost : m.most ≤ heldBound config.maxBodyBytes) (hheld : m.held ≤ headBytes)
    (hnone : x.request = none) (hx : x.afterHead = m.conn.input) :
    Within config (meteredHandleOne config handler x.head served ⟨m, x :: l⟩) := by
  have hplain := (refines_handleOne config handler x.head served).run_eq ⟨m, x :: l⟩
  have haccepted := fun r => handleOne_accepted config handler served (r := r) (s := ⟨m.conn, x :: l⟩) rfl hnone hx
  intro hshort
  -- the note on a request with chunks stays, with its framing
  have hlines : ∀ r, x.head.headers.contentLengthChecked = .ok r → ¬(x.head.headers.isChunked && r.isSome) = true →
      x.head.headers.isChunked = true →
        shortLines MAX_LINE_BYTES (m.conn.input.length + 1) config.maxBodyBytes m.conn.input = true := by
    intro r hlen hclash hchunked
    obtain ⟨y, hy, -, -, hafter, hframing, -⟩ := haccepted r hlen hclash
    rw [show (⟨m.conn, x :: l⟩ : ServerConn) = MeteredServer.plain ⟨m, x :: l⟩ from rfl, hplain] at hy
    have hy' : (meteredHandleOne config handler x.head served ⟨m, x :: l⟩).2.notes = y :: l := hy
    have hlines := hshort y (by rw [hy']; exact mem_cons_self)
    rw [Exchange.hasShortLines, hframing, hafter, hx] at hlines
    simpa [bodyFraming, hchunked] using hlines
  unfold meteredHandleOne
  rcases hlen : x.head.headers.contentLengthChecked with e | r
  · exact hmost
  simp only [Task.ite_apply]
  split
  · exact hmost
  next hclash =>
  refine bind_post (P := fun out => (MeteredServer.reader out.2).most ≤ heldBound config.maxBodyBytes)
    (fun e m1 h1 => (by cases h1)) (fun _ m1 h1 => ?_)
  cases h1
  refine bind_post (P := fun out => (MeteredServer.reader out.2).most ≤ heldBound config.maxBodyBytes)
    (fun e m2 h2 => ?_) (fun _ m2 h2 => ?_)
  · obtain ⟨-, rfl⟩ := Prod.mk.inj h2
    exact hmost
  obtain ⟨-, rfl⟩ := Prod.mk.inj h2
  have hinput : ∀ s : ServerConn, s.conn.input = m.conn.input →
      (sendContinue x.head.headers (x.head.headers.isChunked || decide (r.getD 0 > 0)) s).2.conn.input = m.conn.input :=
    fun s hs => (sendContinue_snd _ _ s).2.trans hs
  refine bind_post (P := fun out => (MeteredServer.reader out.2).most ≤ heldBound config.maxBodyBytes)
    (fun e m3 h3 => ?_) (fun read m3 h3 => ?_)
  all_goals
    obtain ⟨-, rfl⟩ := Prod.mk.inj h3
    refine body_most_le hmax hmost hheld (fun hchunked => ?_)
    rw [hinput _ rfl]
    exact hlines r hlen hclash hchunked

/-! ## The connection -/

/-- What has been noted stays noted. -/
theorem loop_notes {handler : Nat → Request → HttpResponse} {drained : Nat → Bool} (fuel served : Nat) (m : MeteredServer) :
    ∀ x ∈ m.notes, x ∈ (meteredLoop config handler drained fuel served m).2.notes := by
  intro x hx
  obtain ⟨xs, hnotes, -⟩ := serveLoop_serves config handler drained fuel served m.plain
  rw [(refines_loop config handler drained fuel served).run_eq m] at hnotes
  have hnotes' : (meteredLoop config handler drained fuel served m).2.notes = xs.reverse ++ m.notes := hnotes
  rw [hnotes']
  exact mem_append_right _ hx

/-- A head that is read: the meter is within the bound, and so is what is kept of the head. -/
theorem head_most_le {maxBodyBytes most : Nat} {notes : List Exchange} {m' : MeteredServer}
    {r : Except (Fault HttpError) (Except HttpError RequestHead)} (hmost : most ≤ heldBound maxBodyBytes)
    (h : ((onReader (hold (readRequestHead.timeout .timeout))).attempt : Task MeteredServer HttpError _) ⟨⟨c, 0, most⟩, notes⟩ =
      (r, m')) :
    m'.reader.most ≤ heldBound maxBodyBytes ∧ ∀ head, r = .ok (.ok head) → m'.reader.held ≤ headBytes := by
  obtain ⟨hany, hok⟩ := spent_readRequestHead c
  have hm' : m' = (onReader (hold (readRequestHead.timeout .timeout)) ⟨⟨c, 0, most⟩, notes⟩).2 := by
    rw [← attempt_snd, h]
  refine ⟨?_, fun head hr => ?_⟩
  · rw [hm']
    refine hold_most_le (takes_timeout hany) hmost ?_
    unfold heldBound headBytes
    simp only
    omega
  · subst hr
    obtain ⟨h1, -⟩ := Prod.mk.inj (attempt_eq_ok_ok.mp h)
    have hhead : (readRequestHead c).1 = .ok head := congrArg Prod.fst (timeout_eq_ok.mp (Prod.ext h1 rfl))
    have htakes : Takes headBytes readRequestHead c := hok head hhead
    rw [hm']
    exact (hold_held_le (takes_timeout htakes)).trans (Nat.le_of_eq (Nat.zero_add _))

theorem loop_within {handler : Nat → Request → HttpResponse} {drained : Nat → Bool} {served : Nat} {m : MeteredServer}
    (hmax : config.maxBodyBytes < 2 ^ 64 - 1) (hmost : m.reader.most ≤ heldBound config.maxBodyBytes) :
    Within config (meteredLoop config handler drained fuel served m) := by
  induction fuel generalizing served m with
  | zero => exact fun _ => hmost
  | succ fuel ih =>
    rw [meteredLoop]
    split
    · exact fun _ => hmost
    have hdrop : onReader (keepHeld 0) m = (.ok (), ⟨⟨m.reader.conn, 0, m.reader.most⟩, m.notes⟩) := rfl
    rw [bind_of_ok hdrop, bind_of_ok (get_apply _)]
    refine bind_post (fun e m1 hread => fun _ => (head_most_le hmost hread).1) (fun r m1 hread => ?_)
    obtain ⟨hmost1, hheld1⟩ := head_most_le hmost hread
    rcases r with e | head
    · exact fun _ => hmost1
    have hnote : unmetered (modify (fun t : ServerConn =>
        { t with notes := ⟨m.reader.conn.input, head, t.conn.input, none, none, none⟩ :: t.notes })) m1 =
        (.ok (), ⟨m1.reader, ⟨m.reader.conn.input, head, m1.reader.conn.input, none, none, none⟩ :: m1.notes⟩) := rfl
    simp only
    rw [bind_of_ok hnote]
    have hone := handleOne_within handler (served + 1) (l := m1.notes)
      (x := ⟨m.reader.conn.input, head, m1.reader.conn.input, none, none, none⟩) hmax hmost1 (hheld1 head rfl) rfl rfl
    refine bind_post (fun e m2 h2 => ?_) (fun b m2 h2 => ?_)
    · rw [h2] at hone
      exact hone
    · rw [h2] at hone
      rw [Task.ite_apply]
      split
      · exact fun hshort => ih (hone (fun x hx => hshort x (loop_notes _ _ _ x hx))) hshort
      · exact hone

end Ferroly.Http
