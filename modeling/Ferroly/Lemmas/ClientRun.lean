import Ferroly.Http.ClientRun
import Ferroly.Lemmas.HttpBody
import Ferroly.Lemmas.HttpSend

/-!
# What a client puts into its pool

Where answers are clear, the readers take exactly what a response consists of; from that, what one action keeps of the responses in
flight and of the pool, and so what holds in every run.
-/

namespace Ferroly.Http

open List Conn

variable {c d : Conn} {h : HeaderMap} {x : InFlight} {status : StatusCode}

/-! ## Heads -/

/-- The header loop reads a complete header block, or all there is up to the end of the stream. -/
theorem readHeadersLoop_cases {h' : HeaderMap} {room total : Nat} (hread : readHeadersLoop room total h c = (.ok h', d)) :
    c.ending = .eof ∧ d.input = [] ∨ ∃ block, c.input = block ++ d.input ∧ HeaderBlock h block h' := by
  induction room using Nat.strong_induction_on generalizing total h c with
  | _ room ih =>
    obtain ⟨l, c1, hline, -, hcase⟩ := readHeadersLoop_eq_ok.mp hread
    rcases readUntilNewline_eq_ok.mp hline with ⟨hl, hin, hc1⟩ | ⟨-, -, hend, rfl⟩
    · rcases hcase with ⟨hnil, -⟩ | ⟨-, -, ⟨hblank, rfl, rfl⟩ | ⟨hfield, room', rfl, hloop⟩⟩
      · exact absurd hnil (ne_nil_of_isLine hl)
      · exact .inr ⟨l, hin, .blank hl hblank⟩
      · rcases ih room' (Nat.lt_succ_self _) hloop with hend | ⟨block, hblock, hrest⟩
        · rw [hc1] at hend
          exact .inl hend
        · exact .inr ⟨l ++ block, by rw [hin, hblock, append_assoc], .field hl hfield hrest⟩
    · -- after the last bytes the loop finds nothing more
      refine .inl ⟨hend, ?_⟩
      rcases hcase with ⟨-, -, rfl⟩ | ⟨-, -, ⟨-, -, rfl⟩ | ⟨-, room', rfl, hloop⟩⟩
      · rfl
      · rfl
      · rcases ih room' (Nat.lt_succ_self _) hloop with ⟨-, hnil⟩ | ⟨block, hblock, -⟩
        · exact hnil
        · exact (append_eq_nil_iff.mp hblock.symm).2

/-- A complete head is what is read of a response. -/
theorem readResponseHead_head {head rest : Bytes} {status' : StatusCode} {h' : HeaderMap} (hhead : ResponseHead head status h)
    (hin : c.input = head ++ rest) (hread : readResponseHead c = (.ok (status', h'), d)) :
    status' = status ∧ h' = h ∧ d = { c with input := rest } := by
  obtain ⟨hisline, hcode, hblock⟩ := hhead
  obtain ⟨l, c1, code', hl, -, -, hcode', rfl, hheaders⟩ := readResponseHead_eq_ok.mp hread
  rw [append_assoc] at hin
  rw [readUntilNewline_line hin hisline] at hl
  cases hl
  rw [hcode] at hcode'
  cases hcode'
  obtain ⟨rfl, rfl⟩ := readHeadersLoop_block hblock rfl hheaders
  exact ⟨rfl, rfl, rfl⟩

/-- The head that is read is complete, or all there is up to the end of the stream. -/
theorem readResponseHead_cases (hread : readResponseHead c = (.ok (status, h), d)) :
    c.ending = .eof ∧ d.input = [] ∨ ∃ head, c.input = head ++ d.input ∧ ResponseHead head status h := by
  obtain ⟨line, c1, code, hl, -, -, hcode, rfl, hheaders⟩ := readResponseHead_eq_ok.mp hread
  rcases readUntilNewline_eq_ok.mp hl with ⟨hisline, hin, hc1⟩ | ⟨-, -, heof, rfl⟩
  · rcases readHeadersLoop_cases hheaders with hend | ⟨block, hblock, hh⟩
    · rw [hc1] at hend
      exact .inl hend
    · exact .inr ⟨line ++ block, by rw [hin, hblock, append_assoc], .mk hisline hcode hh⟩
  · rcases readHeadersLoop_cases hheaders with ⟨-, hnil⟩ | ⟨block, hblock, -⟩
    · exact .inl ⟨heof, hnil⟩
    · exact .inl ⟨heof, (append_eq_nil_iff.mp hblock.symm).2⟩

/-- The head that is read is complete, if there is a complete one where the stream ends. -/
theorem readResponseHead_complete (heof : c.ending = .eof → ∃ head rest status h, c.input = head ++ rest ∧ ResponseHead head status h)
    (hread : readResponseHead c = (.ok (status, h), d)) :
    ∃ head, c.input = head ++ d.input ∧ ResponseHead head status h ∧ d = { c with input := d.input } := by
  rcases readResponseHead_cases hread with ⟨hend, -⟩ | ⟨head, hin, hhead⟩
  · obtain ⟨head, rest, status0, h0, hin, hhead⟩ := heof hend
    obtain ⟨rfl, rfl, rfl⟩ := readResponseHead_head hhead hin hread
    exact ⟨head, hin, hhead, rfl⟩
  · exact ⟨head, hin, hhead, (readResponseHead_head hhead hin hread).2.2⟩

theorem readResponseHead_trimmed (hread : readResponseHead c = (.ok (status, h), d)) : h.Trimmed := by
  obtain ⟨l, c1, code, -, -, -, -, -, hheaders⟩ := readResponseHead_eq_ok.mp hread
  exact readHeadersLoop_trimmed (fun e he => absurd he not_mem_nil) hheaders

/-! ## Last chunks -/

/-- Complete trailers are what is skipped. -/
theorem skipTrailers_trailers {t rest : Bytes} {fuel : Nat} (ht : Trailers t) (hin : c.input = t ++ rest)
    (hskip : skipTrailers fuel c = (.ok (), d)) : d = { c with input := rest } := by
  induction ht generalizing fuel c with
  | @blank line s hl hs hblank =>
    rcases fuel with _ | fuel
    · cases hskip
    · have hline := readLine_eq_ok.mpr ⟨line, readUntilNewline_line hin hl, hs, rfl⟩
      rw [skipTrailers, Task.bind_of_ok (Task.mapErr_eq_ok.mpr hline)] at hskip
      simp only [if_pos (.inr hblank : line.length = 0 ∨ trim s = [])] at hskip
      exact (Prod.mk.inj hskip).2.symm
  | @more line t s hl hs hfield _ ih =>
    rcases fuel with _ | fuel
    · cases hskip
    · rw [append_assoc] at hin
      have hline := readLine_eq_ok.mpr ⟨line, readUntilNewline_line hin hl, hs, rfl⟩
      have hne : ¬(line.length = 0 ∨ trim s = []) :=
        not_or.mpr ⟨fun h0 => ne_nil_of_isLine hl (length_eq_zero_iff.mp h0), hfield⟩
      rw [skipTrailers, Task.bind_of_ok (Task.mapErr_eq_ok.mpr hline)] at hskip
      simp only [if_neg hne] at hskip
      exact ih (c := { c with input := t ++ rest }) rfl hskip

/-- The last chunk that is read from a stream with a clear end. -/
theorem readChunk_none_clear (hclear : ClearEnd c) (hread : readChunk c = (.ok none, d)) :
    ∃ coding, c.input = coding ++ d.input ∧ ChunkedCoding coding ∧ d = { c with input := d.input } := by
  obtain ⟨line, s, c1, _, hline, hs, hsize, -, ⟨rfl, -, hskip⟩ | ⟨-, _, _, _, ⟨⟩, -⟩⟩ := readChunk_steps hread
  -- at the end of the stream the last chunk is complete, and then it is what has been read
  have hstream : c.ending = .eof → c.input = line ++ c1.input → Conn.IsLine line ∨ c1.input = [] →
      ∃ coding, c.input = coding ++ d.input ∧ ChunkedCoding coding ∧ d = { c with input := d.input } := by
    intro hend hin hl
    obtain ⟨hl, trailers, rest, hafter, ht⟩ := hclear hend line c1.input s hin hl hs hsize
    rw [readUntilNewline_line hin hl] at hline
    have hc1 : { c with input := c1.input } = c1 := (Prod.mk.inj hline).2
    have hd := skipTrailers_trailers ht hafter hskip
    refine ⟨line ++ trailers, ?_, .last hl hs (chunkSize_iff.mp hsize) ht, by rw [hd, ← hc1]⟩
    rw [hin, hafter, hd, append_assoc]
  rcases readUntilNewline_eq_ok.mp hline with ⟨hl, hin, hc1⟩ | ⟨-, hin, hend, hc1⟩
  · obtain ⟨lines, final, hcuts⟩ := skipTrailers_cuts hskip
    obtain ⟨trailers, ht, ⟨-, htr⟩ | ⟨-, hend, -⟩⟩ := hcuts.trailers
    · have hd := skipTrailers_trailers htr ht hskip
      exact ⟨line ++ trailers, by rw [hin, ht, append_assoc], .last hl hs (chunkSize_iff.mp hsize) htr, by rw [hd, hc1]⟩
    · exact hstream (by rw [hc1] at hend; exact hend) hin (.inl hl)
  · exact hstream hend (by rw [hin, hc1, append_nil]) (.inr (by rw [hc1]))

/-! ## Responses in flight -/

/-- What is still to be read under a framing. -/
def Owes : Framing → Bytes → Prop
  | .done, more => more = []
  | .length n, more => more.length = n
  | .chunked, more => ChunkedCoding more
  | .eof, _ => False

/-- A response whose connection is to be reused is on its way to its end: what has been read of it, with what its framing owes, is the
complete final response. -/
def InFlight.Good (x : InFlight) : Prop :=
  x.broken = false → ∀ conn key, x.body.reader = some conn → x.body.reclaim = some key →
    conn.sawEof = false ∧ ∃ used, x.start = used ++ conn.input ∧ ∀ more, Owes x.body.framing more → FinalResponse x.method (used ++ more)

/-- A response whose connection is not to be reused is always on its way. -/
theorem good_of_reclaim_none (h : x.body.reclaim = none) : x.Good := by
  intro _ conn key _ hkey
  rw [h] at hkey
  cases hkey

/-- What a call for a chunk may come to: only a drained connection is put into the pool, and the response stays on its way if the call
succeeds. -/
def InFlight.Sound (x : InFlight) (out : Except (Fault HttpError) (Option Bytes) × Body × Option Put) : Prop :=
  (∀ p, out.2.2 = some p → Drained x.method x.start p.2) ∧
    ∀ broken, (broken = false → ∃ o, out.1 = .ok o) → InFlight.Good ⟨out.2.1, x.method, x.start, broken⟩

variable {body : Body} {framing : Framing} {o : Option Bytes} {part : Bytes}

theorem sound_error {e : Fault HttpError} : x.Sound (.error e, body, none) := by
  refine ⟨nofun, fun broken hok hb => ?_⟩
  obtain ⟨o, ho⟩ := hok hb
  cases ho

/-- A call after which the connection is gone. -/
theorem sound_gone (h : body.reader = none) : x.Sound (.ok o, body, none) := by
  refine ⟨nofun, fun broken _ _ conn key hconn => ?_⟩
  rw [h] at hconn
  cases hconn

/-- A call that reads a part of what the response owes. -/
theorem sound_part (hgood : x.Good) (hbroken : x.broken = false) (hreader : x.body.reader = some c) (hin : c.input = part ++ d.input)
    (heof : d.sawEof = c.sawEof) (howes : ∀ more, Owes framing more → Owes x.body.framing (part ++ more)) :
    x.Sound (.ok o, ⟨some d, framing, x.body.reclaim⟩, none) := by
  refine ⟨nofun, fun broken _ _ conn key hconn hkey => ?_⟩
  cases hconn
  obtain ⟨hsaw, used, hstart, hfinal⟩ := hgood hbroken c key hreader hkey
  refine ⟨heof.trans hsaw, used ++ part, by rw [hstart, hin, append_assoc], fun more hmore => ?_⟩
  rw [append_assoc]
  exact hfinal _ (howes more hmore)

/-- The call that reads the last of what the response owes: its connection may be handed back. -/
theorem sound_finish (hgood : x.Good) (hbroken : x.broken = false) (hreader : x.body.reader = some c)
    (hin : c.input = part ++ d.input) (heof : d.sawEof = c.sawEof) (howes : Owes x.body.framing part) :
    x.Sound (.ok o, Body.reclaimConn ⟨some d, framing, x.body.reclaim⟩) := by
  rcases hr : x.body.reclaim with _ | key
  · exact ⟨nofun, fun broken _ => good_of_reclaim_none rfl⟩
  · refine ⟨fun p hp => ?_, fun broken _ => good_of_reclaim_none rfl⟩
    cases hp
    obtain ⟨hsaw, used, hstart, hfinal⟩ := hgood hbroken c key hreader hr
    exact ⟨⟨used ++ part, by rw [hstart, hin, append_assoc], hfinal part howes⟩, heof.trans hsaw⟩

theorem nextChunk_sound (hgood : x.Good) (hbroken : x.broken = false)
    (hclear : ∀ conn, x.body.reader = some conn → x.body.framing = .chunked → ClearEnd conn) : x.Sound x.body.nextChunk := by
  rcases hreader : x.body.reader with _ | c
  · rw [Body.nextChunk, hreader]
    exact sound_gone hreader
  rcases hframing : x.body.framing with n | _ | _ | _
  · rcases n with _ | n
    · rw [Body.nextChunk, hreader]
      simp only [hframing]
      exact sound_finish hgood hbroken hreader (nil_append _).symm rfl (by rw [hframing]; rfl)
    · by_cases hnil : c.input = []
      · rcases nextChunk_length_nil hreader hframing hnil with h | ⟨e, h⟩
        · rw [h]
          exact sound_gone rfl
        · rw [h]
          exact sound_error
      · obtain ⟨k, -, hkn, hkl, h⟩ := nextChunk_length hreader hframing hnil
        rw [h]
        refine sound_part hgood hbroken hreader (take_append_drop k c.input).symm rfl (fun more hmore => ?_)
        rw [hframing]
        change more.length = n + 1 - k at hmore
        change (c.input.take k ++ more).length = n + 1
        rw [length_append, length_take_of_le hkl]
        omega
  · rw [Body.nextChunk, hreader]
    simp only [hframing]
    rcases hread : readChunk c with ⟨e | _ | buf, c1⟩
    · exact sound_error
    · obtain ⟨coding, hin, hcoding, hc1⟩ := readChunk_none_clear (hclear c hreader hframing) hread
      exact sound_finish hgood hbroken hreader hin (by rw [hc1]) (by rw [hframing]; exact hcoding)
    · obtain ⟨line, s, crlf, hin, hl, hs, hsize, hzero, -, hcrlf, hc1⟩ := readChunk_some hread
      have hin' : c.input = (line ++ (buf ++ crlf)) ++ c1.input := by
        rw [hin]
        simp only [append_assoc]
      refine sound_part hgood hbroken hreader hin' (by rw [hc1]) (fun more hmore => ?_)
      rw [hframing]
      have hcoding := ChunkedCoding.chunk hl hs (chunkSize_iff.mp hsize) hzero rfl hcrlf hmore
      simpa only [Owes, append_assoc] using hcoding
  · rw [Body.nextChunk, hreader]
    simp only [hframing]
    by_cases hnil : c.input = []
    · simp only [Task.mapErr, read_nil (m := READ_SIZE) hnil, atEnd]
      rcases c.ending with _ | _ | _
      · exact sound_gone rfl
      · exact sound_error
      · exact sound_error
    · obtain ⟨k, hk0, -, hkl, hread⟩ := read_of_ne_nil (m := READ_SIZE) (by decide) hnil
      obtain ⟨a, t, hat⟩ : ∃ a t, c.input.take k = a :: t :=
        exists_cons_of_length_pos (by rw [length_take_of_le hkl]; exact hk0)
      rw [hat] at hread
      rw [Task.mapErr_eq_ok.mpr hread]
      exact sound_part hgood hbroken hreader (take_append_drop k c.input).symm rfl (fun more hmore => absurd hmore id)
  · rw [Body.nextChunk, hreader]
    simp only [hframing]
    have hbody : x.body.reclaimConn = Body.reclaimConn ⟨some c, .done, x.body.reclaim⟩ := by rw [← hreader, ← hframing]
    rw [hbody]
    exact sound_finish hgood hbroken hreader (nil_append _).symm rfl (by rw [hframing]; rfl)

/-! ## Sent requests -/

/-- Under the right framing, what is owed is the body of the response. -/
theorem responseBody_of_owes {method : Method} {more : Bytes} (hright : rightFraming method status h = true)
    (hkeep : responseKeepAlive h = true) (htrim : h.Trimmed) (howes : Owes (responseFraming status h) more) :
    ¬status.isInterim ∧ ResponseBody method status h more := by
  rw [rightFraming, hkeep, Bool.not_true, Bool.false_or, Bool.and_eq_true, Bool.not_eq_true', decide_eq_false_iff_not] at hright
  obtain ⟨hinterim, hright⟩ := hright
  refine ⟨hinterim, ?_⟩
  rcases hno : noContent status with _ | _
  · rw [hno, Bool.false_or] at hright
    rw [responseFraming_of_content h hinterim hno] at howes
    have hbodyless : method ≠ .head → bodyless method status = false := fun hm => by
      rw [bodyless, hno, Bool.or_false, beq_eq_false_iff_ne]
      exact hm
    rcases hchunked : h.isChunked with _ | _
    · rw [hchunked, if_neg Bool.false_ne_true] at hright howes
      rcases hlen : h.contentLength with _ | n
      · rw [hlen] at howes
        exact absurd howes id
      · rw [hlen] at hright howes
        simp only at hright
        by_cases hm : method = .head
        · rw [if_pos hm, beq_iff_eq] at hright
          rw [hright] at howes
          exact .none (by rw [hm]; rfl) (length_eq_zero_iff.mp howes)
        · rw [if_neg hm, Bool.and_eq_true, List.isEmpty_iff, all_eq_true] at hright
          refine .length (hbodyless hm) hright.1 ⟨fun hnil => ?_, fun v hv => ?_⟩ howes
          · rw [HeaderMap.contentLength, HeaderMap.get_eq_head, show h.values "content-length".toList = [] from hnil] at hlen
            cases hlen
          · have hvalue := hright.2 v hv
            rw [Bool.and_eq_true, bne_iff_ne, beq_iff_eq] at hvalue
            obtain ⟨e, he, rfl⟩ := mem_map.mp hv
            exact isPlainNumber_of_parseLength (htrim e (mem_filter.mp he).1) hvalue.1 hvalue.2
    · rw [hchunked, if_pos rfl] at hright howes
      rw [Bool.and_eq_true, bne_iff_ne] at hright
      exact .chunked (hbodyless hright.1) hright.2 howes
  · rw [responseFraming_of_noContent h hno] at howes
    exact .none (by rw [bodyless, hno, Bool.or_true]) howes

theorem keeps_writeRequest (req : Request) : Task.Keeps incoming (writeRequest req) := by
  rw [writeRequest_eq]
  exact .bind (.mapErr (keeps_writeAll)) (fun _ => .ite (.pure _) (.mapErr (keeps_writeAll)))

/-- The response to a request on a connection with a clear answer is on its way. -/
theorem exchange_good {req : Request} {key : PoolKey} {after : Conn} {resp : Response} (hclear : ClearAnswer req.method c)
    (hsaw : c.sawEof = false) (h : exchange req key c = (.ok resp, after)) :
    InFlight.Good ⟨resp.body, req.method, c.input, false⟩ := by
  have hkeeps := keeps_writeRequest req c
  unfold exchange at h
  rcases hwrite : writeRequest req c with ⟨e | u, w⟩
  · rw [hwrite] at h
    cases h
  rw [hwrite] at h hkeeps
  simp only [incoming, Prod.mk.injEq] at hkeeps
  obtain ⟨hin, hend, -, heof⟩ := hkeeps
  obtain ⟨status, headers, hread, rfl⟩ := receive_eq_ok.mp h
  have hclear' : ClearAnswer req.method w := by
    unfold ClearAnswer at hclear ⊢
    rw [hin, hend]
    exact hclear
  obtain ⟨head, hhead, hresp, hafter⟩ := readResponseHead_complete hclear'.1 hread
  intro _ conn key' hconn hkey'
  cases hconn
  refine ⟨?_, head, by rw [← hin, hhead], fun more hmore => ?_⟩
  · rw [hafter, heof, hsaw]
  · have hkeep : responseKeepAlive headers = true := by
      simp only [openResponse] at hkey'
      split at hkey'
      · next hreuse => exact (Bool.and_eq_true_iff.mp hreuse).1
      · cases hkey'
    obtain ⟨hinterim, hbody⟩ := responseBody_of_owes (hclear'.2 head _ _ _ hhead hresp) hkeep (readResponseHead_trimmed hread) hmore
    exact .final hresp hinterim hbody

/-- The connection that gives a response: an idle one or the one just made. -/
theorem send_ok {timeout : Bool} {pool pool' : Pool} {req : Request} {connect : Except (Fault HttpError) Conn} {resp : Response}
    {attempts : List Attempt} (h : send timeout pool req connect = (.ok resp, pool', attempts)) :
    ∃ conn after, answering attempts = some conn ∧ (conn ∈ pool req.poolKey ∨ connect = .ok conn) ∧
      exchange req req.poolKey conn = (.ok resp, after) := by
  have hfresh : ∀ {as : List Attempt}, sendFresh req connect = (.ok resp, as) →
      ∃ conn after, as = [⟨conn, after⟩] ∧ connect = .ok conn ∧ exchange req req.poolKey conn = (.ok resp, after) := by
    intro as hf
    rcases connect with e | conn
    · cases hf
    · rw [sendFresh] at hf
      rcases hx : exchange req req.poolKey conn with ⟨r, after⟩
      simp only [hx] at hf
      cases hf
      exact ⟨conn, after, rfl, rfl, hx⟩
  have hinner : sendInner pool req connect = (.ok resp, pool', attempts) := by
    unfold send at h
    split at h
    · split at h <;> cases h
    · exact h
  revert hinner
  rw [sendInner, Pool.take]
  rcases hpool : pool req.poolKey with _ | ⟨idle, rest⟩
  · rcases hf : sendFresh req connect with ⟨r, as⟩
    rintro ⟨⟩
    obtain ⟨conn, after, rfl, hconn, hx⟩ := hfresh hf
    exact ⟨conn, after, rfl, .inr hconn, hx⟩
  · simp only
    rcases hx : exchange req req.poolKey idle with ⟨(e | _ | _) | r, after⟩
    · rcases hf : sendFresh req connect with ⟨r, as⟩
      rintro ⟨⟩
      obtain ⟨conn, after', rfl, hconn, hx'⟩ := hfresh hf
      exact ⟨conn, after', rfl, .inr hconn, hx'⟩
    · rintro ⟨⟩
    · rintro ⟨⟩
    · rintro ⟨⟩
      exact ⟨idle, after, rfl, .inl mem_cons_self, hx⟩

theorem mem_update {pool : PoolKey → List Conn} {key k : PoolKey} {conns : List Conn} (h : c ∈ Function.update pool k conns key) :
    c ∈ pool key ∨ c ∈ conns ∧ key = k := by
  by_cases hkey : key = k
  · subst hkey
    rw [Function.update_self] at h
    exact .inr ⟨h, rfl⟩
  · rw [Function.update_of_ne hkey] at h
    exact .inl h

/-- A call takes connections out of the pool and puts none into it. -/
theorem send_pool (timeout : Bool) (pool : Pool) (req : Request) (connect : Except (Fault HttpError) Conn) (key : PoolKey) :
    ∀ c ∈ (send timeout pool req connect).2.1 key, c ∈ pool key := by
  have hinner : (send timeout pool req connect).2.1 = (sendInner pool req connect).2.1 := by
    unfold send
    rcases sendInner pool req connect with ⟨(e | _ | _) | r, pool', as⟩ <;> rfl
  rw [hinner, sendInner, Pool.take]
  rcases hpool : pool req.poolKey with _ | ⟨idle, rest⟩
  · exact fun c hc => hc
  · have hrest : ∀ c ∈ Function.update pool req.poolKey rest key, c ∈ pool key := by
      intro c hc
      rcases mem_update hc with hc | ⟨hrest, rfl⟩
      · exact hc
      · rw [hpool]
        exact mem_cons_of_mem _ hrest
    simp only
    rcases exchange req req.poolKey idle with ⟨(e | _ | _) | r, after⟩ <;> exact hrest

theorem Pool.mem_put {pool : Pool} {p : Put} {key : PoolKey} (h : c ∈ pool.put p key) : c ∈ pool key ∨ c = p.2 := by
  by_cases hfull : (pool p.1).length < MAX_IDLE_PER_HOST
  · rw [Pool.put, if_pos hfull] at h
    rcases mem_update h with hold | ⟨hnew, rfl⟩
    · exact .inl hold
    · exact (mem_append.mp hnew).imp_right mem_singleton.mp
  · rw [Pool.put, if_neg hfull] at h
    exact .inl h

/-! ## Runs -/

/-- What holds between the actions of a run with clear answers. -/
structure ClientRun.Good (s : ClientRun) : Prop where
  pool : ∀ key, ∀ c ∈ s.pool key, c.sawEof = false
  flights : ∀ x ∈ s.flights, x.Good

theorem ClientRun.good_new : ClientRun.new.Good := ⟨fun _ _ hc => absurd hc not_mem_nil, fun _ hx => absurd hx not_mem_nil⟩

/-- One clear action puts only drained connections into the pool. -/
theorem ClientRun.step_good {s : ClientRun} {a : Action} (hs : s.Good) (ha : s.Clear a) :
    (s.step a).1.Good ∧ ∀ e, (s.step a).2 = some e → Drained e.flight.method e.flight.start e.put.2 := by
  cases a with
  | send timeout req connect =>
    have hpool := send_pool timeout s.pool req (connect.map fresh)
    rcases hsend : Http.send timeout s.pool req (connect.map fresh) with ⟨e | resp, pool, attempts⟩
    · rw [hsend] at hpool
      simp only [ClientRun.step, hsend]
      exact ⟨⟨fun key c hc => hs.pool key c (hpool key c hc), hs.flights⟩, fun e he => (by cases he)⟩
    · rw [hsend] at hpool
      simp only [ClientRun.step, hsend]
      refine ⟨⟨fun key c hc => hs.pool key c (hpool key c hc), fun x hx => ?_⟩, fun e he => (by cases he)⟩
      rcases mem_append.mp hx with hx | hx
      · exact hs.flights x hx
      · obtain ⟨conn, after, hanswering, hfrom, hx'⟩ := send_ok hsend
        have hsaw : conn.sawEof = false := by
          rcases hfrom with hidle | hconn
          · exact hs.pool _ conn hidle
          · rcases connect with e | c
            · cases hconn
            · cases hconn
              rfl
        rw [mem_singleton.mp hx, hanswering]
        exact exchange_good (ha resp pool attempts conn hsend hanswering) hsaw hx'
  | chunk i =>
    rcases hi : s.flights[i]? with _ | x
    · simp only [ClientRun.step, hi]
      exact ⟨hs, fun e he => (by cases he)⟩
    · obtain ⟨hbroken, hclear⟩ := ha x hi
      have hsound := nextChunk_sound (hs.flights x (mem_of_getElem? hi)) hbroken hclear
      rcases hnext : x.body.nextChunk with ⟨r, body, put⟩
      rw [hnext] at hsound
      obtain ⟨hput, hgood⟩ := hsound
      simp only [ClientRun.step, hi, hnext]
      refine ⟨⟨fun key c hc => ?_, fun y hy => ?_⟩, fun e he => ?_⟩
      · rcases put with _ | p
        · exact hs.pool key c hc
        · rcases Pool.mem_put hc with hc | rfl
          · exact hs.pool key c hc
          · exact (hput p rfl).2
      · rcases mem_or_eq_of_mem_set hy with hy | rfl
        · exact hs.flights y hy
        · refine hgood _ (fun hok => ?_)
          rcases r with e | o
          · rw [Bool.or_true] at hok
            cases hok
          · exact ⟨o, rfl⟩
      · rcases put with _ | p
        · cases he
        · cases he
          exact hput p rfl
  | cancel i taken =>
    rcases hi : s.flights[i]? with _ | x
    · simp only [ClientRun.step, hi]
      exact ⟨hs, fun e he => (by cases he)⟩
    · simp only [ClientRun.step, hi]
      refine ⟨⟨hs.pool, fun y hy => ?_⟩, fun e he => (by cases he)⟩
      rcases mem_or_eq_of_mem_set hy with hy | rfl
      · exact hs.flights y hy
      · unfold InFlight.cancel
        split
        · exact fun hb => absurd hb (by simp)
        · exact hs.flights x (mem_of_getElem? hi)
  | drop i =>
    refine ⟨⟨hs.pool, fun x hx => hs.flights x (mem_of_mem_eraseIdx hx)⟩, fun e he => ?_⟩
    cases he

/-- A run of clear actions puts only drained connections into the pool. -/
theorem ClientRun.puts_drained {s : ClientRun} {as : List Action} (hs : s.Good) (has : s.AllClear as) :
    ∀ e ∈ s.puts as, Drained e.flight.method e.flight.start e.put.2 := by
  induction as generalizing s with
  | nil => exact fun e he => absurd he not_mem_nil
  | cons a as ih =>
    obtain ⟨hgood, hput⟩ := step_good hs has.1
    intro e he
    rcases mem_append.mp he with he | he
    · exact hput e (Option.mem_toList.mp he)
    · exact ih hgood has.2 e he

end Ferroly.Http
