import Ferroly.Lemmas.HttpChunks

/-!
# The server's run on a connection

What each function of the server leaves of the input and of the notes, and from it how the requests of a connection follow one
another: the head of each is read from where the body of the one before it ends.
-/

namespace Ferroly.Http

open List Ferroly.Task Conn

variable {f : BodyFraming} {input : Bytes} {c d : Conn} {x : Exchange} {h : HeaderMap} {ns xs : List Exchange}
  {head : RequestHead} {config : ServerConfig} {s : ServerConn}

/-! ## Bodies -/

theorem readChunkedLoop_cuts {limit fuel : Nat} {body b : Bytes} (hbody : fits limit body.length)
    (h : readChunkedLoop limit fuel body c = (.ok (some b), d)) :
    ∃ cut, b = body ++ cut.data ∧ fits limit b.length ∧ CutsChunks c.ending (2 ^ 64) cut c.input d.input := by
  induction fuel generalizing c body with
  | zero => cases h
  | succ fuel ih =>
    rw [readChunkedLoop, bind_eq_ok] at h
    obtain ⟨⟨s, n⟩, c1, hline, hrest⟩ := h
    obtain ⟨line, hin, hl, hs, rfl, hend⟩ := takes_of_readLine (mapErr_eq_ok.mp hline)
    simp only [Task.ite_apply] at hrest
    split at hrest
    · cases hrest
    rcases hsize : chunkSize s with e | size
    · simp only [hsize] at hrest
      cases hrest
    simp only [hsize] at hrest
    rw [hin]
    split at hrest
    · next hzero =>
      -- the last chunk
      subst hzero
      rw [bind_of_ok (get_apply c1), bind_eq_ok] at hrest
      obtain ⟨_, c2, htrail, hpure⟩ := hrest
      obtain ⟨hb, rfl⟩ := Prod.mk.inj hpure
      obtain rfl : body = b := Option.some.inj (Except.ok.inj hb)
      obtain ⟨lines, final, htrailers⟩ := skipTrailers_cuts htrail
      exact ⟨⟨[], line, lines, final⟩, (append_nil _).symm, hbody, .last hl hs (chunkSize_iff.mp hsize) (hend ▸ htrailers)⟩
    · next hzero =>
      split at hrest
      · cases hrest
      next hlimit =>
      rw [bind_eq_ok] at hrest
      obtain ⟨data, c2, hdata, hrest⟩ := hrest
      rw [bind_eq_ok] at hrest
      obtain ⟨crlf, c3, hcrlf, hrest⟩ := hrest
      rw [mapErr_eq_ok, readExact_eq_ok] at hdata hcrlf
      obtain ⟨rfl, hdata, hc2⟩ := hdata
      obtain ⟨hcrlf, hc2', hc3⟩ := hcrlf
      obtain ⟨cut, rfl, hfits, ht⟩ := ih (by unfold fits; rw [length_append]; exact Nat.not_lt.mp hlimit) hrest
      have hend3 : c3.ending = c.ending := by rw [hc3, hc2, hend]
      rw [hdata, hc2'] at hl ⊢
      have hnames := chunkSize_iff.mp hsize
      exact ⟨{ cut with chunks := ⟨line, data, crlf⟩ :: cut.chunks }, append_assoc .., hfits,
        .chunk hl hs hnames (fun h0 => hzero (by rw [h0]; rfl)) hnames.le hcrlf (hend3 ▸ ht)⟩

/-- A body that is within the limit is read; a larger one is found too large. -/
theorem readChunkedLoop_of_cuts {ending : Ending} {cut : ChunkCut} {most fuel : Nat} {rest : Bytes} (limit : Nat) (body : Bytes)
    (h : CutsChunks ending most cut input rest) (hin : c.input = input) (hend : c.ending = ending) (hfuel : input.length < fuel)
    (hbody : fits limit body.length) :
    ∃ d, (fits limit (body ++ cut.data).length → readChunkedLoop limit fuel body c = (.ok (some (body ++ cut.data)), d) ∧
        d.input = rest) ∧
      (¬fits limit (body ++ cut.data).length → readChunkedLoop limit fuel body c = (.ok none, d)) := by
  rcases fuel with _ | fuel
  · omega
  induction h generalizing c fuel body with
  | @last lines line final input rest s hl hs hsize ht =>
    obtain ⟨c1, hline, hc1, hend1⟩ := readLine_takes hin (hend ▸ hl) hs
    obtain ⟨d, hskip, hd⟩ := skipTrailers_of_cuts ht hc1 (hend1.trans hend) (Nat.lt_succ_self _)
    rw [ChunkCut.data, flatMap_nil, append_nil]
    refine ⟨d, fun _ => ⟨?_, hd⟩, fun hnot => absurd hbody hnot⟩
    rw [readChunkedLoop, bind_of_ok (mapErr_eq_ok.mpr hline)]
    simp only [chunkSize_iff.mpr hsize, if_neg (length_of_namesSize hs hsize), if_true]
    rw [bind_of_ok (get_apply c1), bind_of_ok (by rw [hc1]; exact hskip)]
    rfl
  | @chunk cut line data gap input rest s hl hs hsize hne _ hgap _ ih =>
    obtain ⟨c1, hline, hc1, hend1⟩ := readLine_takes hin (hend ▸ hl) hs
    rw [readChunkedLoop, bind_of_ok (mapErr_eq_ok.mpr hline)]
    simp only [chunkSize_iff.mpr hsize, Task.ite_apply, if_neg (length_of_namesSize hs hsize), if_neg (mt length_eq_zero_iff.mp hne)]
    rw [ChunkCut.data_chunk, ← append_assoc]
    by_cases hfits : fits limit (body ++ data).length
    · rw [if_neg (by rw [← length_append]; exact Nat.not_lt.mpr hfits), bind_of_ok (mapErr_eq_ok.mpr (readExact_append hc1)), ← hgap,
        bind_of_ok (mapErr_eq_ok.mpr (readExact_append rfl))]
      simp only [length_append] at hfuel
      rcases fuel with _ | fuel
      · omega
      exact ih (c := { c1 with input := input }) (body ++ data) rfl (hend1.trans hend) hfits fuel (by omega)
    · rw [if_pos (by rw [← length_append]; exact Nat.not_le.mp hfits)]
      refine ⟨c1, fun h => absurd h (fun h => hfits ?_), fun _ => rfl⟩
      rw [length_append] at h
      omega

/-- A body that has been read is the one its framing delimits, unless nothing is left. -/
theorem readBody_ok {chunked : Bool} {contentLength : Option Nat} {b : Bytes}
    (h : readBody config chunked contentLength c = (.ok (some b), d)) :
    ∃ t, c.input = t ++ d.input ∧ (t = [] → (bodyFraming chunked contentLength).isNothing = true) ∧
      (Delimits (bodyFraming chunked contentLength) t ∨ d.input = []) := by
  unfold readBody at h
  cases chunked with
  | true =>
    simp only [if_true] at h ⊢
    rw [timeout_eq_ok, readChunkedBody] at h
    obtain ⟨cut, -, -, hcuts⟩ := readChunkedLoop_cuts (Nat.zero_le _) h
    obtain ⟨t, hin, hlt, hcoding⟩ := hcuts.coding
    refine ⟨t, hin, fun hnil => ?_, hcoding.imp And.right (fun hcut => hcut.2.2)⟩
    rw [hnil] at hlt
    cases hlt
  | false =>
    simp only [Bool.false_eq_true, if_false] at h ⊢
    rcases contentLength with _ | len
    · obtain ⟨-, rfl⟩ := h
      exact ⟨[], rfl, fun _ => rfl, .inl rfl⟩
    · simp only [Task.ite_apply] at h
      split at h
      · cases h
      · rw [bind_eq_ok] at h
        obtain ⟨buf, c1, hread, hpure⟩ := h
        obtain rfl : c1 = d := (Prod.mk.inj hpure).2
        rw [timeout_eq_ok, mapErr_eq_ok, readExact_eq_ok] at hread
        refine ⟨buf, hread.2.1, fun hnil => ?_, .inl hread.1⟩
        rw [← hread.1, hnil]
        rfl

/-- At the end of the stream a body is read exactly if there is none. -/
theorem readBody_nil {chunked : Bool} {contentLength : Option Nat} (hin : c.input = []) :
    (∃ b d, readBody config chunked contentLength c = (.ok (some b), d)) ↔ (bodyFraming chunked contentLength).isNothing = true := by
  constructor
  · rintro ⟨b, d, h⟩
    obtain ⟨t, ht, hnothing, -⟩ := readBody_ok h
    exact hnothing (append_eq_nil_iff.mp (ht.symm.trans hin)).1
  · intro h
    rcases chunked with _ | _
    · rcases contentLength with _ | _ | len
      · exact ⟨[], c, rfl⟩
      · have hread : Conn.readExact 0 c = (.ok [], c) := readExact_eq_ok.mpr ⟨rfl, rfl, rfl⟩
        refine ⟨[], c, ?_⟩
        unfold readBody
        simp only [Bool.false_eq_true, if_false, if_neg (Nat.not_lt_zero _)]
        rw [bind_of_ok (timeout_eq_ok.mpr (mapErr_eq_ok.mpr hread))]
        rfl
      · cases h
    · cases h

/-! ## Heads -/

/-- A length that is found fits all `Content-Length` fields. -/
theorem HeaderMap.contentLengthLoop_ok {seen r : Option Nat} {entries : List (Str × Str)}
    (h : HeaderMap.contentLengthLoop seen entries = .ok r) :
    (∀ v ∈ valuesOf "content-length".toList entries, HeaderMap.parseLength v = r ∧ r ≠ none) ∧
      (r = seen ∨ seen = none ∧ valuesOf "content-length".toList entries ≠ []) := by
  induction entries generalizing seen with
  | nil =>
    cases h
    exact ⟨fun v hv => absurd hv not_mem_nil, .inl rfl⟩
  | cons e entries ih =>
    obtain ⟨k, v⟩ := e
    rw [HeaderMap.contentLengthLoop] at h
    by_cases hk : eqIgnoreAsciiCase k "content-length".toList = true
    · rw [if_pos hk] at h
      rw [valuesOf_cons, if_pos hk]
      rcases hv : HeaderMap.parseLength v with _ | n <;> simp only [hv] at h
      · cases h
      -- the length is the one found before, if there is one
      obtain ⟨hrest, hseen⟩ : HeaderMap.contentLengthLoop (some n) entries = .ok r ∧ (some n = seen ∨ seen = none) := by
        rcases seen with _ | prev <;> simp only at h
        · exact ⟨h, .inr rfl⟩
        · split at h
          · cases h
          · next hp => exact ⟨h, .inl (by rw [not_not.mp hp])⟩
      obtain ⟨hall, rfl | ⟨hn, -⟩⟩ := ih hrest
      · exact ⟨forall_mem_cons.mpr ⟨⟨hv, Option.some_ne_none n⟩, hall⟩, hseen.imp_right (fun hnone => ⟨hnone, cons_ne_nil _ _⟩)⟩
      · cases hn
    · rw [if_neg hk] at h
      rw [valuesOf_cons, if_neg hk]
      exact ih h

/-- The length decided on: none when there is no field, otherwise the one that every field has. -/
theorem HeaderMap.contentLengthChecked_ok {r : Option Nat} (hr : h.contentLengthChecked = .ok r) :
    lengthsClash h.contentLengths = false ∧ (r = none ↔ h.contentLengths = []) ∧
      ∀ v ∈ h.contentLengths, HeaderMap.parseLength v = r := by
  obtain ⟨hall, hseen⟩ := HeaderMap.contentLengthLoop_ok hr
  replace hall : ∀ v ∈ h.contentLengths, HeaderMap.parseLength v = r ∧ r ≠ none := hall
  refine ⟨?_, ⟨fun hnone => ?_, fun hnil => hseen.resolve_right (fun h => h.2 hnil)⟩, fun v hv => (hall v hv).1⟩
  · rcases hl : h.contentLengths with _ | ⟨v, vs⟩
    · rfl
    · rw [hl] at hall
      obtain ⟨⟨hv, hne⟩, hvs⟩ := forall_mem_cons.mp hall
      rw [lengthsClash, hv, Option.isNone_eq_false_iff.mpr (Option.isSome_iff_ne_none.mpr hne), Bool.false_or, any_eq_false]
      exact fun w hw => by simp [(hvs w hw).1]
  · rw [eq_nil_iff_forall_not_mem]
    exact fun v hv => (hall v hv).2 hnone

/-- A head is not read from nothing, and its values are trimmed. -/
theorem readRequestHead_ok (h : readRequestHead c = (.ok head, d)) : c.input ≠ [] ∧ head.headers.Trimmed := by
  obtain ⟨l, c1, _, _, _, hread, -, hne, -, -, hheaders⟩ := readRequestHead_eq_ok.mp h
  refine ⟨fun hnil => hne ?_, readHeadersLoop_trimmed (fun e he => absurd he not_mem_nil) hheaders⟩
  rcases readUntilNewline_eq_ok.mp hread with ⟨-, hin, -⟩ | ⟨-, hin, -⟩
  · exact (append_eq_nil_iff.mp (hin.symm.trans hnil)).1
  · exact hin.symm.trans hnil

theorem HeaderMap.Accepts.unique {g : BodyFraming} (hf : h.Accepts f) (hg : h.Accepts g) : f = g := by
  obtain ⟨r, hr, -, rfl⟩ := hf
  obtain ⟨s, hs, -, rfl⟩ := hg
  cases hr.symm.trans hs
  rfl

/-- The framings the guard lets pass under an unambiguous head. -/
theorem accepts_cases (hclear : h.framing.isUnambiguous = true) (htrim : h.Trimmed) (hf : h.Accepts f) :
    (f = .chunked ∧ h.framing.endsChunked = true ∧ h.framing.contentLengths = []) ∨
      (∃ n, f = .length n ∧ h.framing.transferEncodings = [] ∧ h.framing.ClearLength n) ∨
      (f = .empty ∧ h.framing.transferEncodings = [] ∧ h.framing.contentLengths = []) := by
  obtain ⟨r, hlen, hboth, rfl⟩ := hf
  obtain ⟨hclash, hnone, hall⟩ := HeaderMap.contentLengthChecked_ok hlen
  rw [FramingFields.isUnambiguous, show lengthsClash h.framing.contentLengths = false from hclash, Bool.false_or] at hclear
  have hchunked : h.isChunked = h.framing.transferEncodings.head?.any mentionsChunked := h.isChunked_eq
  rcases hte : h.framing.transferEncodings with _ | ⟨v, vs⟩
  · rw [hte] at hclear hchunked
    rw [hchunked]
    rcases r with _ | n
    · exact .inr (.inr ⟨rfl, rfl, hnone.mp rfl⟩)
    · refine .inr (.inl ⟨n, rfl, rfl, fun hnil => Option.some_ne_none n (hnone.mpr hnil), fun v hv => ?_⟩)
      have hsign : v.head? ≠ some '+' := by simpa using all_eq_true.mp hclear v hv
      obtain ⟨e, he, rfl⟩ := mem_map.mp hv
      exact isPlainNumber_of_parseLength (htrim e (mem_filter.mp he).1) hsign (hall _ hv)
  · rw [hte] at hclear hchunked
    simp only [Bool.and_eq_true, head?_cons, Option.any_some] at hclear hchunked
    rw [hclear.1] at hchunked
    rw [hchunked, Bool.true_and, Bool.not_eq_true, Option.isSome_eq_false_iff, Option.isNone_iff_eq_none] at hboth
    subst hboth
    have hnil : h.framing.contentLengths = [] := hnone.mp rfl
    exact .inl ⟨by rw [hchunked]; rfl, by simpa [hnil] using hclear.2, hnil⟩

/-- Under an unambiguous head, what the framing delimits is the body. -/
theorem messageBody_of_delimits {body : Bytes} (hclear : h.framing.isUnambiguous = true) (htrim : h.Trimmed) (hf : h.Accepts f)
    (hbody : Delimits f body) : MessageBody h.framing body := by
  rcases accepts_cases hclear htrim hf with ⟨rfl, hends, hnil⟩ | ⟨n, rfl, hte, hn⟩ | ⟨rfl, hte, hnil⟩
  · exact .chunked hends hnil hbody
  · exact .length hte hn hbody
  · exact .none hte hnil hbody

/-! ## One request -/

/-- A task on the connection leaves the notes alone. -/
theorem onConn_eq {α : Type} {p : Task Conn HttpError α} {t : ServerConn} {r : Except (Fault HttpError) α}
    (h : onConn p s = (r, t)) : p s.conn = (r, t.conn) ∧ t.notes = s.notes := by
  obtain ⟨h1, h2⟩ := Prod.mk.inj h
  exact ⟨Prod.ext h1 (by rw [← h2]), by rw [← h2]⟩

/-- The request has been refused with a `400`. -/
def Exchange.Refused (x : Exchange) : Prop := x.framing = none ∧ x.request = none ∧ x.reply = some .BAD_REQUEST

/-- At the end of the stream the handler gets a request exactly if its framing leaves nothing to read. -/
def Exchange.Asks (x : Exchange) : Prop :=
  x.afterHead = [] → (x.request ≠ none ↔ ∃ f, x.head.headers.Accepts f ∧ f.isNothing = true)

/-- How the note on a request is completed, and what is left of the input if the connection may go on. -/
def Handled (x : Exchange) (ns : List Exchange) (out : Except (Fault HttpError) Bool × ServerConn) : Prop :=
  ∃ y, out.2.notes = y :: ns ∧ y.start = x.start ∧ y.head = x.head ∧ y.afterHead = x.afterHead ∧ y.Asks ∧
    (y.Refused ∧ out.1 ≠ .ok true ∨
      ∃ f, x.head.headers.Accepts f ∧ y.framing = some f ∧
        (out.1 = .ok true → ∃ body, x.afterHead = body ++ out.2.conn.input ∧ (Delimits f body ∨ out.2.conn.input = [])))

/-- How the note on a request with framing `f` is completed, and what is left of the input if the connection may go on. -/
def Completed (x : Exchange) (f : BodyFraming) (ns : List Exchange) (out : Except (Fault HttpError) Bool × ServerConn) : Prop :=
  ∃ y, out.2.notes = y :: ns ∧ y.start = x.start ∧ y.head = x.head ∧ y.afterHead = x.afterHead ∧ y.framing = some f ∧
    (x.afterHead = [] → (y.request ≠ none ↔ f.isNothing = true)) ∧
    (out.1 = .ok true → ∃ body, x.afterHead = body ++ out.2.conn.input ∧ (Delimits f body ∨ out.2.conn.input = []))

variable (resp : HttpResponse) (method : Method)

theorem answer_snd (keep : Bool) (s : ServerConn) :
    (answer resp method keep s).2.notes = s.notes.modifyHead (fun x => { x with reply := some resp.status }) ∧
      (answer resp method keep s).2.conn.input = s.conn.input := by
  have hwrite : (writeResponse resp method keep s.conn).2.input = s.conn.input := by
    refine bind_post (P := fun out => Conn.input out.2 = s.conn.input) (fun e c' h => ?_) (fun _ c' h => ?_)
    all_goals have hc' : c'.input = s.conn.input := by simpa using (congrArg (fun out => out.2.input) h).symm
    · exact hc'
    · simpa using hc'
  exact ⟨rfl, hwrite⟩

variable {out : Except (Fault HttpError) Bool × ServerConn}

/-- An answer and a result: the status is noted, the input is left alone. -/
theorem answer_pure (keep b : Bool) (hnotes : s.notes = x :: ns) (hout : (answer resp method keep >>= fun _ => pure b) s = out) :
    out.2.notes = { x with reply := some resp.status } :: ns ∧ out.2.conn.input = s.conn.input ∧ (out.1 = .ok true → b = true) := by
  subst hout
  have hans := answer_snd resp method keep s
  rw [hnotes] at hans
  refine bind_post (P := fun out => ServerConn.notes out.2 = { x with reply := some resp.status } :: ns ∧
    out.2.conn.input = s.conn.input ∧ (out.1 = .ok true → b = true)) (fun e s' h => ?_) (fun _ s' h => ?_)
  · rw [h] at hans
    exact ⟨hans.1, hans.2, nofun⟩
  · rw [h] at hans
    exact ⟨hans.1, hans.2, fun hc => Except.ok.inj hc⟩

/-- A refusal: the connection does not go on. -/
theorem handled_refuse {resp : HttpResponse} (hnotes : s.notes = x :: ns) (hx : x.framing = none ∧ x.request = none)
    (hresp : resp.status = .BAD_REQUEST) (hno : ∀ f, ¬x.head.headers.Accepts f) :
    Handled x ns ((answer resp method false >>= fun _ => pure false) s) := by
  obtain ⟨hn, -, hok⟩ := answer_pure resp method false false hnotes rfl
  refine ⟨_, hn, rfl, rfl, rfl, fun _ => ?_, .inl ⟨⟨hx.1, hx.2, by rw [hresp]⟩, fun hc => ?_⟩⟩
  · exact iff_of_false (fun hne => hne hx.2) (fun ⟨f, hf, _⟩ => hno f hf)
  · exact absurd (hok hc) Bool.false_ne_true

theorem sendContinue_snd (headers : HeaderMap) (expectsBody : Bool) (s : ServerConn) :
    (sendContinue headers expectsBody s).2.notes = s.notes ∧ (sendContinue headers expectsBody s).2.conn.input = s.conn.input := by
  unfold sendContinue
  split
  · refine ⟨rfl, ?_⟩
    simp [onConn]
  · exact ⟨rfl, rfl⟩

/-- The answer leaves the input and completes the latest note, which keeps its head and framing. -/
theorem respond_snd {handler : Nat → Request → HttpResponse} {served : Nat} {read : Option Bytes} (hnotes : s.notes = x :: ns)
    (hx : x.request = none) (hout : respond config handler head served read s = out) :
    (∃ req reply, out.2.notes = { x with request := req, reply := reply } :: ns ∧ (req ≠ none ↔ read ≠ none)) ∧
      out.2.conn.input = s.conn.input ∧ (out.1 = .ok true → read ≠ none) := by
  rcases read with _ | body
  · obtain ⟨hn, hin, hok⟩ := answer_pure _ _ _ _ hnotes hout
    exact ⟨⟨_, _, hn, by simp [hx]⟩, hin, fun hc => absurd (hok hc) Bool.false_ne_true⟩
  · have hnotes' : (s.notes.modifyHead fun x => { x with request := some (serverRequest head body) }) =
        { x with request := some (serverRequest head body) } :: ns := by
      rw [hnotes]
      rfl
    obtain ⟨hn, hin, -⟩ := answer_pure _ _ _ _ hnotes' hout
    exact ⟨⟨_, _, hn, iff_of_true (Option.some_ne_none _) (Option.some_ne_none _)⟩, hin, fun _ => Option.some_ne_none _⟩

theorem sendContinue_nothing {r : Option Nat} (headers : HeaderMap) (h : (bodyFraming headers.isChunked r).isNothing = true)
    (s : ServerConn) : sendContinue headers (headers.isChunked || decide (r.getD 0 > 0)) s = (.ok (), s) := by
  have hno : (headers.isChunked || decide (r.getD 0 > 0)) = false := by
    rcases hc : headers.isChunked with _ | _
    · rcases r with _ | _ | n <;> simp_all [bodyFraming, BodyFraming.isNothing]
    · simp [hc, bodyFraming, BodyFraming.isNothing] at h
  rw [hno]
  rfl

/-- What becomes of a request whose head has been noted and whose framing is decided. -/
theorem handleOne_accepted (config : ServerConfig) (handler : Nat → Request → HttpResponse) (served : Nat) {r : Option Nat}
    (hnotes : s.notes = x :: ns) (hx : x.request = none) (hin : x.afterHead = s.conn.input)
    (hlen : x.head.headers.contentLengthChecked = .ok r) (hclash : ¬(x.head.headers.isChunked && r.isSome) = true) :
    Completed x (bodyFraming x.head.headers.isChunked r) ns (handleOne config handler x.head served s) := by
  rw [handleOne, hlen]
  simp only [if_neg hclash]
  rw [note, bind_of_ok (modify_apply _)]
  -- from here on the note holds the framing, and its head stays
  have hnotes' : (s.notes.modifyHead fun y => { y with framing := some (bodyFraming x.head.headers.isChunked r) }) =
      { x with framing := some (bodyFraming x.head.headers.isChunked r) } :: ns := by
    rw [hnotes]
    rfl
  have hnone : ¬(bodyFraming x.head.headers.isChunked r).isNothing = true →
      (x.request ≠ none ↔ (bodyFraming x.head.headers.isChunked r).isNothing = true) :=
    fun hsome => iff_of_false (fun hne => hne hx) hsome
  refine bind_post (fun e s1 h1 => ?_) (fun _ s1 h1 => ?_)
  all_goals
    have hcont := sendContinue_snd x.head.headers (x.head.headers.isChunked || decide (r.getD 0 > 0))
      { s with notes := s.notes.modifyHead fun y => { y with framing := some (bodyFraming x.head.headers.isChunked r) } }
    rw [h1] at hcont
  · refine ⟨_, hcont.1.trans hnotes', rfl, rfl, rfl, rfl, fun _ => hnone (fun hnothing => ?_), nofun⟩
    cases h1.symm.trans (sendContinue_nothing x.head.headers hnothing _)
  have hafter : x.afterHead = s1.conn.input := hin.trans hcont.2.symm
  have hbody := @readBody_nil s1.conn config x.head.headers.isChunked r
  rw [← hafter] at hbody
  refine bind_post (fun e s2 h2 => ?_) (fun read s2 h2 => ?_)
  all_goals obtain ⟨hread, hs2⟩ := onConn_eq h2
  · refine ⟨_, hs2.trans (hcont.1.trans hnotes'), rfl, rfl, rfl, rfl, fun hnil => hnone (fun hnothing => ?_), nofun⟩
    obtain ⟨b, d, hok⟩ := (hbody hnil).mpr hnothing
    cases hok.symm.trans hread
  obtain ⟨⟨req, reply, hn, hreq⟩, hin2, hok⟩ := respond_snd (hs2.trans (hcont.1.trans hnotes')) hx rfl
  refine ⟨_, hn, rfl, rfl, rfl, rfl, fun hnil => ?_, fun hc => ?_⟩
  · refine hreq.trans ⟨fun hne => ?_, fun hnothing => ?_⟩
    · obtain ⟨b, rfl⟩ := Option.ne_none_iff_exists'.mp hne
      exact (hbody hnil).mp ⟨b, _, hread⟩
    · obtain ⟨b, d, hok⟩ := (hbody hnil).mpr hnothing
      cases hok.symm.trans hread
      exact Option.some_ne_none b
  · obtain ⟨b, rfl⟩ := Option.ne_none_iff_exists'.mp (hok hc)
    rw [hin2, hafter]
    obtain ⟨t, ht, -, hdelim⟩ := readBody_ok hread
    exact ⟨t, ht, hdelim⟩

/-- What becomes of a request whose head has been noted. -/
theorem handleOne_handled (config : ServerConfig) (handler : Nat → Request → HttpResponse) (served : Nat)
    (hnotes : s.notes = x :: ns) (hx : x.framing = none ∧ x.request = none) (hin : x.afterHead = s.conn.input) :
    Handled x ns (handleOne config handler x.head served s) := by
  rcases hlen : x.head.headers.contentLengthChecked with e | r
  · rw [handleOne, hlen]
    refine handled_refuse x.head.method hnotes hx rfl (fun f ⟨r, hr, _⟩ => ?_)
    cases hlen.symm.trans hr
  by_cases hclash : (x.head.headers.isChunked && r.isSome) = true
  · rw [handleOne, hlen]
    simp only [if_pos hclash]
    refine handled_refuse x.head.method hnotes hx rfl (fun f ⟨r', hr, hno, _⟩ => ?_)
    cases hlen.symm.trans hr
    exact hno hclash
  · obtain ⟨y, hy, hstart, hhead, hafter, hframing, hasks, hgo⟩ := handleOne_accepted config handler served hnotes hx.2 hin hlen hclash
    have hf : x.head.headers.Accepts (bodyFraming x.head.headers.isChunked r) := ⟨r, hlen, hclash, rfl⟩
    refine ⟨y, hy, hstart, hhead, hafter, fun hnil => (hasks (hafter ▸ hnil)).trans ?_, .inr ⟨_, hf, hframing, hgo⟩⟩
    rw [hhead]
    exact ⟨fun hnothing => ⟨_, hf, hnothing⟩, fun ⟨g, hg, hnothing⟩ => hf.unique hg ▸ hnothing⟩

/-! ## The connection -/

/-- The head of a request has been read between the input before it and after it. -/
def Exchange.Read (x : Exchange) : Prop :=
  ∃ c d, c.input = x.start ∧ readRequestHead c = (.ok x.head, d) ∧ d.input = x.afterHead

/-- A request whose head has been read, and what has become of it at the end of the stream. -/
structure Exchange.Taken (x : Exchange) : Prop where
  read : x.Read
  asks : x.Asks

theorem Exchange.Read.ok (h : x.Read) : x.start ≠ [] ∧ x.head.headers.Trimmed := by
  obtain ⟨c, d, hstart, hread, -⟩ := h
  rw [← hstart]
  exact readRequestHead_ok hread

/-- The lines of a head by its bytes: what the server reads of them. -/
theorem Exchange.Read.lines (h : x.Read) : x.head.headers = addLines HeaderMap.new ((splitLines x.start).tail.takeWhile isField) ∧
      x.afterHead = ((splitLines x.start).tail.dropWhile isField).tail.flatten := by
  obtain ⟨c, d, hstart, hread, hafter⟩ := h
  obtain ⟨l, c1, _, _, _, hline, -, hne, -, -, hheaders⟩ := readRequestHead_eq_ok.mp hread
  rw [← hstart, ← hafter, (splitLines_read hline).2 hne, tail_cons]
  exact readHeadersLoop_splitLines hheaders

/-- A head whose lines are read as they stand. -/
theorem Exchange.Read.alike (h : x.Read) (hclear : isClearHead x.start = true) :
    wireFraming x.start = x.head.headers.framing ∧ afterEmptyLine x.start = x.afterHead := by
  have halike := all_eq_true.mp (Bool.and_eq_true_iff.mp hclear).1
  obtain ⟨hhead, hafter⟩ := h.lines
  obtain ⟨htake, hdrop⟩ := takeWhile_isField halike
  rw [htake] at hhead
  rw [hdrop] at hafter
  rw [hhead, hafter]
  exact ⟨(addLines_framing halike HeaderMap.new).symm, rfl⟩

/-- The requests of a connection, from the input on that each head is read from. -/
inductive Serves : Bytes → List Exchange → Prop where
  | done (input : Bytes) : Serves input []
  | refused {x : Exchange} : x.Taken → x.Refused → Serves x.start [x]
  | closed {x : Exchange} {f : BodyFraming} : x.Taken → x.head.headers.Accepts f → x.framing = some f → Serves x.start [x]
  | next {x : Exchange} {f : BodyFraming} {body rest : Bytes} {xs : List Exchange} : x.Taken → x.head.headers.Accepts f →
      x.framing = some f → x.afterHead = body ++ rest → Delimits f body ∨ rest = [] → Serves rest xs → Serves x.start (x :: xs)

theorem Serves.taken (h : Serves input xs) : ∀ x ∈ xs, x.Taken := by
  induction h with
  | done => exact fun x hx => absurd hx not_mem_nil
  | refused htaken | closed htaken => exact forall_mem_singleton.mpr htaken
  | next htaken _ _ _ _ _ ih => exact forall_mem_cons.mpr ⟨htaken, ih⟩

/-- A request the guard lets pass is framed by its head. -/
theorem framed_of_accepts {after : List Exchange} (hclear : isClearHead x.start = true) (hread : x.Read)
    (hf : x.head.headers.Accepts f) (hframing : x.framing = some f)
    (hnext : ∀ y, after.head? = some y → ∃ body, x.afterHead = body ++ y.start ∧ Delimits f body) : Framed x after := by
  obtain ⟨hwire, hafter⟩ := hread.alike hclear
  have hunambiguous := (Bool.and_eq_true_iff.mp hclear).2
  rw [hwire] at hunambiguous
  have hcases := accepts_cases hunambiguous hread.ok.2 hf
  refine { encoded := fun hte => ?_, length := fun n hn => ?_, next := fun y hy => ?_, chunks := fun hn y hy data used rest hused hbody => ?_ }
  · rw [hwire] at hte ⊢
    rcases hcases with ⟨rfl, hends, hnil⟩ | ⟨n, rfl, hte', -⟩ | ⟨rfl, hte', -⟩
    · exact .inl ⟨hframing, hends, hnil⟩
    · exact absurd hte' hte
    · exact absurd hte' hte
  · obtain rfl : f = .length n := Option.some.inj (hframing.symm.trans hn)
    rw [hwire]
    rcases hcases with ⟨hc, -⟩ | ⟨m, hm, hte, hlength⟩ | ⟨hc, -⟩
    · cases hc
    · cases hm
      exact ⟨hte, hlength⟩
    · cases hc
  · obtain ⟨body, hbody, hdelim⟩ := hnext y hy
    rw [hwire, hafter]
    exact ⟨body, hbody, messageBody_of_delimits hunambiguous hread.ok.2 hf hdelim⟩
  · obtain rfl : f = .chunked := Option.some.inj (hframing.symm.trans hn)
    obtain ⟨coded, hcoded, hcoding⟩ := hnext y hy
    rw [hafter, hcoded] at hused
    exact (hcoding.eq_body hbody hused).2.symm

/-- The first request of the rest starts where the rest starts, and there is none without input. -/
theorem Serves.start_eq {y : Exchange} (h : Serves input xs) (hy : xs.head? = some y) : y.start = input ∧ input ≠ [] := by
  cases h with
  | done => cases hy
  | refused htaken | closed htaken | next htaken => cases hy; exact ⟨rfl, htaken.read.ok.1⟩

/-- Where all heads are clear, every request is framed by its head. -/
theorem Serves.framed {y : Exchange} {after : List Exchange} (h : Serves input xs)
    (hclear : ∀ x ∈ xs, isClearHead x.start = true) (hy : y :: after <:+ xs) : Framed y after := by
  induction h with
  | done => cases suffix_nil.mp hy
  | @refused x _ hrefused =>
    rcases suffix_cons_iff.mp hy with hy | hy
    · cases hy
      exact { encoded := fun _ => .inr ⟨hrefused.2.1, ⟨_, hrefused.2.2, by decide⟩, rfl⟩
              length := fun n hn => by rw [hrefused.1] at hn; cases hn
              next := fun y hy => by cases hy
              chunks := fun hn => by rw [hrefused.1] at hn; cases hn }
    · cases suffix_nil.mp hy
  | @closed x f htaken hf hframing =>
    rcases suffix_cons_iff.mp hy with hy | hy
    · cases hy
      exact framed_of_accepts (hclear y mem_cons_self) htaken.read hf hframing (fun y hy => by cases hy)
    · cases suffix_nil.mp hy
  | @next x f body rest xs htaken hf hframing hbody hdelim hrest ih =>
    rcases suffix_cons_iff.mp hy with hy | hy
    · cases hy
      refine framed_of_accepts (hclear y mem_cons_self) htaken.read hf hframing (fun y hy => ?_)
      obtain ⟨hstart, hrest'⟩ := hrest.start_eq hy
      rw [hstart]
      exact ⟨body, hbody, hdelim.resolve_right hrest'⟩
    · exact ih (forall_mem_cons.mp hclear).2 hy

/-- What is noted on a connection: requests that follow one another. -/
def Served (s : ServerConn) (out : Except (Fault HttpError) Unit × ServerConn) : Prop :=
  ∃ xs, out.2.notes = xs.reverse ++ s.notes ∧ Serves s.conn.input xs

theorem serveLoop_serves (config : ServerConfig) (handler : Nat → Request → HttpResponse) (drained : Nat → Bool) (fuel served : Nat)
    (s : ServerConn) : Served s (serveLoop config handler drained fuel served s) := by
  induction fuel generalizing served s with
  | zero => exact ⟨[], rfl, .done _⟩
  | succ fuel ih =>
    rw [serveLoop]
    split
    · exact ⟨[], rfl, .done _⟩
    have hnotes : ∀ r t, ((onConn (readRequestHead.timeout .timeout)).attempt : Task ServerConn HttpError _) s = (r, t) →
        t.notes = s.notes := by
      intro r t ht
      have := congrArg (fun out => out.2.notes) ht
      simpa [onConn] using this.symm
    rw [bind_of_ok (get_apply s)]
    refine bind_post (fun e s1 hread => ⟨[], hnotes _ _ hread, .done _⟩) (fun r s1 hread => ?_)
    have hs1 := hnotes _ _ hread
    rcases r with e | head
    · exact ⟨[], hs1, .done _⟩
    obtain ⟨hhead, -⟩ := onConn_eq (attempt_eq_ok_ok.mp hread)
    simp only
    rw [bind_of_ok (modify_apply _), bind_apply]
    have hhandled := handleOne_handled config handler (served + 1)
      (s := { s1 with notes := ⟨s.conn.input, head, s1.conn.input, none, none, none⟩ :: s1.notes }) rfl ⟨rfl, rfl⟩ rfl
    rcases hone : handleOne config handler head (served + 1)
      { s1 with notes := ⟨s.conn.input, head, s1.conn.input, none, none, none⟩ :: s1.notes } with ⟨r, s2⟩
    rw [hone] at hhandled
    obtain ⟨y, hy, hstart, hyhead, hafter, hasks, hcase⟩ := hhandled
    simp only at hy hstart hyhead hafter hcase
    have hytaken : y.Taken := ⟨⟨s.conn, s1.conn, hstart.symm, by rw [hyhead]; exact timeout_eq_ok.mp hhead, hafter.symm⟩, hasks⟩
    have hstop : s2.notes = [y].reverse ++ s.notes := by rw [hy, hs1]; rfl
    have hlast : ∀ r : Except (Fault HttpError) Unit, Served s (r, s2) := by
      intro r
      refine ⟨[y], hstop, ?_⟩
      rw [← hstart]
      rcases hcase with ⟨hrefused, -⟩ | ⟨f, hf, hframing, -⟩
      · exact .refused hytaken hrefused
      · exact .closed hytaken (by rw [hyhead]; exact hf) hframing
    rcases r with e | b
    · exact hlast _
    simp only [Task.ite_apply]
    split
    · next hgo =>
      obtain rfl : b = true := (Bool.and_eq_true_iff.mp hgo).1
      obtain ⟨xs, hxs, hserves⟩ := ih (served + 1) s2
      refine ⟨y :: xs, by rw [hxs, hstop]; simp, ?_⟩
      rw [← hstart]
      rcases hcase with ⟨-, hno⟩ | ⟨f, hf, hframing, hgo⟩
      · exact absurd rfl hno
      · obtain ⟨body, hbody, hdelim⟩ := hgo rfl
        exact .next hytaken (by rw [hyhead]; exact hf) hframing (hafter.trans hbody) hdelim hserves
    · exact hlast _

/-- The requests of a connection follow one another as `Serves` says. -/
theorem serveConn_serves (handler : Nat → Request → HttpResponse) (drained : Nat → Bool) (conn : Conn) :
    Serves conn.input (serveConn config handler drained conn).2.2 := by
  obtain ⟨xs, hxs, hserves⟩ := serveLoop_serves config handler drained (config.maxKeepAliveRequests + 1) 0 ⟨conn, []⟩
  unfold serveConn
  rw [append_nil] at hxs
  simp only [hxs, reverse_reverse]
  exact hserves

end Ferroly.Http
