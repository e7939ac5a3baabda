import Ferroly.Lemmas.HttpServer

/-!
# Request framing

The server takes the requests of a connection one after the other from one stream of bytes. Where the bytes of every head are clear,
each request is framed by its head and none starts inside the body of another. The server looks at the first
`Transfer-Encoding` field only, and for the text `chunked` anywhere in it, so other heads can make it take the body of one request
for the next request. It also takes the end of the stream for the end of a line and of the fields, so a head cut short is served.
-/

namespace Ferroly.Http

open List

/-- On every connection where each request is read from input that begins with a clear head, every request is framed by its head. -/
theorem serveConn_framed (config : ServerConfig) (handler : Nat → Request → HttpResponse) (drained : Nat → Bool) (conn : Conn)
    (hclear : ∀ x ∈ (serveConn config handler drained conn).2.2, isClearHead x.start = true) :
    ∀ before x after, (serveConn config handler drained conn).2.2 = before ++ x :: after → Framed x after :=
  fun before _ _ hxs => (serveConn_serves handler drained conn).framed hclear ⟨before, hxs.symm⟩

/-! ## Two connections -/

def sampleConfig : ServerConfig := ⟨1024, 10⟩

def sampleHandler (_ : Nat) (_ : Request) : HttpResponse := HttpResponse.new .OK

/-- A connection with some input, at the end of which it is closed. -/
def sampleConn (input : Str) : Conn := ⟨utf8 input, .eof, [], false, [], none, none⟩

/-- A request with a body in chunked coding, and one with a length. -/
def clearInput : Str :=
  "POST /a HTTP/1.1\r\nTransfer-Encoding: gzip, chunked\r\n\r\n3\r\nabc\r\n0\r\n\r\nPOST /b HTTP/1.1\r\nContent-Length: 2\r\n\r\nhi".toList

theorem serveConn_framed_clearInput :
    (serveConn sampleConfig sampleHandler (fun _ => false) (sampleConn clearInput)).2.2.length = 2 ∧
      ∀ before x after, (serveConn sampleConfig sampleHandler (fun _ => false) (sampleConn clearInput)).2.2 =
        before ++ x :: after → Framed x after := by
  obtain ⟨htwo, hclear⟩ : (serveConn sampleConfig sampleHandler (fun _ => false) (sampleConn clearInput)).2.2.length = 2 ∧
      ∀ x ∈ (serveConn sampleConfig sampleHandler (fun _ => false) (sampleConn clearInput)).2.2,
        isClearHead x.start = true := by decide +kernel
  exact ⟨htwo, serveConn_framed sampleConfig sampleHandler (fun _ => false) (sampleConn clearInput) hclear⟩

/-- A request whose body, in the coding `gzip`, reads as another request. -/
def smuggledInput : Str :=
  "POST / HTTP/1.1\r\nTransfer-Encoding: gzip\r\n\r\nGET /admin HTTP/1.1\r\n\r\n".toList

/-- The body of the request is served as a request of its own. -/
theorem serveConn_smuggled :
    ∃ x y, (serveConn sampleConfig sampleHandler (fun _ => false) (sampleConn smuggledInput)).2.2 = [x, y] ∧
      y.head.target = "/admin".toList ∧ ¬Framed x [y] := by
  have h : (serveConn sampleConfig sampleHandler (fun _ => false) (sampleConn smuggledInput)).2.2.map (fun x =>
      ((wireFraming x.start).transferEncodings == [], x.framing, x.head.target)) =
        [(false, some .empty, "/".toList), (true, some .empty, "/admin".toList)] := by decide +kernel
  obtain ⟨x, ys, hxy, hx, hys⟩ := map_eq_cons_iff.mp h
  obtain ⟨y, rfl, hy⟩ := map_eq_singleton_iff.mp hys
  simp only [Prod.mk.injEq, beq_eq_false_iff_ne] at hx hy
  refine ⟨x, y, hxy, hy.2.2, fun hframed => ?_⟩
  rcases hframed.encoded hx.1 with ⟨hchunked, -⟩ | ⟨-, -, hnil⟩
  · rw [hx.2.1] at hchunked
    cases hchunked
  · cases hnil

/-! ## Heads cut short -/

/-- Some input begins with a complete head: after its first line there is a blank one with its newline. -/
def CompleteHead (start : Bytes) : Prop := ∃ line ∈ (splitLines start).tail, isField line = false ∧ Conn.IsLine line

/-- The header lines at the start of some input, as the server reads them. -/
def headersAt (start : Bytes) : HeaderMap := addLines HeaderMap.new ((splitLines start).tail.takeWhile isField)

/-- Only the last line may lack its newline. -/
theorem isLine_of_mem_dropLast (b : Bytes) : ∀ line ∈ (splitLines b).dropLast, Conn.IsLine line := by
  induction b with
  | nil => simp [splitLines]
  | cons a b ih =>
    rw [splitLines]
    split
    · next ha =>
      subst ha
      rcases hb : splitLines b with _ | ⟨line, lines⟩
      · simp
      · rw [hb] at ih
        exact forall_mem_cons.mpr ⟨rfl, ih⟩
    · next ha =>
      rcases hb : splitLines b with _ | ⟨line, _ | ⟨l, lines⟩⟩
      · simp
      · simp
      · rw [hb] at ih
        obtain ⟨hline, hlines⟩ := forall_mem_cons.mp ih
        exact forall_mem_cons.mpr ⟨Conn.isLine_cons.mpr (.inr ⟨ha, hline⟩), hlines⟩

/-- Without a complete head, all that is left of the stream is read for one. -/
theorem Exchange.Read.nil_of_cut {x : Exchange} (h : x.Read) (hcut : ¬CompleteHead x.start) : x.afterHead = [] := by
  rw [h.lines.2]
  rcases hdrop : (splitLines x.start).tail.dropWhile isField with _ | ⟨line, _ | ⟨l, rest⟩⟩
  · rfl
  · rfl
  have hsuffix : line :: l :: rest <:+ (splitLines x.start).tail := hdrop ▸ dropWhile_suffix _
  have hblank := head?_dropWhile_not isField (splitLines x.start).tail
  rw [hdrop] at hblank
  refine absurd ⟨line, hsuffix.subset mem_cons_self, by simpa using hblank, isLine_of_mem_dropLast x.start _ ?_⟩ hcut
  obtain ⟨before, hbefore⟩ := hsuffix.trans (tail_suffix _)
  rw [← hbefore, dropLast_append_of_ne_nil (cons_ne_nil _ _)]
  exact mem_append_right _ mem_cons_self

/-- On every connection: only requests with a complete head reach the handler exactly if, wherever a request is read from input without
one, the header lines there announce a body, which is then missing, or are refused. -/
theorem dispatched_complete_iff (config : ServerConfig) (handler : Nat → Request → HttpResponse) (drained : Nat → Bool) (conn : Conn) :
    (∀ x ∈ (serveConn config handler drained conn).2.2, x.request ≠ none → CompleteHead x.start) ↔
      ∀ x ∈ (serveConn config handler drained conn).2.2, ¬CompleteHead x.start →
        ∀ f, (headersAt x.start).Accepts f → f.isNothing = false := by
  refine forall₂_congr (fun x hx => ?_)
  obtain ⟨hread, hasks⟩ := (serveConn_serves handler drained conn).taken x hx
  rw [headersAt, ← hread.lines.1]
  constructor
  · intro hcomplete hcut f hf
    by_contra hnothing
    exact hcut (hcomplete ((hasks (hread.nil_of_cut hcut)).mpr ⟨f, hf, eq_true_of_ne_false hnothing⟩))
  · intro hbody hrequest
    by_contra hcut
    obtain ⟨f, hf, hnothing⟩ := (hasks (hread.nil_of_cut hcut)).mp hrequest
    rw [hbody hcut f hf] at hnothing
    cases hnothing

/-- A request line without an end reaches the handler. -/
theorem cutLine_dispatched :
    ∃ x, (serveConn sampleConfig sampleHandler (fun _ => false) (sampleConn "GET / HTTP/1.1".toList)).2.2 = [x] ∧
      x.request ≠ none ∧ ¬CompleteHead x.start := by
  have hnotes : (serveConn sampleConfig sampleHandler (fun _ => false) (sampleConn "GET / HTTP/1.1".toList)).2.2.map
      (fun x => decide ((splitLines x.start).tail = [] ∧ x.request ≠ none)) = [true] := by decide +kernel
  obtain ⟨x, hx, hx'⟩ := map_eq_singleton_iff.mp hnotes
  obtain ⟨hnil, hrequest⟩ := of_decide_eq_true hx'
  refine ⟨x, hx, hrequest, ?_⟩
  rintro ⟨line, hline, -⟩
  rw [hnil] at hline
  cases hline

end Ferroly.Http
