import Ferroly.Lemmas.HttpDownload

/-!
# Completed downloads

A body whose connection is closed before its end reads as a body that has ended, unless it is in chunked coding. Downloads from an
honest server are complete where no dropped connection passes for the end of a response.
-/

namespace Ferroly.Http

open List

/-- In every sequence of calls on a destination that starts absent, if every connection is of a server of the resource and no drop of
it passes for the end of a response, a call that returns a number leaves the resource in the file, and the number is its length. -/
theorem downloads_complete (res : Bytes) (calls : List DownloadCall) (pool : Pool)
    (hserved : ∀ d ∈ downloads calls none pool, d.Served res) :
    ∀ d ∈ downloads calls none pool, ∀ n, d.result = .ok n → d.file = some res ∧ n = res.length := by
  intro d hd
  have hfile : Begins res none := nil_prefix
  have hhonest : ∀ d ∈ downloads calls none pool, d.Honest True res := fun d hd req hreq a ha =>
    (hserved d hd req hreq a ha).imp (fun _ hdet _ => hdet)
  exact (downloads_right hfile hhonest d hd).2 trivial

/-! ## A resource of four bytes -/

def sampleResource : Bytes := utf8 "abcd".toList

def sampleUrl : Str := "http://h/".toList

def sampleDisk : Disk := ⟨true, true, none, true⟩

/-- The head of a response with a length. -/
def lengthHead (line length : Str) : Bytes :=
  utf8 (line ++ "\r\n".toList) ++ (utf8 ("Content-Length: ".toList ++ length ++ "\r\n".toList) ++ utf8 "\r\n".toList)

def lengthHeaders (length : Str) : HeaderMap := HeaderMap.new.append "Content-Length".toList length

/-- The request for the resource from a byte on. -/
def resourceRequest (existing : Nat) : Request :=
  ⟨.get, ⟨"http".toList, "h".toList, 80, "/".toList, none⟩,
    if existing > 0 then HeaderMap.new.set "range".toList (rangeValue existing) else HeaderMap.new, []⟩

/-- A connection that carries some bytes and then ends in some way. -/
def carrying (input : Bytes) (ending : Ending) : Conn := ⟨input, ending, [], false, [], none, none⟩

/-- All of the resource is sent, and the connection is dropped after two bytes of it. -/
def droppedConn (ending : Ending) : Conn := carrying (lengthHead "HTTP/1.1 200 OK".toList "4".toList ++ utf8 "ab".toList) ending

def droppedTransfer (ending : Ending) : Transfer sampleResource (resourceRequest 0) (droppedConn ending) where
  status := .OK
  headers := lengthHeaders "4".toList
  entity := sampleResource
  head := lengthHead "HTTP/1.1 200 OK".toList "4".toList
  coded := sampleResource
  marked := false
  answer := .full
  isHead := .mk rfl (by decide) (.field rfl (by decide) (.blank rfl (by decide)))
  coding := .length rfl ⟨by decide, by decide⟩ (by decide)
  arrives := Or.inl ⟨utf8 "cd".toList, append_assoc _ _ _⟩

/-- The other two bytes are sent. -/
def resumedConn : Conn :=
  carrying (lengthHead "HTTP/1.1 206 Partial Content".toList "2".toList ++ utf8 "cd".toList) .eof

def resumedTransfer : Transfer sampleResource (resourceRequest 2) resumedConn where
  status := .PARTIAL_CONTENT
  headers := lengthHeaders "2".toList
  entity := sampleResource.drop 2
  head := lengthHead "HTTP/1.1 206 Partial Content".toList "2".toList
  coded := sampleResource.drop 2
  marked := false
  answer := .ranged (k := 2) (by decide) (by decide)
  isHead := .mk rfl (by decide) (.field rfl (by decide) (.blank rfl (by decide)))
  coding := .length rfl ⟨by decide, by decide⟩ (by decide)
  arrives := Or.inl ⟨[], by decide⟩

/-- The first connection fails, the second call resumes. -/
def resumedCalls : List DownloadCall :=
  [⟨false, sampleUrl, .ok (droppedConn .failure), sampleDisk⟩, ⟨false, sampleUrl, .ok resumedConn, sampleDisk⟩]

/-- What holds of the one connection of a call. -/
theorem forall_attempts {d : Downloaded} {P : Request → Conn → Prop} {req : Request} {conn : Conn} (hreq : d.request = some req)
    (hconns : d.attempts.map Attempt.before = [conn]) (h : P req conn) :
    ∀ req', d.request = some req' → ∀ a ∈ d.attempts, P req' a.before := by
  intro req' hreq' a ha
  cases hreq.symm.trans hreq'
  have hbefore : a.before ∈ d.attempts.map Attempt.before := mem_map_of_mem ha
  rw [hconns] at hbefore
  rw [mem_singleton.mp hbefore]
  exact h

theorem downloads_complete_resumed : (downloads resumedCalls none Pool.new).map (fun d => d.result.toOption) = [none, some 4] ∧
      ∀ d ∈ downloads resumedCalls none Pool.new, ∀ n, d.result = .ok n → d.file = some sampleResource ∧ n = 4 := by
  obtain ⟨hresults, hused⟩ : (downloads resumedCalls none Pool.new).map (fun d => d.result.toOption) = [none, some 4] ∧
      (downloads resumedCalls none Pool.new).map (fun d => (d.request, d.attempts.map Attempt.before)) =
        [(some (resourceRequest 0), [droppedConn .failure]), (some (resourceRequest 2), [resumedConn])] := by decide +kernel
  refine ⟨hresults, downloads_complete sampleResource resumedCalls Pool.new (fun d hd => ?_)⟩
  have hmem := mem_map_of_mem (f := fun d : Downloaded => (d.request, d.attempts.map Attempt.before)) hd
  rw [hused] at hmem
  simp only [mem_cons, not_mem_nil, or_false, Prod.mk.injEq] at hmem
  rcases hmem with ⟨hreq, hconns⟩ | ⟨hreq, hconns⟩
  · exact forall_attempts (P := fun req c => ∃ t : Transfer sampleResource req c, t.Detected) hreq hconns
      ⟨droppedTransfer .failure, nofun⟩
  · exact forall_attempts (P := fun req c => ∃ t : Transfer sampleResource req c, t.Detected) hreq hconns
      ⟨resumedTransfer, fun _ => .inl (prefix_refl _)⟩

/-- A call whose connection is closed after two bytes. -/
def droppedCall : Downloaded := downloadToFile false sampleUrl (.ok (droppedConn .eof)) sampleDisk none Pool.new

theorem droppedCall_left : droppedCall.request = some (resourceRequest 0) ∧
    droppedCall.attempts.map Attempt.before = [droppedConn .eof] ∧ droppedCall.result.toOption = some 2 ∧
      droppedCall.file = some (utf8 "ab".toList) := by decide +kernel

/-- In every sequence of calls on a destination that starts absent, if every connection is of a server of the resource, wherever it is
dropped, the file holds the beginning of the resource after each call. A call that is dropped after some bytes leaves what it leaves
if the disk has room for those only. -/
theorem downloads_keep_beginning (res : Bytes) (calls : List DownloadCall) (pool : Pool)
    (hserved : ∀ d ∈ downloads calls none pool, ∀ req, d.request = some req → ∀ a ∈ d.attempts, Nonempty (Transfer res req a.before)) :
    ∀ d ∈ downloads calls none pool, d.file.getD [] <+: res := by
  intro d hd
  have hfile : Begins res none := nil_prefix
  have hhonest : ∀ d ∈ downloads calls none pool, d.Honest False res := fun d hd req hreq a ha =>
    (hserved d hd req hreq a ha).elim (fun t => ⟨t, False.elim⟩)
  exact (downloads_right hfile hhonest d hd).1

theorem downloads_keep_beginning_dropped : droppedCall.file.getD [] <+: sampleResource := by
  refine downloads_keep_beginning sampleResource [⟨false, sampleUrl, .ok (droppedConn .eof), sampleDisk⟩] Pool.new (fun d hd => ?_)
    droppedCall (mem_singleton.mpr rfl)
  obtain rfl : d = droppedCall := mem_singleton.mp hd
  exact forall_attempts (P := fun req c => Nonempty (Transfer sampleResource req c)) droppedCall_left.1 droppedCall_left.2.1
    ⟨droppedTransfer .eof⟩

/-- A connection that is closed after two bytes: the call returns their number as if they were all. -/
theorem dropped_download_completes : ∃ d, downloads [⟨false, sampleUrl, .ok (droppedConn .eof), sampleDisk⟩] none Pool.new = [d] ∧
      (∀ req, d.request = some req → ∀ a ∈ d.attempts, Nonempty (Transfer sampleResource req a.before)) ∧
      d.result = .ok 2 ∧ d.file = some (utf8 "ab".toList) ∧ sampleResource.length = 4 := by
  obtain ⟨hreq, hconns, hresult, hfile⟩ := droppedCall_left
  refine ⟨droppedCall, rfl, forall_attempts (P := fun req c => Nonempty (Transfer sampleResource req c)) hreq hconns
    ⟨droppedTransfer .eof⟩, ?_, hfile, rfl⟩
  rcases hr : droppedCall.result with e | n
  · rw [hr] at hresult
    cases hresult
  · rw [hr] at hresult
    exact congrArg Except.ok (Option.some.inj hresult)

end Ferroly.Http
