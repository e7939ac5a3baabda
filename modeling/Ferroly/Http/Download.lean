import Ferroly.Http.Client

/-!
# Resumable downloads

`download_to_file` over the client. The destination is the content of the file, if there is one. What the disk lets a call do is the
environment's, as are the connections.
-/

namespace Ferroly.Http

/-- What the disk lets one call do: whether the size of the file can be asked for, whether it can be opened, how many more bytes can
be written before a write fails, and whether the flush at the end succeeds. -/
structure Disk where
  stat : Bool
  opens : Bool
  room : Option Nat
  flushes : Bool

/-- Write all of a chunk at the end of the file. -/
def Disk.write (disk : Disk) (file chunk : Bytes) : Except (Fault HttpError) Disk × Bytes :=
  match disk.room with
  | none => (.ok disk, file ++ chunk)
  | some n =>
    if chunk.length ≤ n then (.ok { disk with room := some (n - chunk.length) }, file ++ chunk)
    else (.error (.error (.io .other)), file ++ chunk.take n)

/-- The header of an open-ended range. -/
def rangeValue (start : Nat) : Str := "bytes=".toList ++ Nat.toDigits 10 start ++ "-".toList

/-- The request of a download, from the byte after what there is already. -/
def downloadRequest (url : Str) (existing : Nat) : Except HttpError Request :=
  match Uri.parse url with
  | .error e => .error e
  | .ok uri =>
    let headers := if existing > 0 then HeaderMap.new.set "range".toList (rangeValue existing) else HeaderMap.new
    .ok ⟨.get, uri, headers, []⟩

/-- Write the chunks of a body to the file; `total` counts the bytes of the file. -/
def saveLoop : Nat → Body → Disk → Bytes → Nat → Except (Fault HttpError) Nat × Bytes × Option Put
  | 0, _, _, file, _ => (.error .diverge, file, none)
  | fuel + 1, b, disk, file, total =>
    match b.nextChunk with
    | (.error e, _, put) => (.error e, file, put)
    | (.ok (some chunk), b', _) =>
      match disk.write file chunk with
      | (.error e, file) => (.error e, file, none)
      | (.ok disk, file) => saveLoop fuel b' disk file (total + chunk.length)
    | (.ok none, _, put) => (if disk.flushes then .ok total else .error (.error (.io .other)), file, put)

/-- Save a body from the bytes `file` on. -/
def saveBody (disk : Disk) (b : Body) (file : Bytes) (total : Nat) : Except (Fault HttpError) Nat × Option Bytes × Option Put :=
  match saveLoop b.fuel b disk file total with
  | (r, file, put) => (r, some file, put)

/-- What becomes of the file by the status of the response. -/
def saveResponse (disk : Disk) (url : Str) (file : Option Bytes) (existing : Nat) (resp : Response) :
    Except (Fault HttpError) Nat × Option Bytes × Option Put :=
  let status := resp.status.code.toNat
  if status = 206 then
    match file with
    | some content => if disk.opens then saveBody disk resp.body content existing else (.error (.error (.io .other)), file, none)
    | none => (.error (.error (.io .other)), file, none)
  else if status = 416 then (.ok existing, file, none)
  else if 200 ≤ status ∧ status < 300 then
    if disk.opens then saveBody disk resp.body [] 0 else (.error (.error (.io .other)), file, none)
  else
    (.error (.error (.protocol ("unexpected status " ++ Nat.repr status ++ " downloading " ++ String.ofList url))), file, none)

/-- What is left of a call: its result, the file, the pool, and the request with the connections it was sent on. -/
structure Downloaded where
  result : Except (Fault HttpError) Nat
  file : Option Bytes
  pool : Pool
  request : Option Request
  attempts : List Attempt

/-- Download a URL into a file, from a partial file on if there is one. -/
def downloadToFile (timeout : Bool) (url : Str) (connect : Except (Fault HttpError) Conn) (disk : Disk) (file : Option Bytes)
    (pool : Pool) : Downloaded :=
  let existing := if disk.stat then (file.map List.length).getD 0 else 0
  match downloadRequest url existing with
  | .error e => ⟨.error (.error e), file, pool, none, []⟩
  | .ok req =>
    match send timeout pool req connect with
    | (.error e, pool, attempts) => ⟨.error e, file, pool, some req, attempts⟩
    | (.ok resp, pool, attempts) =>
      match saveResponse disk url file existing resp with
      | (r, file, put) => ⟨r, file, put.elim pool pool.put, some req, attempts⟩

/-- One call on the destination. -/
structure DownloadCall where
  timeout : Bool
  url : Str
  connect : Except (Fault HttpError) Conn
  disk : Disk

/-- The calls one after the other. -/
def downloads : List DownloadCall → Option Bytes → Pool → List Downloaded
  | [], _, _ => []
  | c :: calls, file, pool =>
    let d := downloadToFile c.timeout c.url c.connect c.disk file pool
    d :: downloads calls d.file d.pool

end Ferroly.Http
