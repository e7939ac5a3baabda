import Ferroly.Lemmas.HttpRequest

/-!
# Requests on the wire

Names and values of headers cannot hold an end of line, but the target and the host of a URL can, and a target can hold a space. Those
requests whose URL and method hold none of these, whose names are names and whose head is within the limits of the reader are read
back as they were written, and no other is.
-/

namespace Ferroly.Http

/-- The head of a request is read back as one head with its method, its target and its fields, whatever follows it, exactly if the
URL, the method and the names allow it. -/
theorem request_reads_back_iff (req : Request) : req.ReadsBack ↔ req.isReadBack = true := readsBack_iff req

/-- A URL whose path ends the request line and goes on with a field. -/
def injectingUrl : Str := "http://h/x HTTP/1.1\r\nAdmin: 1\r\nRest:".toList

/-- The fields that are read from a request for it. -/
def injectedFields : HeaderMap :=
  ((HeaderMap.new.append "Admin".toList "1".toList).append "Rest".toList "HTTP/1.1".toList).append "Host".toList "h".toList

/-- The URL is accepted, and the head of a request for it has fields that nobody set. -/
theorem url_injects_field : ∃ uri conn', Uri.parse injectingUrl = .ok uri ∧
      readRequestHead ⟨utf8 (requestHead ⟨.get, uri, HeaderMap.new, []⟩), .eof, [], false, [], none, none⟩ =
        (.ok ⟨.get, "/x".toList, injectedFields⟩, conn') ∧
      ¬Request.ReadsBack ⟨.get, uri, HeaderMap.new, []⟩ := by
  refine ⟨⟨"http".toList, "h".toList, 80, "/x HTTP/1.1\r\nAdmin: 1\r\nRest:".toList, none⟩,
    ⟨[], .eof, [], false, [], none, none⟩, rfl, by decide +kernel, ?_⟩
  rw [readsBack_iff]
  exact Bool.false_ne_true

end Ferroly.Http
