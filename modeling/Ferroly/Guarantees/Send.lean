import Ferroly.Lemmas.HttpSend
import Ferroly.Rest.Client

/-!
# Requests that are not idempotent

A call of the client delivers its request at most once, unless it is carried by an idle connection whose server then fails to
answer: the client sends it again on a fresh connection. The retries of the REST client leave `POST` and `PATCH` alone.
-/

namespace Ferroly

open Http

namespace Rest

/-- An execution uses the connections of its call of `send`. -/
theorem execute_attempts (client : Client) (req : Request) (s : ClientState) :
    (execute client req s).2.attempts = s.attempts ++ (send client.timeout s.pool req (client.connect s.executed)).2.2 := by
  unfold execute
  rcases send client.timeout s.pool req (client.connect s.executed) with ⟨e | resp, pool, attempts⟩ <;> rfl

/-- A `POST` or `PATCH` is executed once, whatever the retry policy. -/
theorem send_of_not_idempotent {client : Client} {b : RequestBuilder} {url : Str} (hm : isIdempotent b.method = false)
    (herr : b.deferredErr = none) (hurl : substitutePath b.url b.pathParams = .ok url) :
    b.send client = executeOnce client b url := by
  unfold RequestBuilder.send
  simp only [herr, hurl, hm]
  rcases client.retry with _ | policy <;> rfl

/-- The request that a builder sends first, if it can be built. -/
def RequestBuilder.firstRequest (client : Client) (b : RequestBuilder) : Except ClientError Request :=
  match b.deferredErr with
  | some e => .error (.codec e)
  | none =>
    match substitutePath b.url b.pathParams with
    | .error e => .error e
    | .ok url => b.request (client.auth 0) url

/-- A builder that is not idempotent uses the connections of one call of `send`, or none. -/
theorem send_attempts_of_not_idempotent {client : Client} {b : RequestBuilder} (hm : isIdempotent b.method = false) (pool : Pool) :
    (b.send client ⟨pool, [], 0⟩).2.attempts = match b.firstRequest client with
      | .ok req => (send client.timeout pool req (client.connect 0)).2.2
      | .error _ => [] := by
  unfold RequestBuilder.firstRequest
  rcases herr : b.deferredErr with _ | e
  · rcases hurl : substitutePath b.url b.pathParams with e | url
    · simp only [RequestBuilder.send, herr, hurl]
      rfl
    · rw [send_of_not_idempotent hm herr hurl, executeOnce, Task.bind_of_ok (Task.get_apply _)]
      simp only
      rcases b.request (client.auth 0) url with e | req
      · rfl
      · simp only [Task.mapErr_snd, execute_attempts, List.nil_append]
  · simp only [RequestBuilder.send, herr]
    rfl

end Rest

namespace Http

/-- A call of `send` with a `POST` or a `PATCH` delivers it at most once exactly if the call meets the condition; and so does a
builder of the REST client, under any retry policy. -/
theorem delivered_at_most_once_iff (pool : Pool) (req : Request) : (req.method = .post ∨ req.method = .patch → ∀ timeout connect,
      (deliveries req (send timeout pool req connect).2.2 ≤ 1 ↔ deliversOnce pool req connect = true)) ∧
    ∀ (client : Rest.Client) (b : Rest.RequestBuilder), b.method = .post ∨ b.method = .patch → b.firstRequest client = .ok req →
      (deliveries req (b.send client ⟨pool, [], 0⟩).2.attempts ≤ 1 ↔ deliversOnce pool req (client.connect 0) = true) := by
  refine ⟨fun _ timeout connect => deliveries_send_le_one timeout pool req connect, ?_⟩
  intro client b hm hreq
  have hnot : Rest.isIdempotent b.method = false := by
    rcases hm with h | h <;> rw [h] <;> rfl
  rw [Rest.send_attempts_of_not_idempotent hnot, hreq]
  exact deliveries_send_le_one client.timeout pool req (client.connect 0)

/-! ## Three calls -/

/-- A `POST` to `http://h/`. -/
def sampleRequest : Request := ⟨.post, ⟨"http".toList, "h".toList, 80, "/".toList, none⟩, HeaderMap.new, utf8 "x".toList⟩

/-- The same request from a builder. -/
def sampleBuilder : Rest.RequestBuilder :=
  ⟨.post, "http://h/".toList, [], [], [], "text/plain".toList, some (utf8 "x".toList), none⟩

/-- A connection that takes everything and is closed by its server without an answer. -/
def silentConn : Conn := ⟨[], .eof, [], false, [], none, none⟩

def sampleClient : Rest.Client := ⟨true, some ⟨3, 0, false, none⟩, fun _ req => req, fun _ => .ok silentConn⟩

theorem delivered_at_most_once_fresh : deliveries sampleRequest (send true Pool.new sampleRequest (.ok silentConn)).2.2 ≤ 1 ∧
      ∃ req, sampleBuilder.firstRequest sampleClient = .ok req ∧
        deliveries req (sampleBuilder.send sampleClient ⟨Pool.new, [], 0⟩).2.attempts ≤ 1 := by
  refine ⟨((delivered_at_most_once_iff Pool.new sampleRequest).1 (.inl rfl) true (.ok silentConn)).mpr rfl, ?_⟩
  have hreq : (sampleBuilder.firstRequest sampleClient).toOption.isSome = true := rfl
  rcases h : sampleBuilder.firstRequest sampleClient with e | req
  · rw [h] at hreq
    cases hreq
  · exact ⟨req, rfl, ((delivered_at_most_once_iff Pool.new req).2 sampleClient sampleBuilder (.inl rfl) h).mpr rfl⟩

/-- With an idle connection whose server closes it after it has read the request, the request is delivered twice. -/
theorem delivered_twice : sampleRequest.method = .post ∧
      ¬deliveries sampleRequest (send true (Function.update Pool.new sampleRequest.poolKey [silentConn]) sampleRequest
        (.ok silentConn)).2.2 ≤ 1 := by
  decide +kernel

end Http

end Ferroly
