import Ferroly.Lemmas.HttpKeepAlive

/-!
# Keep-alive agreement

The server closes a connection by the request and its limit, and says so in `Connection` unless the handler has set that header
itself. A client that goes by the header agrees with the server exactly where the handler has not said otherwise.
-/

namespace Ferroly.Http

/-- On every connection and for every response: the server closes the connection after it exactly if the client reads that it does,
if and only if the handler leaves `Connection` to the server or says there what the server does; and no more requests are served than
the limit allows, at least one. -/
theorem keep_alive_agreement (config : ServerConfig) (handler : Nat → Request → HttpResponse) (drained : Nat → Bool) (conn : Conn) :
    (∀ t ∈ turns config handler drained conn, (t.stays = false ↔ t.clientKeeps = false) ↔ t.agrees config = true) ∧
      (serveConn config handler drained conn).2.2.length ≤ max 1 config.maxKeepAliveRequests := by
  refine ⟨fun t ht => ?_, serveConn_length⟩
  exact (turns_sound t ht).agrees_iff

/-- A handler that says `close`. -/
def closingHandler (_ : Nat) (_ : Request) : HttpResponse := (HttpResponse.new .OK).header "Connection".toList "close".toList

/-- The client reads `close` and the server waits for another request. -/
theorem closing_handler_disagrees : ∃ t, turns ⟨1024, 10⟩ closingHandler (fun _ => false)
        ⟨utf8 "GET / HTTP/1.1\r\n\r\n".toList, .stall, [], false, [], none, none⟩ = [t] ∧
      t.stays = true ∧ t.clientKeeps = false := by
  have h : (turns ⟨1024, 10⟩ closingHandler (fun _ => false)
      ⟨utf8 "GET / HTTP/1.1\r\n\r\n".toList, .stall, [], false, [], none, none⟩).map (fun t => (t.stays, t.clientKeeps)) =
        [(true, false)] := by decide +kernel
  obtain ⟨t, ht, ht'⟩ := List.map_eq_singleton_iff.mp h
  exact ⟨t, ht, Prod.mk.inj ht'⟩

end Ferroly.Http
