import Ferroly.Http.KeepAlive
import Ferroly.Lemmas.HttpRequest
import Ferroly.Lemmas.HttpServer

/-!
# The ledger of a connection

The server with a ledger is the server. Every entry of the ledger has been decided in the same way, and what the client reads in the
`Connection` header is the handler's own value if there is one and the server's otherwise.
-/

namespace Ferroly.Http

open List Ferroly.Task

variable {handler : Nat → Request → HttpResponse} {config : ServerConfig}

/-! ## The ledger changes nothing -/

variable {served : Nat}

theorem handleOne_eq (head : RequestHead) : handleOne config handler head served = (do
      let reply ← decideReply config handler head served
      answer reply.response head.method reply.keep
      pure reply.goesOn) := by
  unfold handleOne decideReply
  rcases head.headers.contentLengthChecked with e | contentLength
  · rfl
  · simp only
    split
    · rfl
    · simp only [bind_assoc]
      congr 1
      funext _
      congr 1
      funext _
      congr 1
      funext read
      rcases read with _ | body
      · rfl
      · rfl

theorem refines_onServer {α : Type} (p : Task ServerConn HttpError α) :
    Task.Refines WatchedServer.server (onServer p) p := fun _ => ⟨rfl, rfl⟩

theorem refines_watchedLoop (config : ServerConfig) (handler : Nat → Request → HttpResponse) (drained : Nat → Bool)
    (fuel served : Nat) :
    Task.Refines WatchedServer.server (watchedLoop config handler drained fuel served)
      (serveLoop config handler drained fuel served) := by
  induction fuel generalizing served with
  | zero => exact .diverge
  | succ fuel ih =>
    refine .ite (.pure ()) (.get_get (fun w => .bind (.attempt (refines_onServer _)) (fun r => ?_)))
    rcases r with e | head
    · exact .pure ()
    · simp only [handleOne_eq, bind_assoc]
      refine .bind (refines_onServer _) (fun _ => .bind (refines_onServer _) (fun reply => ?_))
      refine .bind (refines_onServer _) (fun _ => .modify_bind (fun _ => rfl) ?_)
      exact .ite (ih _) (.pure ())

/-- The server with a ledger serves a connection as the server does. -/
theorem watchedServe_eq (config : ServerConfig) (handler : Nat → Request → HttpResponse) (drained : Nat → Bool) (conn : Conn) :
    serveConn config handler drained conn =
      ((watchedServe config handler drained conn).1, (watchedServe config handler drained conn).2.server.conn,
        (watchedServe config handler drained conn).2.server.notes.reverse) := by
  have hrun := (refines_watchedLoop config handler drained (config.maxKeepAliveRequests + 1) 0).run_eq ⟨⟨conn, []⟩, []⟩
  unfold serveConn
  rw [hrun]
  rfl

/-! ## What is decided -/

/-- The loop goes by the flag the response was written with. Without a handler there is no `Connection` header of its own, and with
one the flag is what the request and the limit permit. -/
def Reply.Decided (config : ServerConfig) (served : Nat) (r : Reply) : Prop :=
  r.keep = (r.goesOn && decide (served < config.maxKeepAliveRequests)) ∧ match r.request with
    | none => (ownHeaders r.response).contains "connection".toList = false
    | some req => r.keep = (wantsKeepAlive req.headers && decide (served < config.maxKeepAliveRequests))

theorem decided_refusal (status : StatusCode) (s : Str) : (refusal (HttpResponse.text status s)).Decided config served := ⟨rfl, rfl⟩

theorem decideReply_decided {head : RequestHead} {s t : ServerConn} {r : Reply}
    (h : decideReply config handler head served s = (.ok r, t)) : r.Decided config served := by
  unfold decideReply at h
  rcases hlen : head.headers.contentLengthChecked with e | contentLength
  · simp only [hlen] at h
    cases h
    exact decided_refusal _ _
  · simp only [hlen] at h
    split at h
    · cases h
      exact decided_refusal _ _
    · obtain ⟨_, s1, -, h⟩ := Task.bind_eq_ok.mp h
      obtain ⟨_, s2, -, h⟩ := Task.bind_eq_ok.mp h
      obtain ⟨read, s3, -, h⟩ := Task.bind_eq_ok.mp h
      rcases read with _ | body
      · cases h
        exact decided_refusal _ _
      · obtain ⟨_, s4, -, h⟩ := Task.bind_eq_ok.mp h
        cases h
        exact ⟨rfl, rfl⟩

/-- An entry of the ledger that has been decided so. -/
def Turn.Sound (config : ServerConfig) (t : Turn) : Prop := t.reply.Decided config t.served ∧ t.stays = t.reply.keep

theorem watchedLoop_sound {drained : Nat → Bool} {fuel : Nat} {w : WatchedServer} (hw : ∀ t ∈ w.turns, t.Sound config) :
    ∀ t ∈ (watchedLoop config handler drained fuel served w).2.turns, t.Sound config := by
  induction fuel generalizing served w with
  | zero => exact hw
  | succ fuel ih =>
    have hkeep : ∀ {α : Type} {p : Task ServerConn HttpError α} {w w' : WatchedServer} {r}, onServer p w = (r, w') →
        (∀ t ∈ w.turns, t.Sound config) → ∀ t ∈ w'.turns, t.Sound config := by
      intro α p w w' r h hw
      cases h
      exact hw
    rw [watchedLoop]
    split
    · exact hw
    rw [bind_of_ok (get_apply _)]
    refine bind_post (P := fun out => ∀ t ∈ WatchedServer.turns out.2, t.Sound config) (fun e w1 h1 => ?_) (fun r w1 h1 => ?_)
    all_goals
      have hw1 : ∀ t ∈ w1.turns, t.Sound config := by
        have hsnd := congrArg Prod.snd h1
        rw [attempt_snd] at hsnd
        exact hkeep (Prod.ext rfl hsnd) hw
    · exact hw1
    rcases r with e | head
    · exact hw1
    refine bind_post (P := fun out => ∀ t ∈ WatchedServer.turns out.2, t.Sound config) (fun e w2 h2 => hkeep h2 hw1)
      (fun _ w2 h2 => ?_)
    refine bind_post (P := fun out => ∀ t ∈ WatchedServer.turns out.2, t.Sound config)
      (fun e w3 h3 => hkeep h3 (hkeep h2 hw1)) (fun reply w3 h3 => ?_)
    have hdecided := decideReply_decided (Prod.ext (Prod.mk.inj h3).1 rfl)
    have hw3 := hkeep h3 (hkeep h2 hw1)
    refine bind_post (P := fun out => ∀ t ∈ WatchedServer.turns out.2, t.Sound config) (fun e w4 h4 => hkeep h4 hw3)
      (fun _ w4 h4 => ?_)
    have hnew : ∀ t ∈ (⟨served + 1, head.method, reply, reply.goesOn && decide (served + 1 < config.maxKeepAliveRequests)⟩ ::
        w4.turns), t.Sound config := forall_mem_cons.mpr ⟨⟨hdecided, hdecided.1.symm⟩, hkeep h4 hw3⟩
    split
    · exact ih hnew
    · exact hnew

variable {conn : Conn} {drained : Nat → Bool}

theorem turns_sound : ∀ t ∈ turns config handler drained conn, t.Sound config := by
  intro t ht
  exact watchedLoop_sound (fun _ h => absurd h not_mem_nil) t (mem_reverse.mp ht)

/-! ## What the client reads -/

theorem toLower_letter {c : Char} (h : 97 ≤ c.toLower.toNat ∧ c.toLower.toNat ≤ 122) :
    (97 ≤ c.toNat ∧ c.toNat ≤ 122) ∨ (65 ≤ c.toNat ∧ c.toNat ≤ 90) := by
  by_cases hc : 65 ≤ c.toNat ∧ c.toNat ≤ 90
  · exact .inr hc
  · refine .inl ?_
    have hlow : c.toLower = c := by
      unfold Char.toLower
      rw [dif_neg]
      intro hu
      exact hc ⟨by simpa using UInt32.le_iff_toNat_le.mp hu.1, by simpa using UInt32.le_iff_toNat_le.mp hu.2⟩
    rwa [hlow] at h

/-- A name that is `Connection` is a name of letters. -/
theorem isFieldName_connection {name : Str} (h : eqIgnoreAsciiCase name "connection".toList = true) : isFieldName name = true := by
  have hletter : ∀ c ∈ name, (97 ≤ c.toNat ∧ c.toNat ≤ 122) ∨ (65 ≤ c.toNat ∧ c.toNat ≤ 90) := by
    intro c hc
    have hmem : c.toLower ∈ toAsciiLowercase name := mem_map_of_mem hc
    rw [eqIgnoreAsciiCase, beq_iff_eq] at h
    rw [h] at hmem
    have hall : ∀ d ∈ toAsciiLowercase "connection".toList, 97 ≤ d.toNat ∧ d.toNat ≤ 122 :=
      forall_iff_forall_mem.mp (by decide)
    exact toLower_letter (hall _ hmem)
  have hspace : ∀ c ∈ name, isWhitespace c = false := fun c hc => isWhitespace_of_range (.inr (hletter c hc))
  rw [isFieldName, Bool.and_eq_true, Bool.not_eq_true', contains_eq_mem, decide_eq_false_iff_not, beq_iff_eq]
  refine ⟨fun hc => absurd (hletter _ hc) (by decide), trim_eq_self ?_ ?_⟩
  · exact dropWhile_eq_self_iff.mpr (fun hl => by rw [hspace _ (getElem_mem _)]; exact Bool.false_ne_true)
  · exact rdropWhile_eq_self_iff.mpr (fun hl => by rw [hspace _ (getLast_mem hl)]; exact Bool.false_ne_true)

theorem HeaderMap.contains_eq (h : HeaderMap) (name : Str) : h.contains name = !(h.values name).isEmpty := by
  rw [HeaderMap.contains, HeaderMap.values, valuesOf]
  induction h.entries with
  | nil => rfl
  | cons e entries ih =>
    rw [any_cons, ih, filter_cons]
    rcases eqIgnoreAsciiCase e.1 name <;> rfl

theorem readBack_valuesOf {fields : List (Str × Str)} (h : ∀ e ∈ fields, OneLine e) (name : Str) :
    (readBack HeaderMap.new fields).values name = valuesOf name (fields.map wireField) := by
  rw [HeaderMap.values, readBack_entries h]
  rfl

theorem ownHeaders_values (resp : HttpResponse) (name : Str) :
    (ownHeaders resp).values name = valuesOf name (resp.headers.entries.map wireField) :=
  readBack_valuesOf (fun e he => oneLine_of (resp.headers.oneLine e he).1 (resp.headers.oneLine e he).2) name

/-- A `Connection` header is one on the wire as well. -/
theorem ownHeaders_contains {resp : HttpResponse} (h : resp.headers.contains "connection".toList = true) :
    (ownHeaders resp).values "connection".toList ≠ [] := by
  rw [ownHeaders_values]
  rw [HeaderMap.contains, any_eq_true] at h
  obtain ⟨e, he, hname⟩ := h
  have hwire := wireField_eq_iff.mpr (isFieldName_connection hname)
  refine ne_nil_of_mem (mem_map_of_mem (mem_filter.mpr ⟨mem_map_of_mem he, ?_⟩))
  rw [hwire]
  exact hname

/-- What the client reads: the handler's own header if there is one, and else the flag. -/
theorem keepAlive_responseFields (resp : HttpResponse) (method : Method) (keep : Bool) :
    responseKeepAlive (readBack HeaderMap.new (responseFields resp method keep)) =
      if (ownHeaders resp).contains "connection".toList then responseKeepAlive (ownHeaders resp) else keep := by
  have hlength : ∀ v, valuesOf "connection".toList [wireField ("Content-Length".toList, v)] = [] := by
    intro v
    rfl
  have hvalues := readBack_valuesOf (oneLine_responseFields resp method keep) "connection".toList
  rw [responseFields, map_append, map_append, valuesOf_append, valuesOf_append, ← ownHeaders_values] at hvalues
  rw [show valuesOf "connection".toList (map wireField (ite _ _ _)) = [] by
    split
    · split <;> rfl
    · split
      · exact hlength _
      · rfl] at hvalues
  rw [HeaderMap.contains_eq, responseKeepAlive, responseKeepAlive, keepAlive, keepAlive, HeaderMap.get_eq_head, HeaderMap.get_eq_head]
  rw [responseFields, hvalues]
  rcases hown : (ownHeaders resp).values "connection".toList with _ | ⟨v, vs⟩
  · have hnone : ¬resp.headers.contains "connection".toList = true := fun h => ownHeaders_contains h hown
    rw [if_neg hnone]
    cases keep <;> rfl
  · rfl

/-- The client and the server agree on a response exactly if the handler has not said otherwise. -/
theorem Turn.Sound.agrees_iff {t : Turn} (h : t.Sound config) :
    (t.stays = false ↔ t.clientKeeps = false) ↔ t.agrees config = true := by
  obtain ⟨⟨-, hreq⟩, hstays⟩ := h
  rw [Turn.clientKeeps, keepAlive_responseFields, hstays, Turn.agrees]
  rcases hr : t.reply.request with _ | req
  · rw [hr] at hreq
    simp only [hreq, Bool.false_eq_true, if_false]
  · rw [hr] at hreq
    simp only at hreq ⊢
    rw [hreq]
    generalize (wantsKeepAlive req.headers && decide (t.served < config.maxKeepAliveRequests)) = keep
    generalize responseKeepAlive (ownHeaders t.reply.response) = own
    generalize (ownHeaders t.reply.response).contains "connection".toList = has
    revert keep own has
    decide

/-! ## How many requests -/

/-- A request adds one note. -/
theorem handleOne_length (config : ServerConfig) (handler : Nat → Request → HttpResponse) (served : Nat) {s : ServerConn}
    {x : Exchange} {ns : List Exchange} (hnotes : s.notes = x :: ns) (hx : x.framing = none ∧ x.request = none)
    (hin : x.afterHead = s.conn.input) : (handleOne config handler x.head served s).2.notes.length = ns.length + 1 := by
  obtain ⟨y, hy, -⟩ := handleOne_handled config handler served hnotes hx hin
  rw [hy, length_cons]

theorem serveLoop_length {fuel : Nat} {s : ServerConn} (hserved : s.notes.length = served)
    (hmax : served < max 1 config.maxKeepAliveRequests) :
    (serveLoop config handler drained fuel served s).2.notes.length ≤ max 1 config.maxKeepAliveRequests := by
  induction fuel generalizing served s with
  | zero => exact hserved.trans_le hmax.le
  | succ fuel ih =>
    rw [serveLoop]
    split
    · exact hserved.trans_le hmax.le
    rw [bind_of_ok (get_apply _)]
    refine bind_post (P := fun out => (ServerConn.notes out.2).length ≤ max 1 config.maxKeepAliveRequests)
      (fun e s1 h1 => ?_) (fun r s1 h1 => ?_)
    all_goals
      have hs1 : s1.notes = s.notes := by
        have hsnd := congrArg (fun out => out.2.notes) h1
        rw [attempt_snd] at hsnd
        exact hsnd.symm
    · rw [hs1]
      exact hserved.trans_le hmax.le
    rcases r with e | head
    · show s1.notes.length ≤ _
      rw [hs1]
      exact hserved.trans_le hmax.le
    refine bind_post (P := fun out => (ServerConn.notes out.2).length ≤ max 1 config.maxKeepAliveRequests)
      (by rintro _ _ ⟨⟩) (fun _ s1' h => ?_)
    cases h
    have hlen := handleOne_length config handler (served + 1)
      (s := { s1 with notes := ⟨s.conn.input, head, s1.conn.input, none, none, none⟩ :: s1.notes }) rfl ⟨rfl, rfl⟩ rfl
    rw [congrArg List.length hs1, hserved] at hlen
    refine bind_post (P := fun out => (ServerConn.notes out.2).length ≤ max 1 config.maxKeepAliveRequests)
      (fun e s2 h2 => ?_) (fun b s2 h2 => ?_)
    all_goals
      have hs2 : s2.notes.length = served + 1 := (congrArg (fun out => out.2.notes.length) h2).symm.trans hlen
    · exact hs2.trans_le hmax
    split
    · next hgo =>
      rw [Bool.and_eq_true, decide_eq_true_eq] at hgo
      exact ih hs2 (lt_of_lt_of_le hgo.2 (le_max_right _ _))
    · exact hs2.trans_le hmax

/-- No more requests are served than the limit allows, at least one. -/
theorem serveConn_length : (serveConn config handler drained conn).2.2.length ≤ max 1 config.maxKeepAliveRequests := by
  have hlen : (serveLoop config handler drained (config.maxKeepAliveRequests + 1) 0 ⟨conn, []⟩).2.notes.length ≤
      max 1 config.maxKeepAliveRequests := serveLoop_length rfl (Nat.lt_of_lt_of_le Nat.zero_lt_one (le_max_left _ _))
  rw [serveConn]
  simpa only [length_reverse] using hlen

end Ferroly.Http
