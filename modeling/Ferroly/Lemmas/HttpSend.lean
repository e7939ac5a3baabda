import Ferroly.Lemmas.HttpRead

/-!
# Sending requests

What an exchange leaves written, and whether the connection is the only one used.
-/

namespace Ferroly

open List Conn Ferroly.Task

namespace Conn

theorem writeAll_fits {c : Conn} {b : Bytes} (h : c.room.all (fun n => decide (b.length ≤ n)) = true) :
    writeAll b c = (.ok (), c.wrote b) := by
  unfold writeAll wrote
  rcases hroom : c.room with _ | n
  · rfl
  · rw [hroom, Option.all_some, decide_eq_true_eq] at h
    simp only [if_pos h, Option.map_some]

theorem writeAll_overflows {c : Conn} {b : Bytes} {n : Nat} (hroom : c.room = some n) (h : n < b.length) :
    writeAll b c = (.error (.error .other), { c with output := c.output ++ b.take n, room := some 0 }) := by
  unfold writeAll
  simp only [hroom, if_neg (Nat.not_le.mpr h)]

theorem wrote_wrote (c : Conn) (a b : Bytes) : (c.wrote a).wrote b = c.wrote (a ++ b) := by
  unfold wrote
  simp only [append_assoc, length_append, Option.map_map]
  congr 2
  funext n
  simp only [Function.comp_apply]
  omega

end Conn

namespace Http

variable {c : Conn} {req : Request}

/-- A request is written in two parts. -/
theorem writeRequest_eq : writeRequest req = ((writeAll (utf8 (requestHead req))).mapErr .io >>= fun _ =>
      if req.body = [] then pure () else (writeAll req.body).mapErr .io) := by
  unfold writeRequest
  congr 1
  funext _
  by_cases h : req.body = []
  · rw [h]
    rfl
  · rw [if_neg h, if_pos]
    simpa using h

/-- A request is written as a whole if there is room for it. -/
theorem writeRequest_fits (h : c.room.all (fun n => decide ((requestBytes req).length ≤ n)) = true) :
    writeRequest req c = (.ok (), c.wrote (requestBytes req)) := by
  have hhead : c.room.all (fun n => decide ((utf8 (requestHead req)).length ≤ n)) = true := by
    rcases hroom : c.room with _ | n
    · rfl
    · rw [hroom] at h
      simp only [Option.all_some, decide_eq_true_eq, requestBytes, length_append] at h ⊢
      omega
  rw [writeRequest_eq, bind_of_ok (mapErr_eq_ok.mpr (writeAll_fits hhead))]
  split
  · next hnil => rw [requestBytes, hnil, append_nil, pure_apply]
  · have hbody : (c.wrote (utf8 (requestHead req))).room.all (fun n => decide (req.body.length ≤ n)) = true := by
      rcases hroom : c.room with _ | n
      · simp [wrote, hroom]
      · rw [hroom] at h
        simp only [Option.all_some, decide_eq_true_eq, requestBytes, length_append] at h
        simp only [wrote, hroom, Option.map_some, Option.all_some, decide_eq_true_eq]
        omega
    rw [mapErr_eq_ok.mpr (writeAll_fits hbody), wrote_wrote, requestBytes]

/-- Otherwise it is not, and the write fails. -/
theorem writeRequest_overflows {n : Nat} (hroom : c.room = some n) (h : n < (requestBytes req).length) :
    ∃ d, writeRequest req c = (.error (.error (.io .other)), d) ∧ d.output.length < c.output.length + (requestBytes req).length := by
  rw [requestBytes, length_append] at h
  rw [writeRequest_eq, requestBytes]
  rcases Nat.lt_or_ge n (utf8 (requestHead req)).length with hn | hn
  · refine ⟨{ c with output := c.output ++ (utf8 (requestHead req)).take n, room := some 0 }, ?_, ?_⟩
    · rw [bind_apply]
      simp only [Task.mapErr, writeAll_overflows hroom hn]
    · simp only [length_append, length_take]
      omega
  · have hhead : c.room.all (fun n => decide ((utf8 (requestHead req)).length ≤ n)) = true := by
      rw [hroom, Option.all_some, decide_eq_true_eq]
      exact hn
    rw [bind_of_ok (mapErr_eq_ok.mpr (writeAll_fits hhead))]
    have hne : req.body ≠ [] := by
      intro hnil
      rw [hnil, length_nil] at h
      omega
    have hroom' : (c.wrote (utf8 (requestHead req))).room = some (n - (utf8 (requestHead req)).length) := by
      simp [wrote, hroom]
    rw [if_neg hne]
    have hbody : n - (utf8 (requestHead req)).length < req.body.length := by omega
    refine ⟨_, by rw [Task.mapErr, writeAll_overflows hroom' hbody], ?_⟩
    simp only [wrote, length_append, length_take]
    omega

theorem exchange_fits {key : PoolKey} (h : c.room.all (fun n => decide ((requestBytes req).length ≤ n)) = true) :
    exchange req key c = receive key (c.wrote (requestBytes req)) := by
  rw [exchange, writeRequest_fits h]

/-- Reading a response leaves what has been written. -/
theorem receive_outgoing (key : PoolKey) (c : Conn) : (receive key c).2.outgoing = c.outgoing := by
  have h := keeps_readResponseHead c
  unfold receive
  rcases hread : readResponseHead c with ⟨e | ⟨st, hs⟩, d⟩
  · rw [hread] at h
    exact h
  · rw [hread] at h
    exact h

/-- An exchange delivers its request exactly if the connection carries it. -/
theorem exchange_delivers (req : Request) (key : PoolKey) (c : Conn) :
    (Attempt.mk c (exchange req key c).2).delivers req = c.carries (requestBytes req) := by
  rcases hroom : c.room.all (fun n => decide ((requestBytes req).length ≤ n)) with _ | _
  · -- the write is cut short
    obtain ⟨n, hn⟩ : ∃ n, c.room = some n := by
      rcases hr : c.room with _ | n
      · rw [hr] at hroom
        cases hroom
      · exact ⟨n, rfl⟩
    rw [hn, Option.all_some, decide_eq_false_iff_not, Nat.not_le] at hroom
    obtain ⟨d, hwrite, hlen⟩ := writeRequest_overflows hn hroom
    have hcarries : c.carries (requestBytes req) = false := by
      rw [carries, hn, Option.all_some, decide_eq_false (Nat.not_le.mpr hroom), Bool.false_and]
    rw [hcarries, exchange, hwrite, Attempt.delivers, Bool.eq_false_iff, ne_eq, isPrefixOf_iff_prefix]
    intro hpre
    have hle := hpre.length_le
    have hrec : d.received.length ≤ d.output.length := by
      unfold received
      rcases d.reach with _ | m
      · exact Nat.le_refl _
      · exact length_take_le' m d.output
    simp only [length_append] at hle
    omega
  · -- all of it is written: whether it arrives is up to the peer
    have hout := receive_outgoing key (c.wrote (requestBytes req))
    simp only [outgoing, Prod.mk.injEq] at hout
    rw [carries, hroom, Bool.true_and, exchange_fits hroom, Attempt.delivers, received, hout.1, hout.2.2]
    simp only [wrote]
    rcases c.reach with _ | m
    · simp [List.isPrefixOf_iff_prefix]
    · rw [Bool.eq_iff_iff, isPrefixOf_iff_prefix, Option.all_some, decide_eq_true_eq]
      simp only
      constructor
      · intro hpre
        have := hpre.length_le
        simp only [length_append, length_take] at this
        omega
      · intro hle
        have htake := take_of_length_le (length_append ▸ hle : (c.output ++ requestBytes req).length ≤ m)
        exact htake.symm ▸ prefix_rfl

/-- A failed exchange has failed to write the request, or failed to read a head. -/
theorem exchange_fails (key : PoolKey) (hcarries : c.carries (requestBytes req) = true) :
    (∃ e, (exchange req key c).1 = .error (.error e)) ↔ failsHead (c.wrote (requestBytes req)) = true := by
  rw [carries, Bool.and_eq_true] at hcarries
  rw [exchange_fits hcarries.1, failsHead, receive]
  rcases readResponseHead (c.wrote (requestBytes req)) with ⟨(e | _ | _) | ⟨st, hs⟩, d⟩ <;> simp

theorem deliveries_cons (req : Request) (a : Attempt) (as : List Attempt) :
    deliveries req (a :: as) = (if a.delivers req then 1 else 0) + deliveries req as := by
  rw [deliveries, countP_cons, Nat.add_comm]
  rfl

theorem deliveries_sendFresh (req : Request) (connect : Except (Fault HttpError) Conn) : deliveries req (sendFresh req connect).2 =
      match connect with
      | .ok fresh => if fresh.carries (requestBytes req) then 1 else 0
      | .error _ => 0 := by
  rcases connect with e | fresh
  · rfl
  · rw [sendFresh]
    simp only
    rw [deliveries_cons, exchange_delivers]
    rfl

/-- The deadline of a call does not change which connections it has used. -/
theorem send_attempts (timeout : Bool) (pool : Pool) (req : Request) (connect : Except (Fault HttpError) Conn) :
    (send timeout pool req connect).2.2 = (sendInner pool req connect).2.2 := by
  unfold send
  rcases sendInner pool req connect with ⟨(e | _ | _) | r, pool', as⟩ <;> rfl

/-- With an idle connection, a fresh one is used exactly if the exchange on the idle one fails. -/
theorem sendInner_attempts {pool : Pool} (connect : Except (Fault HttpError) Conn) {idle : Conn} {rest : List Conn}
    (hpool : pool req.poolKey = idle :: rest) :
    ((∃ e, (exchange req req.poolKey idle).1 = .error (.error e)) ∧ (sendInner pool req connect).2.2 =
        ⟨idle, (exchange req req.poolKey idle).2⟩ :: (sendFresh req connect).2) ∨
      ((¬∃ e, (exchange req req.poolKey idle).1 = .error (.error e)) ∧ (sendInner pool req connect).2.2 =
        [⟨idle, (exchange req req.poolKey idle).2⟩]) := by
  rw [sendInner, Pool.take, hpool]
  simp only
  rcases exchange req req.poolKey idle with ⟨(e | _ | _) | r, after⟩
  · exact Or.inl ⟨⟨e, rfl⟩, rfl⟩
  all_goals exact Or.inr ⟨fun ⟨e, he⟩ => (by cases he), rfl⟩

/-- A call delivers its request more than once exactly if both connections carry it and the first one fails after that. -/
theorem deliveries_send_le_one (timeout : Bool) (pool : Pool) (req : Request) (connect : Except (Fault HttpError) Conn) :
    deliveries req (send timeout pool req connect).2.2 ≤ 1 ↔ deliversOnce pool req connect = true := by
  have hfresh := deliveries_sendFresh req connect
  rw [send_attempts]
  unfold deliversOnce
  rcases hpool : pool req.poolKey with _ | ⟨idle, rest⟩
  · have hone : (sendInner pool req connect).2.2 = (sendFresh req connect).2 := by
      rw [sendInner, Pool.take, hpool]
    refine iff_of_true ?_ rfl
    rw [hone, hfresh]
    rcases connect with e | fresh
    · exact Nat.zero_le _
    · simp only
      split <;> omega
  · have hdel := exchange_delivers req req.poolKey idle
    simp only
    rcases hcarries : idle.carries (requestBytes req) with _ | _
    · -- the idle connection does not carry the request, and the fresh one carries it once
      rw [hcarries] at hdel
      refine iff_of_true ?_ rfl
      have hle : deliveries req (sendFresh req connect).2 ≤ 1 := by
        rw [hfresh]
        rcases connect with e | fresh
        · exact Nat.zero_le _
        · simp only
          split <;> omega
      rcases sendInner_attempts connect hpool with ⟨-, has⟩ | ⟨-, has⟩
      · rw [has, deliveries_cons, hdel, if_neg Bool.false_ne_true, Nat.zero_add]
        exact hle
      · rw [has, deliveries_cons, hdel]
        exact Nat.zero_le _
    · rw [hcarries] at hdel
      have hfails := exchange_fails req.poolKey hcarries
      rcases sendInner_attempts connect hpool with ⟨he, has⟩ | ⟨he, has⟩
      · rw [has, deliveries_cons, hdel, hfresh, hfails.mp he]
        rcases connect with e | fresh
        · simp
        · rcases hf : fresh.carries (requestBytes req) with _ | _ <;> simp [hf]
      · have hno : failsHead (idle.wrote (requestBytes req)) = false :=
          (Bool.not_eq_true _).mp (fun h => he (hfails.mpr h))
        rw [has, deliveries_cons, hdel, hno]
        exact iff_of_true (Nat.le_refl _) rfl

end Http

end Ferroly
