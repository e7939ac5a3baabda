import Ferroly.Lemmas.BusListeners
import Ferroly.Messaging.Spec

/-!
# Runs of the message bus

Invariants of the bus over any number of actions, each derived from what one action does to the messages: a message is in one place or
has been reported for the last time, and a message is with one place at most.
-/

namespace Ferroly

open List

/-- How many entries are counted, after some of them are exchanged for others. -/
theorem countP_exchange {α : Type*} {l l' : List α} (m m' : List α)
    (h : (l' : Multiset α) + (m : Multiset α) = (l : Multiset α) + (m' : Multiset α)) (q : α → Bool) :
    l'.countP q + m.countP q = l.countP q + m'.countP q := by
  rw [Multiset.coe_add, Multiset.coe_add, Multiset.coe_eq_coe] at h
  rw [← countP_append, h.countP_eq, countP_append]

/-- At most one entry is counted, so two that are counted are the same. -/
theorem eq_of_countP_le_one {α : Type*} {l : List α} {q : α → Bool} (h : l.countP q ≤ 1) {a b : α} (ha : a ∈ l) (hb : b ∈ l)
    (hqa : q a = true) (hqb : q b = true) : a = b := by
  rw [countP_eq_length_filter] at h
  have ha' := mem_filter.mpr ⟨ha, hqa⟩
  have hb' := mem_filter.mpr ⟨hb, hqb⟩
  rcases hl : l.filter q with _ | ⟨c, rest⟩
  · rw [hl] at ha'
    cases ha'
  · rw [hl] at ha' hb' h
    obtain rfl : rest = [] := eq_nil_of_length_eq_zero (by rw [length_cons] at h; omega)
    rw [mem_singleton.mp ha', mem_singleton.mp hb']

namespace Messaging

variable {b b' : Bus} {rs : List Report} {x y : Place × Parcel} {hash : Str → Nat}

/-- What holds at first, and is kept by each action that meets a condition, holds after all runs of such actions. -/
theorem run_induct {inv : Bus → Prop} {cond : Action → Prop} (hstep : ∀ b a, inv b → cond a → inv (b.step hash a))
    {as : List Action} (hcond : ∀ a ∈ as, cond a) (h : inv b) : inv (b.run hash as) := by
  induction as generalizing b with
  | nil => exact h
  | cons a as ih =>
    exact ih (forall_mem_cons.mp hcond).2 (hstep b a h (hcond a mem_cons_self))

/-! ## One message at a time -/

/-- On its way a message comes to another place. -/
theorem Moves.ne (h : Moves hash b x y rs) : x ≠ y := by
  intro heq
  cases h <;> cases heq

/-- A message that goes on was there, it is then at its new place, and all others were there too. -/
theorem Moves.mem (h : Moves hash b x y rs) (hparcels : (b'.parcels : Bag) + {x} = (b.parcels : Bag) + {y}) :
    x ∈ b.parcels ∧ y ∈ b'.parcels ∧ ∀ z ∈ b'.parcels, z = y ∨ z ∈ b.parcels := by
  have hmem : ∀ z, (z ∈ b'.parcels ∨ z = x) ↔ (z ∈ b.parcels ∨ z = y) := by
    intro z
    have hz := congrArg (z ∈ ·) hparcels
    simpa only [Multiset.mem_add, Multiset.mem_coe, Multiset.mem_singleton, eq_iff_iff] using hz
  refine ⟨?_, ?_, ?_⟩
  · exact ((hmem x).mp (.inr rfl)).resolve_right h.ne
  · exact ((hmem y).mpr (.inr rfl)).resolve_right h.ne.symm
  · intro z hz
    exact ((hmem z).mp (.inl hz)).symm

/-- A message that leaves the bus is not delivered. -/
theorem Ends.not_receive (h : Ends x rs) (l : Nat) (addr : Str) (p : Parcel) : Report.receive l addr p ∉ rs := by
  cases h <;> simp

section Step

variable {a : Action}

/-- Where a message is after an action: where it was, or where it begins, or at the next place. -/
theorem mem_step_parcels {z : Place × Parcel} (hz : z ∈ (b.step hash a).parcels) : z ∈ b.parcels ∨
      (∃ addr msg opts, a = .send addr msg opts ∧
        z = (.send .caller addr none, ⟨b.sends.length, opts.routingKey.or msg.routingKey, msg⟩)) ∨
      ∃ x rs, x ∈ b.parcels ∧ Moves hash b x z rs := by
  rw [← Multiset.mem_coe] at hz
  cases change_step hash b a with
  | quiet rs hparcels =>
    rw [hparcels] at hz
    exact .inl hz
  | born addr msg opts ha _ hparcels =>
    rw [hparcels, Multiset.mem_add, Multiset.mem_singleton] at hz
    exact hz.imp_right (fun hz => .inl ⟨addr, msg, opts, ha, hz⟩)
  | moved x y rs hmoves hparcels =>
    obtain ⟨hx, -, hall⟩ := hmoves.mem hparcels
    rcases hall z hz with rfl | hz
    · exact .inr (.inr ⟨x, rs, hx, hmoves⟩)
    · exact .inl hz
  | ended x rs _ hparcels | lost c _ _ xs hparcels => exact .inl (Multiset.mem_coe.mp (hparcels ▸ Multiset.mem_add.mpr (.inl hz)))

/-- A delivery is one that was reported before, or it comes with a message that goes on. -/
theorem receive_mem_step {l : Nat} {addr : Str} {p : Parcel} (h : Report.receive l addr p ∈ (b.step hash a).reports) :
    Report.receive l addr p ∈ b.reports ∨ ∃ x y rs, x ∈ b.parcels ∧ Moves hash b x y rs ∧ Report.receive l addr p ∈ rs := by
  cases change_step hash b a with
  | quiet rs _ _ hreports hrs =>
    rw [hreports, mem_append] at h
    refine h.imp_right (fun hmem => ?_)
    obtain ⟨addr, p', heq⟩ := hrs _ hmem
    cases heq
  | born addr msg opts _ _ _ _ hreports | lost c _ _ xs _ _ hreports =>
    rw [hreports] at h
    exact .inl h
  | moved x y rs hmoves hparcels _ hreports =>
    rw [hreports, mem_append] at h
    exact h.imp_right (fun hmem => ⟨x, y, rs, (hmoves.mem hparcels).1, hmoves, hmem⟩)
  | ended x rs hends _ _ hreports =>
    rw [hreports, mem_append] at h
    exact .inl (h.resolve_right (hends.not_receive l addr p))

end Step

/-! ## Conservation -/

/-- How often a message is in the send of a caller. -/
def Bus.waits (b : Bus) (t : Nat) : Nat := b.parcels.countP (fun x => !x.1.onBus && x.2.tag == t)

/-- On its way a message keeps its number, stays on the bus once it is there, and is not reported for the last time. -/
theorem Moves.keep (h : Moves hash b x y rs) :
    y.2.tag = x.2.tag ∧ (x.1.onBus = true → y.1.onBus = true) ∧ ∀ t, rs.countP (Report.terminal t) = 0 := by
  cases h with
  | pick s l _ _ =>
    refine ⟨rfl, ?_, fun _ => rfl⟩
    intro hbus
    cases ho : s.origin with
    | caller => rw [ho] at hbus; cases hbus
    | requeue => rfl
    | deadLetter => rfl
  | push o addr l c p _ | receive c p | handle c p _ | requeue c p _ _ | deadLetter c p dlq _ _ =>
    exact ⟨rfl, fun _ => rfl, fun _ => rfl⟩

/-- A message that leaves the bus is reported for the last time, and one that never was on it is not. -/
theorem Ends.reported (h : Ends x rs) (t : Nat) :
    rs.countP (Report.terminal t) = [x].countP (fun x => x.1.onBus && x.2.tag == t) := by
  cases h with
  | refused addr l p => rfl
  | dropped o addr l p ho =>
    cases o with
    | caller => exact absurd rfl ho
    | requeue | deadLetter => simp [Report.terminal, Place.onBus]
  | acked l name p | rejected l name p => simp [Report.terminal, Place.onBus]
  | exhausted l name p => simp [Report.terminal, Place.onBus, Parcel.again]

/-- The state of the accounts: each accepted message is in one place or has been reported for the last time, and none is accepted
twice. -/
structure Conserved (b : Bus) : Prop where
  limits : ∀ e ∈ b.roster, e.2.2.concurrency.all (· ≤ maxPermits) = true
  balance : ∀ t, b.copies t + b.ends t = b.accepted.count t
  once : ∀ t, b.accepted.count t + b.waits t ≤ if t < b.sends.length then 1 else 0

theorem conserved_new : Conserved Bus.new := ⟨fun e he => (by cases he), fun _ => rfl, fun _ => Nat.zero_le _⟩

theorem roster_step {P : Str × ListenerOptions → Prop} {a : Action} (h : ∀ e ∈ b.roster, P e.2) (ha : ∀ e, a.adds = some e → P e) :
    ∀ e ∈ (b.step hash a).roster, P e.2 := by
  intro e he
  rw [(step_roster hash b a).1, mem_append] at he
  rcases he with he | he
  · exact h e he
  · unfold Bus.added at he
    split at he
    · split at he
      · cases he
      · rename_i hsize
        rw [mem_singleton.mp he]
        exact ha _ (if_neg hsize)
    · cases he

theorem limits_step {a : Action} (h : ∀ e ∈ b.roster, e.2.2.concurrency.all (· ≤ maxPermits) = true) (ha : a.limited = true) :
    ∀ e ∈ (b.step hash a).roster, e.2.2.concurrency.all (· ≤ maxPermits) = true := by
  refine roster_step (P := fun e => e.2.concurrency.all (· ≤ maxPermits) = true) h (fun e he => ?_)
  unfold Action.adds at he
  split at he
  · split at he
    · cases he
    · cases he
      exact ha
  · cases he

/-- The counts after an action in which a message goes on. -/
theorem Conserved.moved (h : Conserved b) (hmoves : Moves hash b x y rs)
    (hparcels : (b'.parcels : Bag) + {x} = (b.parcels : Bag) + {y})
    (haccepted : (b'.accepted : Multiset Nat) =
      (b.accepted : Multiset Nat) + if x.1.onBus = false ∧ y.1.onBus = true then {x.2.tag} else 0)
    (hreports : b'.reports = b.reports ++ rs) (t : Nat) :
    b'.copies t + b'.ends t = b'.accepted.count t ∧ b'.accepted.count t + b'.waits t = b.accepted.count t + b.waits t := by
  obtain ⟨htag, hbus, hquiet⟩ := hmoves.keep
  have hbalance := h.balance t
  have hcopies := countP_exchange [x] [y] hparcels (fun x => x.1.onBus && x.2.tag == t)
  have hwaits := countP_exchange [x] [y] hparcels (fun x => !x.1.onBus && x.2.tag == t)
  have hends : b'.ends t = b.ends t := by
    unfold Bus.ends
    rw [hreports, countP_append, hquiet t, Nat.add_zero]
  have hcount := congrArg (Multiset.count t) haccepted
  rw [Multiset.count_add, Multiset.coe_count, Multiset.coe_count] at hcount
  simp only [countP_singleton, htag] at hcopies hwaits
  unfold Bus.copies Bus.waits at *
  by_cases ht : x.2.tag = t
  · cases hx : x.1.onBus with
    | false =>
      cases hy : y.1.onBus with
      | false => simp [hx, hy] at hcount hcopies hwaits; omega
      | true => simp [hx, hy, ht] at hcount hcopies hwaits; omega
    | true =>
      have hy := hbus hx
      simp [hx, hy] at hcount hcopies hwaits
      omega
  · have hne : (x.2.tag == t) = false := beq_false_of_ne ht
    have hzero : Multiset.count t (if x.1.onBus = false ∧ y.1.onBus = true then {x.2.tag} else 0) = 0 := by
      split
      · exact Multiset.count_eq_zero.mpr (fun hmem => ht (Multiset.mem_singleton.mp hmem).symm)
      · exact Multiset.count_zero t
    simp [hne] at hcopies hwaits
    omega

/-- The counts after an action in which a message leaves the bus, or a message that never was on it is given up. -/
theorem Conserved.ended (h : Conserved b) (hends : Ends x rs) (hparcels : (b'.parcels : Bag) + {x} = b.parcels)
    (haccepted : (b'.accepted : Multiset Nat) = b.accepted) (hreports : b'.reports = b.reports ++ rs) (t : Nat) :
    b'.copies t + b'.ends t = b'.accepted.count t ∧ b'.accepted.count t + b'.waits t ≤ b.accepted.count t + b.waits t := by
  rw [← add_zero (b.parcels : Bag)] at hparcels
  have hbalance := h.balance t
  have hcopies := countP_exchange [x] [] hparcels (fun x => x.1.onBus && x.2.tag == t)
  have hwaits := countP_exchange [x] [] hparcels (fun x => !x.1.onBus && x.2.tag == t)
  have hreported : b'.ends t = b.ends t + [x].countP (fun x => x.1.onBus && x.2.tag == t) := by
    unfold Bus.ends
    rw [hreports, countP_append, hends.reported t]
  have hcount : b'.accepted.count t = b.accepted.count t := (Multiset.coe_eq_coe.mp haccepted).count_eq t
  rw [countP_nil] at hcopies hwaits
  unfold Bus.copies Bus.waits at *
  omega

/-- The counts after a caller's send has begun. -/
theorem Conserved.born {addr : Str} {p : Parcel} (h : Conserved b) (htag : p.tag = b.sends.length)
    (hlength : b'.sends.length = b.sends.length + 1)
    (hparcels : (b'.parcels : Bag) = (b.parcels : Bag) + {(.send .caller addr none, p)})
    (haccepted : (b'.accepted : Multiset Nat) = b.accepted) (hreports : b'.reports = b.reports) (t : Nat) :
    b'.copies t + b'.ends t = b'.accepted.count t ∧ b'.accepted.count t + b'.waits t ≤ if t < b'.sends.length then 1 else 0 := by
  rw [← add_zero (b'.parcels : Bag)] at hparcels
  have hbalance := h.balance t
  have honce := h.once t
  have hcopies := countP_exchange [] [(Place.send .caller addr none, p)] hparcels (fun x => x.1.onBus && x.2.tag == t)
  have hwaits := countP_exchange [] [(Place.send .caller addr none, p)] hparcels (fun x => !x.1.onBus && x.2.tag == t)
  have hcount : b'.accepted.count t = b.accepted.count t := (Multiset.coe_eq_coe.mp haccepted).count_eq t
  have hends : b'.ends t = b.ends t := by
    unfold Bus.ends
    rw [hreports]
  have hplace : (Place.send .caller addr none).onBus = false := rfl
  rw [countP_nil, countP_singleton, htag, hplace] at hcopies hwaits
  unfold Bus.copies Bus.waits at *
  refine ⟨?_, ?_⟩
  · simp only [Bool.false_and, Bool.false_eq_true, if_false] at hcopies
    omega
  · -- The number of the new message is that of the first send that was not yet there.
    by_cases ht : b.sends.length = t
    · rw [if_neg (by omega)] at honce
      rw [if_pos (by omega)]
      simp only [ht, beq_self_eq_true, Bool.not_false, Bool.and_self, if_true] at hwaits
      omega
    · simp only [beq_false_of_ne ht, Bool.and_false, Bool.false_eq_true, if_false] at hwaits
      split at honce
      · rw [if_pos (by omega)]
        omega
      · omega

/-- An action keeps the accounts. -/
theorem Conserved.step {a : Action} (h : Conserved b) (ha : a.limited = true) : Conserved (b.step hash a) := by
  have hgrow : ∀ t n, n ≤ b.accepted.count t + b.waits t → n ≤ if t < (b.step hash a).sends.length then 1 else 0 := by
    intro t n hn
    have honce := h.once t
    have hlength := (step_roster hash b a).2
    split at honce
    · rw [if_pos (by omega)]
      omega
    · omega
  suffices hcounts : ∀ t, (b.step hash a).copies t + (b.step hash a).ends t = (b.step hash a).accepted.count t ∧
      (b.step hash a).accepted.count t + (b.step hash a).waits t ≤ if t < (b.step hash a).sends.length then 1 else 0 from
    ⟨limits_step h.limits ha, fun t => (hcounts t).1, fun t => (hcounts t).2⟩
  intro t
  cases change_step hash b a with
  | quiet rs hparcels haccepted hreports hrs =>
    have hperm := Multiset.coe_eq_coe.mp hparcels
    have hends : (b.step hash a).ends t = b.ends t := by
      have hnone : rs.countP (Report.terminal t) = 0 := by
        rw [countP_eq_zero]
        intro r hr
        obtain ⟨addr, p, rfl⟩ := hrs r hr
        simp [Report.terminal]
      unfold Bus.ends
      rw [hreports, countP_append, hnone, Nat.add_zero]
    have hbalance := h.balance t
    have hcount := (Multiset.coe_eq_coe.mp haccepted).count_eq t
    refine ⟨?_, hgrow t _ ?_⟩
    · unfold Bus.copies at *
      rw [hperm.countP_eq, hends, hcount, hbalance]
    · unfold Bus.waits
      rw [hperm.countP_eq, hcount]
  | born addr msg opts _ hlength hparcels haccepted hreports => exact h.born rfl hlength hparcels haccepted hreports t
  | moved x y rs hmoves hparcels haccepted hreports =>
    obtain ⟨hbalance, hsame⟩ := h.moved hmoves hparcels haccepted hreports t
    exact ⟨hbalance, hgrow t _ hsame.le⟩
  | ended x rs hends hparcels haccepted hreports =>
    obtain ⟨hbalance, hless⟩ := h.ended hends hparcels haccepted hreports t
    exact ⟨hbalance, hgrow t _ hless⟩
  | lost c hc hmany =>
    have hfew := h.limits _ (mem_map_of_mem hc)
    rcases hn : c.opts.concurrency with _ | n
    · simp [hn] at hmany
    · simp only [hn, Option.all_some, Option.any_some, decide_eq_true_eq] at hfew hmany
      omega

theorem conserved_run (hash : Str → Nat) {as : List Action} (has : ∀ a ∈ as, a.limited = true) : Conserved (Bus.new.run hash as) :=
  run_induct (fun _ _ h ha => h.step ha) has conserved_new

end Messaging

end Ferroly
