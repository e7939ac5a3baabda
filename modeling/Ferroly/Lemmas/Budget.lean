import Ferroly.Lemmas.BusRouting
import Ferroly.Lib.Graph
import Mathlib.Data.List.MinMax

/-!
# How often a message is delivered

A message that arrives at a destination has been delivered at most as often as the destinations before it allow, and while it is there
its count keeps it within what this one allows. So without a cycle of dead letters all deliveries stay within the budget.
-/

namespace Ferroly.Messaging

open List Ferroly.Graph Relation

variable {b : Bus} {top : List (Str × ListenerOptions)} {rs : List Report} {x y : Place × Parcel} {hash : Str → Nat}

/-! ## Attempts -/

section Topology

variable {n : Str} {opts : ListenerOptions}

theorem le_attempts (h : (n, opts) ∈ top) : opts.maxDeliveryAttempts.toNat ≤ attempts top n :=
  le_max_of_le (mem_map_of_mem (f := fun e : Str × ListenerOptions => e.2.maxDeliveryAttempts.toNat)
    (mem_filter.mpr ⟨h, decide_eq_true rfl⟩)) (Nat.le_refl _)

theorem mem_destinations (h : (n, opts) ∈ top) : n ∈ destinations top := mem_toFinset.mpr (mem_map_of_mem h)

/-- How often the destinations before a destination may deliver a message. -/
noncomputable def before (top : List (Str × ListenerOptions)) (n : Str) : Nat :=
  weightBefore (DeadLetters top) (destinations top) (allowance top) n

end Topology

/-! ## What a message has used -/

/-- The destination where a message is, or where it is sent to. -/
def Place.dest : Place → Str
  | .send _ addr _ => destName addr
  | .queue _ name => name
  | .hand _ name => name
  | .running _ name => name

/-- A handler has the message, so its delivery is not in its count yet. -/
def Place.given : Place → Nat
  | .running _ _ => 1
  | _ => 0

/-- What a message at a place has used, if it was delivered so often: what the destinations before allow, and at this one no more than
its count says. And its count cannot overflow. -/
structure Spent (top : List (Str × ListenerOptions)) (d : Nat) (x : Place × Parcel) : Prop where
  visits : ∃ v, d ≤ before top x.1.dest + v + x.1.given ∧
    (v = 0 ∨ v ≤ x.2.msg.deliveryCount.toNat ∧ x.2.msg.deliveryCount.toNat < attempts top x.1.dest)
  room : x.2.msg.deliveryCount.toNat + x.1.given + budget top < 2 ^ 32 + d

/-- One more delivery is within the allowance. -/
theorem Spent.within {d : Nat} (h : Spent top d x) : d + 1 ≤ before top x.1.dest + allowance top x.1.dest + x.1.given := by
  obtain ⟨v, hd, hv⟩ := h.visits
  unfold allowance
  omega

/-- A count that is far from overflow grows by one. -/
theorem toNat_again {p : Parcel} (h : p.msg.deliveryCount.toNat + 1 < 2 ^ 32) :
    p.again.msg.deliveryCount.toNat = p.msg.deliveryCount.toNat + 1 := by
  unfold Parcel.again
  exact Nat.mod_eq_of_lt h

/-- The listeners that are there are among those of the topology. -/
theorem mem_topology (hroster : ∀ e ∈ b.roster, e.2 ∈ top) {c : Listener} (hc : c ∈ b.listeners) : (c.name, c.opts) ∈ top :=
  hroster _ (mem_map_of_mem hc)

/-- On its way a message stays within the budget. -/
theorem Spent.moves (hacyclic : Acyclic (DeadLetters top)) {d : Nat} (hrouted : Routed b) (hroster : ∀ e ∈ b.roster, e.2 ∈ top)
    (hx : x ∈ b.parcels) (hmoves : Moves hash b x y rs) (hd : d ≤ budget top) (h : Spent top d x) :
    Spent top (d + rs.countP (Report.delivers x.2.tag)) y ∧ d + rs.countP (Report.delivers x.2.tag) ≤ budget top := by
  have hwithin := h.within
  obtain ⟨⟨v, hvisits, hv⟩, hroom⟩ := h
  cases hmoves with
  | pick s l hs hl | receive c p => exact ⟨⟨⟨v, hvisits, hv⟩, hroom⟩, hd⟩
  | push o addr l c p hc =>
    refine ⟨⟨⟨v, ?_⟩, hroom⟩, hd⟩
    rw [(hrouted.push hx hc).2]
    exact ⟨hvisits, hv⟩
  | handle c p hc =>
    have hone : [Report.receive c.id (chanAddr c.name) p].countP (Report.delivers p.tag) = 1 := by
      rw [countP_singleton, Report.delivers, beq_self_eq_true, if_pos rfl]
    have hbudget : before top c.name + allowance top c.name ≤ budget top :=
      weightBefore_add_le_sum hacyclic (mem_destinations (mem_topology hroster hc))
    simp only [Place.dest, Place.given] at hvisits hv hroom hwithin
    rw [hone]
    refine ⟨⟨⟨v, ?_, hv⟩, ?_⟩, by omega⟩
    · simp only [Place.dest, Place.given]
      omega
    · simp only [Place.given]
      omega
  | requeue c p hc hlt =>
    have hlimit := le_attempts (mem_topology hroster hc)
    simp only [Place.given] at hvisits hv hroom
    have hcount := toNat_again (p := p) (by omega)
    have hlt' := UInt32.lt_iff_toNat_lt.mp hlt
    rw [hcount] at hlt'
    refine ⟨⟨⟨v + 1, ?_, .inr ?_⟩, ?_⟩, hd⟩
    · exact hvisits
    · rw [hcount]
      refine ⟨by omega, ?_⟩
      exact Nat.lt_of_lt_of_le hlt' hlimit
    · rw [hcount]
      exact hroom
  | deadLetter c p dlq hc hdlq =>
    have hmem := mem_topology hroster hc
    have hnext : before top c.name + allowance top c.name ≤ before top (destName dlq) :=
      weightBefore_add_le_next hacyclic (mem_destinations hmem) ⟨_, hmem, rfl, dlq, hdlq, rfl⟩
    simp only [Place.given] at hroom hwithin
    have hcount := toNat_again (p := p) (by omega)
    refine ⟨⟨⟨0, ?_, .inl rfl⟩, ?_⟩, hd⟩
    · exact Nat.le_trans (Nat.le_of_succ_le_succ hwithin) hnext
    · rw [hcount]
      exact hroom

/-! ## Runs within the budget -/

/-- Every message is in one place at most and within the budget. -/
structure Budgeted (top : List (Str × ListenerOptions)) (b : Bus) : Prop where
  routed : Routed b
  roster : ∀ e ∈ b.roster, e.2 ∈ top
  single : ∀ t, b.parcels.countP (fun x => x.2.tag == t) ≤ if t < b.sends.length then 1 else 0
  fresh : ∀ t, b.sends.length ≤ t → b.deliveries t = 0
  total : ∀ t, b.deliveries t ≤ budget top
  spent : ∀ x ∈ b.parcels, Spent top (b.deliveries x.2.tag) x

theorem budgeted_new (top : List (Str × ListenerOptions)) : Budgeted top Bus.new :=
  ⟨routed_new, fun e he => (by cases he), fun _ => Nat.zero_le _, fun _ _ => rfl, fun _ => Nat.zero_le _, fun x hx => (by cases hx)⟩

/-- A message that is there was begun. -/
theorem Budgeted.tag_lt (h : Budgeted top b) (hx : x ∈ b.parcels) : x.2.tag < b.sends.length := by
  by_contra hlt
  have hsingle := h.single x.2.tag
  rw [if_neg hlt, Nat.le_zero, countP_eq_zero] at hsingle
  exact hsingle x hx (beq_self_eq_true _)

theorem Bus.deliveries_append {b' : Bus} (h : b'.reports = b.reports ++ rs) (t : Nat) :
    b'.deliveries t = b.deliveries t + rs.countP (Report.delivers t) := by
  unfold Bus.deliveries
  rw [h, countP_append]

/-- Only the message that goes on is delivered. -/
theorem Moves.delivers_other (h : Moves hash b x y rs) {t : Nat} (ht : x.2.tag ≠ t) : rs.countP (Report.delivers t) = 0 := by
  cases h with
  | handle c p _ =>
    rw [countP_singleton, Report.delivers, beq_false_of_ne ht]
    rfl
  | _ => rfl

theorem Ends.delivers (h : Ends x rs) (t : Nat) : rs.countP (Report.delivers t) = 0 := by
  cases h <;> rfl

section Step

variable {b' : Bus}

/-- Nothing is delivered, and no message is at a new place. -/
theorem Budgeted.less (h : Budgeted top b) (hrouted : Routed b') (hroster : ∀ e ∈ b'.roster, e.2 ∈ top)
    (hlength : b.sends.length ≤ b'.sends.length) (xs : List (Place × Parcel))
    (hparcels : (b'.parcels : Bag) + (xs : Bag) = b.parcels)
    (hdeliveries : ∀ t, b'.deliveries t = b.deliveries t) : Budgeted top b' := by
  have hperm : (b'.parcels ++ xs).Perm b.parcels := Multiset.coe_eq_coe.mp hparcels
  refine ⟨hrouted, hroster, ?_, ?_, ?_, ?_⟩
  · intro t
    have hsingle := h.single t
    rw [← hperm.countP_eq, countP_append] at hsingle
    split at hsingle
    · rw [if_pos (by omega)]
      omega
    · omega
  · intro t ht
    rw [hdeliveries]
    exact h.fresh t (by omega)
  · intro t
    rw [hdeliveries]
    exact h.total t
  · intro x hx
    rw [hdeliveries]
    exact h.spent x (hperm.mem_iff.mp (mem_append_left _ hx))

/-- A new message has used nothing. -/
theorem Budgeted.born (h : Budgeted top b) (hrouted : Routed b') (hroster : ∀ e ∈ b'.roster, e.2 ∈ top) {addr : Str} {p : Parcel}
    (htag : p.tag = b.sends.length) (hlength : b'.sends.length = b.sends.length + 1)
    (hparcels : (b'.parcels : Bag) = (b.parcels : Bag) + {(.send .caller addr none, p)})
    (hreports : b'.reports = b.reports) (hroom : p.msg.deliveryCount.toNat + budget top < 2 ^ 32) : Budgeted top b' := by
  have hperm : b'.parcels.Perm (b.parcels ++ [(.send .caller addr none, p)]) := Multiset.coe_eq_coe.mp hparcels
  have hdeliveries : ∀ t, b'.deliveries t = b.deliveries t := fun t => by unfold Bus.deliveries; rw [hreports]
  refine ⟨hrouted, hroster, ?_, ?_, ?_, ?_⟩
  · intro t
    have hsingle := h.single t
    rw [hperm.countP_eq, countP_append, countP_singleton, htag]
    by_cases ht : b.sends.length = t
    · rw [if_neg (by omega)] at hsingle
      rw [if_pos (beq_iff_eq.mpr ht), if_pos (by omega)]
      omega
    · rw [if_neg (by simpa using ht)]
      split at hsingle
      · rw [if_pos (by omega)]
        omega
      · omega
  · intro t ht
    rw [hdeliveries]
    exact h.fresh t (by omega)
  · intro t
    rw [hdeliveries]
    exact h.total t
  · intro x hx
    rw [hdeliveries]
    rcases mem_append.mp (hperm.mem_iff.mp hx) with hx | hx
    · exact h.spent x hx
    · obtain rfl := mem_singleton.mp hx
      rw [h.fresh _ htag.ge]
      exact ⟨⟨0, Nat.zero_le _, .inl rfl⟩, hroom⟩

/-- A message goes on. -/
theorem Budgeted.moved (hacyclic : Acyclic (DeadLetters top)) (h : Budgeted top b) (hrouted : Routed b')
    (hroster : ∀ e ∈ b'.roster, e.2 ∈ top) (hlength : b.sends.length ≤ b'.sends.length) (hmoves : Moves hash b x y rs)
    (hparcels : (b'.parcels : Bag) + {x} = (b.parcels : Bag) + {y})
    (hreports : b'.reports = b.reports ++ rs) : Budgeted top b' := by
  obtain ⟨hx, hy, hall⟩ := hmoves.mem hparcels
  have htag := hmoves.keep.1
  have hdeliveries := Bus.deliveries_append hreports
  obtain ⟨hspent, htotal⟩ := (h.spent x hx).moves hacyclic h.routed h.roster hx hmoves (h.total _)
  rw [← hdeliveries] at hspent htotal
  have hother : ∀ t, x.2.tag ≠ t → b'.deliveries t = b.deliveries t := by
    intro t ht
    rw [hdeliveries, hmoves.delivers_other ht, Nat.add_zero]
  have hsingle : ∀ t, b'.parcels.countP (fun x => x.2.tag == t) ≤ if t < b'.sends.length then 1 else 0 := by
    intro t
    have hcount := countP_exchange [x] [y] hparcels (fun x => x.2.tag == t)
    have hsingle := h.single t
    rw [countP_singleton, countP_singleton, htag] at hcount
    split at hsingle
    · rw [if_pos (by omega)]
      omega
    · omega
  refine ⟨hrouted, hroster, hsingle, ?_, ?_, ?_⟩
  · intro t ht
    have hlt := h.tag_lt hx
    rw [hother t (by omega)]
    exact h.fresh t (by omega)
  · intro t
    by_cases ht : x.2.tag = t
    · rw [← ht]
      exact htotal
    · rw [hother t ht]
      exact h.total t
  · intro z hz
    by_cases ht : z.2.tag = x.2.tag
    · -- There is only one message of this number.
      have hle : b'.parcels.countP (fun w => w.2.tag == x.2.tag) ≤ 1 := (hsingle x.2.tag).trans (by split <;> omega)
      rw [eq_of_countP_le_one hle hz hy (beq_iff_eq.mpr ht) (beq_iff_eq.mpr htag), htag]
      exact hspent
    · rw [hother _ (Ne.symm ht)]
      refine h.spent z ((hall z hz).resolve_left ?_)
      rintro rfl
      exact ht htag

/-- An action keeps all messages within the budget. -/
theorem Budgeted.step (hacyclic : Acyclic (DeadLetters top)) (h : Budgeted top b) {a : Action}
    (hadds : ∀ e, a.adds = some e → e ∈ top) (hfits : a.fits (budget top) = true) : Budgeted top (b.step hash a) := by
  have hrouted : Routed (b.step hash a) := h.routed.step a
  have hroster : ∀ e ∈ (b.step hash a).roster, e.2 ∈ top := roster_step h.roster hadds
  have hlength := (step_roster hash b a).2
  cases change_step hash b a with
  | quiet rs hparcels _ hreports hrs =>
    refine h.less hrouted hroster hlength [] ((add_zero _).trans hparcels) ?_
    intro t
    have hnone : rs.countP (Report.delivers t) = 0 := by
      rw [countP_eq_zero]
      intro r hr
      obtain ⟨addr, p, rfl⟩ := hrs r hr
      exact Bool.false_ne_true
    rw [Bus.deliveries_append hreports, hnone, Nat.add_zero]
  | born addr msg opts ha hlength hparcels _ hreports =>
    subst ha
    exact h.born hrouted hroster rfl hlength hparcels hreports (of_decide_eq_true hfits)
  | moved x y rs hmoves hparcels _ hreports => exact h.moved hacyclic hrouted hroster hlength hmoves hparcels hreports
  | ended x rs hends hparcels _ hreports =>
    refine h.less hrouted hroster hlength [x] hparcels ?_
    intro t
    rw [Bus.deliveries_append hreports, hends.delivers, Nat.add_zero]
  | lost c _ _ xs hparcels _ hreports =>
    refine h.less hrouted hroster hlength xs.toList (by rw [Multiset.coe_toList]; exact hparcels) ?_
    intro t
    unfold Bus.deliveries
    rw [hreports]

end Step

theorem budgeted_run {as : List Action} (hacyclic : Acyclic (DeadLetters (topology as)))
    (hfits : ∀ a ∈ as, a.fits (budget (topology as)) = true) : Budgeted (topology as) (Bus.new.run hash as) := by
  have hmeets : ∀ a ∈ as, (∀ e, a.adds = some e → e ∈ topology as) ∧ a.fits (budget (topology as)) = true :=
    fun a ha => ⟨fun e he => mem_filterMap.mpr ⟨a, ha, he⟩, hfits a ha⟩
  exact run_induct (fun b a h ha => h.step hacyclic ha.1 ha.2) hmeets (budgeted_new _)

end Ferroly.Messaging
