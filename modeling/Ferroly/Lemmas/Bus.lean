import Ferroly.Messaging.Bus
import Mathlib.Algebra.BigOperators.Group.List.Basic
import Mathlib.Algebra.Order.Group.Multiset
import Mathlib.Tactic.Abel

/-!
# Steps of the message bus

What an action does to the messages: nothing, or a new one appears at a caller, or one goes from a place to the next, or one leaves the
bus, or a consumer that cannot begin takes those in its channel with it. Everything about runs of the bus is derived from this.
-/

namespace Ferroly

open List

/-- A sum over a list in which one entry is replaced. -/
theorem sum_set {α M : Type*} [AddCommMonoid M] {l : List α} {i : Nat} {a : α} (h : l[i]? = some a) (x : α) (f : α → M) :
    ((l.set i x).map f).sum + f a = (l.map f).sum + f x := by
  obtain ⟨hi, rfl⟩ := List.getElem?_eq_some_iff.mp h
  induction l generalizing i with
  | nil => cases hi
  | cons b l ih =>
    cases i with
    | zero => simp only [set_cons_zero, map_cons, sum_cons, getElem_cons_zero, add_comm, add_left_comm]
    | succ i =>
      have hrest := ih (i := i) (Nat.lt_of_succ_lt_succ hi) (getElem?_eq_getElem _)
      simp only [set_cons_succ, map_cons, sum_cons, getElem_cons_succ]
      rw [add_assoc, hrest, add_assoc]

/-- One part of a whole is replaced by another. -/
theorem replace_part {M : Type*} [AddCancelCommMonoid M] {a c p q x y : M} (h : c + p = a + q) (hpart : q + x = p + y) :
    c + x = a + y := by
  apply add_right_cancel (b := p)
  calc c + x + p = c + p + x := add_right_comm _ _ _
    _ = a + (q + x) := by rw [h, add_assoc]
    _ = a + y + p := by rw [hpart, add_comm p, add_assoc]

namespace Messaging

variable {listeners : List Listener} {sends : List Send} {c : Listener} {i l : Nat} {s : Send}

/-! ## Messages and their places -/

/-- Parcels at their places, in no order. -/
abbrev Bag := Multiset (Place × Parcel)

theorem Bus.coe_parcels (b : Bus) : (b.parcels : Bag) =
      (b.listeners.map (fun c => (c.parcels : Bag))).sum + (b.sends.map (fun s => (s.parcels : Bag))).sum := by
  have hflat : ∀ {α : Type} (f : α → List (Place × Parcel)) (l : List α),
      ((l.flatMap f : List (Place × Parcel)) : Bag) = (l.map (fun a => (f a : Bag))).sum := by
    intro α f l
    induction l with
    | nil => rfl
    | cons a l ih => rw [flatMap_cons, map_cons, sum_cons, ← ih, Multiset.coe_add]
  unfold Bus.parcels
  rw [← Multiset.coe_add, hflat, hflat]

/-- One message goes from a place to the next; the reports that come with it. -/
inductive Moves (hash : Str → Nat) (b : Bus) : Place × Parcel → Place × Parcel → List Report → Prop where
  | pick (s : Send) (l : Nat) (hs : s ∈ b.sends)
    (hl : (b.pick hash (destName s.addr) (s.opts.routingKey.or s.parcel.msg.routingKey)).1 = some l) :
    Moves hash b (.send s.origin s.addr none, s.parcel) (.send s.origin s.addr (some l), s.parcel) [.send s.addr s.parcel]
  | push (o : Origin) (addr : Str) (l : Nat) (c : Listener) (p : Parcel) (hc : b.listeners[l]? = some c) :
    Moves hash b (.send o addr (some l), p) (.queue c.id c.name, p) []
  | receive (c : Listener) (p : Parcel) : Moves hash b (.queue c.id c.name, p) (.hand c.id c.name, p) []
  | handle (c : Listener) (p : Parcel) (hc : c ∈ b.listeners) :
    Moves hash b (.hand c.id c.name, p) (.running c.id c.name, p) [.receive c.id (chanAddr c.name) p]
  | requeue (c : Listener) (p : Parcel) (hc : c ∈ b.listeners) (h : p.again.msg.deliveryCount < c.opts.maxDeliveryAttempts) :
    Moves hash b (.running c.id c.name, p) (.send .requeue (chanAddr c.name) none, p.again)
      [.nack .retry (chanAddr c.name) p.again true]
  | deadLetter (c : Listener) (p : Parcel) (dlq : Str) (hc : c ∈ b.listeners) (h : c.opts.deadLetter = some dlq) :
    Moves hash b (.running c.id c.name, p) (.send .deadLetter dlq none, p.again) [.nack .retry (chanAddr c.name) p.again false]

/-- One message leaves the bus; the reports that come with it. -/
inductive Ends : Place × Parcel → List Report → Prop where
  | refused (addr : Str) (l : Option Nat) (p : Parcel) : Ends (.send .caller addr l, p) []
  | dropped (o : Origin) (addr : Str) (l : Option Nat) (p : Parcel) (ho : o ≠ .caller) :
    Ends (.send o addr l, p) [.deadLetter addr p false]
  | acked (l : Nat) (name : Str) (p : Parcel) : Ends (.running l name, p) [.ack (chanAddr name) p]
  | rejected (l : Nat) (name : Str) (p : Parcel) : Ends (.running l name, p) [.nack .reject (chanAddr name) p false]
  | exhausted (l : Nat) (name : Str) (p : Parcel) :
    Ends (.running l name, p) [.nack .retry (chanAddr name) p.again false, .deadLetter (chanAddr name) p.again false]

/-- What an action does to the messages. -/
inductive Change (hash : Str → Nat) (b : Bus) (a : Action) (b' : Bus) : Prop where
  | quiet (rs : List Report) (hparcels : (b'.parcels : Bag) = b.parcels) (haccepted : (b'.accepted : Multiset Nat) = b.accepted)
    (hreports : b'.reports = b.reports ++ rs) (hrs : ∀ r ∈ rs, ∃ addr p, r = .deadLetter addr p true)
  | born (addr : Str) (msg : Message) (opts : SendOptions) (ha : a = .send addr msg opts) (hlength : b'.sends.length = b.sends.length + 1)
    (hparcels : (b'.parcels : Bag) = (b.parcels : Bag) +
      {(.send .caller addr none, ⟨b.sends.length, opts.routingKey.or msg.routingKey, msg⟩)})
    (haccepted : (b'.accepted : Multiset Nat) = b.accepted) (hreports : b'.reports = b.reports)
  | moved (x y : Place × Parcel) (rs : List Report) (hmoves : Moves hash b x y rs)
    (hparcels : (b'.parcels : Bag) + {x} = (b.parcels : Bag) + {y})
    (haccepted : (b'.accepted : Multiset Nat) = (b.accepted : Multiset Nat) + if x.1.onBus = false ∧ y.1.onBus = true then {x.2.tag} else 0)
    (hreports : b'.reports = b.reports ++ rs)
  | ended (x : Place × Parcel) (rs : List Report) (hends : Ends x rs)
    (hparcels : (b'.parcels : Bag) + {x} = b.parcels) (haccepted : (b'.accepted : Multiset Nat) = b.accepted)
    (hreports : b'.reports = b.reports ++ rs)
  | lost (c : Listener) (hc : c ∈ b.listeners) (hmany : c.opts.concurrency.any (· > maxPermits) = true) (xs : Bag)
    (hparcels : (b'.parcels : Bag) + xs = b.parcels) (haccepted : (b'.accepted : Multiset Nat) = b.accepted)
    (hreports : b'.reports = b.reports)

/-! ## Parts of the bus -/

section Parts

variable {b : Bus} {dests : HashMap Str DestState} {reports : List Report}

theorem Bus.coe_accepted (b : Bus) :
    (b.accepted : Multiset Nat) = (b.sends.map (fun s => (s.accepted.toList : Multiset Nat))).sum := by
  unfold Bus.accepted
  induction b.sends with
  | nil => rfl
  | cons s l ih =>
    rw [map_cons, sum_cons, ← ih, filterMap_cons]
    rcases s.accepted with _ | t
    · exact (zero_add _).symm
    · rfl

theorem Listener.coe_parcels (c : Listener) :
    (c.parcels : Bag) = (c.queue.map (fun p => (Place.queue c.id c.name, p)) : Bag) +
      (c.hand.toList.map (fun p => (Place.hand c.id c.name, p)) : Bag) +
      (c.running.map (fun p => (Place.running c.id c.name, p)) : Bag) := by
  unfold Listener.parcels
  rw [Multiset.coe_add, Multiset.coe_add]

/-- A listener is replaced. -/
theorem Bus.parcels_setListener {c' : Listener} (hc : b.listeners[l]? = some c) {x y : Bag}
    (hpart : (c'.parcels : Bag) + x = (c.parcels : Bag) + y) :
    ((⟨b.listeners.set l c', dests, sends, reports⟩ : Bus).parcels : Bag) + x =
      ((⟨b.listeners, dests, sends, reports⟩ : Bus).parcels : Bag) + y := by
  refine replace_part (p := (c.parcels : Bag)) ?_ hpart
  rw [Bus.coe_parcels, Bus.coe_parcels, add_right_comm, sum_set hc, add_right_comm]

/-- A send is replaced. -/
theorem Bus.parcels_setSend {s' : Send} (hs : b.sends[i]? = some s) {x y : Bag}
    (hpart : (s'.parcels : Bag) + x = (s.parcels : Bag) + y) :
    ((⟨b.listeners, dests, b.sends.set i s', reports⟩ : Bus).parcels : Bag) + x = (b.parcels : Bag) + y := by
  refine replace_part (p := (s.parcels : Bag)) ?_ hpart
  rw [Bus.coe_parcels, Bus.coe_parcels, add_assoc, sum_set hs, ← add_assoc]

theorem Bus.accepted_setSend {s' : Send} (hs : b.sends[i]? = some s) {x : Multiset Nat}
    (hpart : (s'.accepted.toList : Multiset Nat) = (s.accepted.toList : Multiset Nat) + x) :
    ((⟨listeners, dests, b.sends.set i s', reports⟩ : Bus).accepted : Multiset Nat) = (b.accepted : Multiset Nat) + x := by
  apply add_right_cancel (b := (s.accepted.toList : Multiset Nat))
  rw [Bus.coe_accepted, Bus.coe_accepted, sum_set hs, hpart, add_assoc, add_comm x]

/-- A send is added. -/
theorem Bus.parcels_addSend : ((⟨listeners, dests, sends ++ [s], reports⟩ : Bus).parcels : Bag) =
      ((⟨listeners, dests, sends, reports⟩ : Bus).parcels : Bag) + (s.parcels : Bag) := by
  rw [Bus.coe_parcels, Bus.coe_parcels, map_append, add_assoc]
  simp

theorem Bus.accepted_addSend (hnone : s.accepted = none) :
    (⟨listeners, dests, sends ++ [s], reports⟩ : Bus).accepted = (⟨listeners, dests, sends, reports⟩ : Bus).accepted := by
  unfold Bus.accepted
  rw [filterMap_append, filterMap_cons, hnone]
  simp

end Parts

theorem Bus.pick_parts (hash : Str → Nat) (b : Bus) (name : Str) (key : Option Str) :
    (b.pick hash name key).2.listeners = b.listeners ∧ (b.pick hash name key).2.sends = b.sends ∧
      (b.pick hash name key).2.reports = b.reports := by
  unfold Bus.pick
  rcases b.destinations.lookup name with _ | state
  · exact ⟨rfl, rfl, rfl⟩
  · dsimp only
    split
    · exact ⟨rfl, rfl, rfl⟩
    · rcases key with _ | k <;> exact ⟨rfl, rfl, rfl⟩

/-- Nothing happens to the messages. -/
theorem Change.same (hash : Str → Nat) {b b' : Bus} {a : Action} (hlisteners : b'.listeners = b.listeners) (hsends : b'.sends = b.sends)
    (hreports : b'.reports = b.reports) : Change hash b a b' := by
  refine .quiet [] ?_ ?_ (by rw [hreports, append_nil]) nofun
  · unfold Bus.parcels
    rw [hlisteners, hsends]
  · unfold Bus.accepted
    rw [hsends]

/-- A send fails. -/
theorem Change.failSend (hash : Str → Nat) {b b1 : Bus} {a : Action} {e : MessagingError} {l : Option Nat}
    (hlisteners : b1.listeners = b.listeners) (hsends : b1.sends = b.sends) (hreports : b1.reports = b.reports)
    (hs : b.sends[i]? = some s) (hparcels : s.parcels = [(.send s.origin s.addr l, s.parcel)]) (hnone : s.accepted = none) :
    Change hash b a (b1.failSend i s e) := by
  unfold Bus.failSend
  rw [hlisteners, hsends, hreports]
  refine .ended (.send s.origin s.addr l, s.parcel) (if s.origin = .caller then [] else [.deadLetter s.addr s.parcel false]) ?_ ?_ ?_ ?_
  · by_cases ho : s.origin = .caller
    · rw [ho]
      exact .refused _ _ _
    · rw [if_neg ho]
      exact .dropped _ _ _ _ ho
  · rw [← add_zero (b.parcels : Bag)]
    refine Bus.parcels_setSend hs ?_
    rw [hparcels]
    simp [Send.parcels]
  · rw [← add_zero (b.accepted : Multiset Nat)]
    refine Bus.accepted_setSend hs ?_
    rw [hnone]
    simp [Send.accepted]
  · by_cases ho : s.origin = .caller
    · simp [ho]
    · simp [ho]

/-! ## One action -/

section Step

variable (hash : Str → Nat) (b : Bus) {a : Action}

theorem change_send (addr : Str) (msg : Message) (opts : SendOptions) :
    Change hash b (.send addr msg opts) (b.step hash (.send addr msg opts)) := by
  rw [Bus.step]
  refine .born addr msg opts rfl length_append ?_ ?_ rfl
  · rw [Bus.parcels_addSend]
    rfl
  · rw [Bus.accepted_addSend rfl]

theorem change_addListener (addr : Str) (opts : ListenerOptions) : Change hash b a (b.step hash (.addListener addr opts)) := by
  rw [Bus.step]
  split
  · exact .same hash rfl rfl rfl
  · refine .quiet [] ?_ rfl (append_nil _).symm nofun
    unfold Bus.parcels
    simp [Listener.parcels]

/-- A send that is under way holds its message. -/
theorem Send.parcels_of_phase {l : Option Nat} (h : s.phase = l.elim .begun .picked) :
    s.parcels = [(.send s.origin s.addr l, s.parcel)] ∧ s.accepted = none := by
  unfold Send.parcels Send.accepted
  rw [h]
  rcases l with _ | l
  · exact ⟨rfl, by cases s.origin <;> rfl⟩
  · exact ⟨rfl, by cases s.origin <;> rfl⟩

theorem change_pickSend (hs : b.sends[i]? = some s) : Change hash b a (b.pickSend hash i s) := by
  unfold Bus.pickSend
  split
  · rename_i hphase
    obtain ⟨hparcels, hnone⟩ := Send.parcels_of_phase (l := none) hphase
    obtain ⟨hlisteners, hsends, hreports⟩ := b.pick_parts hash (destName s.addr) (s.opts.routingKey.or s.parcel.msg.routingKey)
    split
    · rename_i b1 hpick
      rw [hpick] at hlisteners hsends hreports
      exact .failSend hash hlisteners hsends hreports hs hparcels hnone
    · rename_i l b1 hpick
      rw [hpick] at hlisteners hsends hreports
      rw [hlisteners, hsends, hreports]
      refine .moved _ _ _ (.pick s l (mem_of_getElem? hs) (by rw [hpick])) ?_ ?_ rfl
      · refine Bus.parcels_setSend hs ?_
        rw [hparcels]
        exact add_comm _ _
      · refine Bus.accepted_setSend hs ?_
        rw [hnone]
        cases s.origin <;> simp [Send.accepted, Place.onBus]
  · exact .same hash rfl rfl rfl

theorem change_pushTo (hs : b.sends[i]? = some s) (hphase : s.phase = .picked l) (hc : b.listeners[l]? = some c) :
    Change hash b a (b.pushTo i s l c) := by
  obtain ⟨hparcels, hnone⟩ := Send.parcels_of_phase (l := some l) hphase
  unfold Bus.pushTo
  split
  · exact .failSend hash rfl rfl rfl hs hparcels hnone
  split
  · refine .moved _ _ _ (.push s.origin s.addr l c s.parcel hc) ?_ ?_ (append_nil _).symm
    · -- The message leaves the send, and then it enters the channel.
      refine (Bus.parcels_setListener (y := {(.send s.origin s.addr (some l), s.parcel)} + {(.queue c.id c.name, s.parcel)}) hc ?_).trans ?_
      · rw [c.coe_parcels, Listener.coe_parcels, map_append, ← Multiset.coe_add, map_singleton, Multiset.coe_singleton]
        abel
      · rw [← add_assoc, Bus.parcels_setSend (y := 0) hs, add_zero]
        rw [hparcels]
        by_cases ho : s.origin = .deadLetter <;> simp [Send.parcels, ho]
    · refine Bus.accepted_setSend hs ?_
      rw [hnone]
      cases s.origin <;> simp [Send.accepted, Place.onBus]
  split
  · exact .same hash rfl rfl rfl
  · exact .failSend hash rfl rfl rfl hs hparcels hnone

theorem change_pushSend (hs : b.sends[i]? = some s) : Change hash b a (b.pushSend i s) := by
  unfold Bus.pushSend
  split
  · rename_i l hphase
    split
    · rename_i c hc
      exact change_pushTo hash b hs hphase hc
    · exact .same hash rfl rfl rfl
  · exact .same hash rfl rfl rfl

theorem change_reportSend (hs : b.sends[i]? = some s) : Change hash b a (b.reportSend i s) := by
  unfold Bus.reportSend
  split
  · rename_i hphase horigin
    refine .quiet [.deadLetter s.addr s.parcel true] ?_ ?_ rfl (fun r hr => ⟨_, _, mem_singleton.mp hr⟩)
    · refine add_right_cancel (b := 0) (Bus.parcels_setSend hs ?_)
      simp [Send.parcels, hphase]
    · rw [← add_zero (b.accepted : Multiset Nat)]
      refine Bus.accepted_setSend hs ?_
      simp [Send.accepted, horigin]
  · exact .same hash rfl rfl rfl

/-- A consumer's state changes, but not what it holds. -/
theorem change_listener {c' : Listener} (hc : b.listeners[l]? = some c) (hparcels : c'.parcels = c.parcels) :
    Change hash b a { b with listeners := b.listeners.set l c' } := by
  refine .quiet [] ?_ rfl (append_nil _).symm nofun
  refine add_right_cancel (b := 0) (Bus.parcels_setListener hc ?_)
  rw [hparcels]

theorem change_beginConsumer (hc : b.listeners[l]? = some c) : Change hash b a (b.beginConsumer l c) := by
  unfold Bus.beginConsumer
  split
  · exact .same hash rfl rfl rfl
  split
  · rename_i hmany
    refine .lost c (mem_of_getElem? hc) hmany (c.queue.map (fun p => (.queue c.id c.name, p)) : List (Place × Parcel)) ?_ rfl rfl
    rw [← add_zero (b.parcels : Bag)]
    refine Bus.parcels_setListener hc ?_
    rw [c.coe_parcels, Listener.coe_parcels, map_nil]
    abel
  · exact change_listener hash b hc rfl

theorem change_receiveNext (hc : b.listeners[l]? = some c) : Change hash b a (b.receiveNext l c) := by
  unfold Bus.receiveNext
  split
  · rename_i p rest hqueue
    split
    · rename_i hidle
      refine .moved _ _ _ (.receive c p) ?_ ?_ (append_nil _).symm
      · refine Bus.parcels_setListener hc ?_
        have hhand : c.hand = none := by
          simp only [Listener.idle, Bool.and_eq_true, Option.isNone_iff_eq_none] at hidle
          exact hidle.1.2
        rw [c.coe_parcels, Listener.coe_parcels, hqueue, hhand, map_cons, ← Multiset.cons_coe, ← Multiset.singleton_add]
        simp only [Option.toList_some, map_singleton, Multiset.coe_singleton]
        abel
      · rw [if_neg (by simp [Place.onBus]), add_zero]
        rfl
    · exact .same hash rfl rfl rfl
  · exact .same hash rfl rfl rfl

theorem change_handleNext (hc : b.listeners[l]? = some c) : Change hash b a (b.handleNext l c) := by
  unfold Bus.handleNext
  split
  · rename_i p hhand
    split
    · refine .moved _ _ _ (.handle c p (mem_of_getElem? hc)) ?_ ?_ rfl
      · refine Bus.parcels_setListener hc ?_
        rw [c.coe_parcels, Listener.coe_parcels, hhand, map_append, ← Multiset.coe_add]
        simp only [map_singleton, Multiset.coe_singleton]
        abel
      · rw [if_neg (by simp [Place.onBus]), add_zero]
        rfl
    · exact .same hash rfl rfl rfl
  · exact .same hash rfl rfl rfl

/-- The message of a handler that has returned is no longer with it. -/
theorem parcels_finished {k : Nat} {p : Parcel} (hc : b.listeners[l]? = some c) (hk : c.running[k]? = some p)
    {dests : HashMap Str DestState} {reports : List Report} :
    ((⟨b.listeners.set l { c with running := c.running.eraseIdx k }, dests, sends, reports⟩ : Bus).parcels : Bag) +
        {(.running c.id c.name, p)} = ((⟨b.listeners, dests, sends, reports⟩ : Bus).parcels : Bag) := by
  rw [← add_zero ((⟨b.listeners, dests, sends, reports⟩ : Bus).parcels : Bag)]
  refine Bus.parcels_setListener hc ?_
  obtain ⟨hlt, rfl⟩ := List.getElem?_eq_some_iff.mp hk
  have hrunning : (c.running.map (fun p => (Place.running c.id c.name, p)) : Bag) =
      {(Place.running c.id c.name, c.running[k])} + ((c.running.eraseIdx k).map (fun p => (Place.running c.id c.name, p)) : List (Place × Parcel)) := by
    rw [Multiset.singleton_add, Multiset.cons_coe, Multiset.coe_eq_coe]
    exact ((getElem_cons_eraseIdx_perm hlt).map _).symm
  rw [c.coe_parcels, Listener.coe_parcels, hrunning]
  abel

theorem change_finishJob {k : Nat} {ack : Ack} (hc : b.listeners[l]? = some c) : Change hash b a (b.finishJob l c k ack) := by
  unfold Bus.finishJob
  split
  swap
  · exact .same hash rfl rfl rfl
  rename_i p hk
  have hmem := mem_of_getElem? hc
  have hspawn : ∀ (s : Send) (rs : List Report) (y : Place × Parcel), Moves hash b (.running c.id c.name, p) y rs → y.1.onBus = true →
      s.parcels = [y] → s.accepted = none →
      Change hash b a ⟨b.listeners.set l { c with running := c.running.eraseIdx k }, b.destinations, b.sends ++ [s], b.reports ++ rs⟩ := by
    intro s rs y hmoves hbus hparcels hnone
    refine .moved _ _ _ hmoves ?_ ?_ rfl
    · rw [Bus.parcels_addSend, add_right_comm, parcels_finished b hc hk, hparcels]
      rfl
    · rw [Bus.accepted_addSend hnone, if_neg (by simp [Place.onBus]), add_zero]
      rfl
  have hends : ∀ rs, Ends (.running c.id c.name, p) rs →
      Change hash b a ⟨b.listeners.set l { c with running := c.running.eraseIdx k }, b.destinations, b.sends, b.reports ++ rs⟩ :=
    fun rs hends => .ended _ _ hends (parcels_finished b hc hk) rfl rfl
  cases ack with
  | ok => exact hends _ (.acked c.id c.name p)
  | reject => exact hends _ (.rejected c.id c.name p)
  | retry =>
    unfold Bus.settle
    dsimp only
    by_cases hlt : p.again.msg.deliveryCount < c.opts.maxDeliveryAttempts
    · rw [decide_eq_true hlt]
      exact hspawn _ _ _ (.requeue c p hmem hlt) rfl rfl rfl
    · rw [decide_eq_false hlt, if_neg Bool.false_ne_true]
      split
      · rename_i dlq hdlq
        exact hspawn _ _ _ (.deadLetter c p dlq hmem hdlq) rfl rfl rfl
      · unfold Bus.tell
        rw [append_assoc]
        exact hends _ (.exhausted c.id c.name p)

theorem change_exitConsumer (hc : b.listeners[l]? = some c) : Change hash b a (b.exitConsumer l c) := by
  unfold Bus.exitConsumer
  split
  · exact change_listener hash b hc rfl
  · exact .same hash rfl rfl rfl

/-- What holds of the bus and of every step of a send that is there holds after a step of a send. -/
theorem Bus.withSend_of {P : Bus → Prop} {f : Send → Bus} (hb : P b) (hf : ∀ s, b.sends[i]? = some s → P (f s)) : P (b.withSend i f) := by
  unfold Bus.withSend
  split
  next s hs => exact hf s hs
  · exact hb

theorem Bus.withListener_of {P : Bus → Prop} {f : Listener → Bus} (hb : P b) (hf : ∀ c, b.listeners[l]? = some c → P (f c)) :
    P (b.withListener l f) := by
  unfold Bus.withListener
  split
  next c hc => exact hf c hc
  · exact hb

/-- What one action does to the messages. -/
theorem change_step (a : Action) : Change hash b a (b.step hash a) := by
  have hsame : Change hash b a b := .same hash rfl rfl rfl
  cases a with
  | send addr msg opts => exact change_send hash b addr msg opts
  | addListener addr opts => exact change_addListener hash b addr opts
  | stop => exact .same hash rfl rfl rfl
  | pick i => exact b.withSend_of hsame (fun s hs => change_pickSend hash b hs)
  | push i => exact b.withSend_of hsame (fun s hs => change_pushSend hash b hs)
  | report i => exact b.withSend_of hsame (fun s hs => change_reportSend hash b hs)
  | begin l => exact b.withListener_of hsame (fun c hc => change_beginConsumer hash b hc)
  | receive l => exact b.withListener_of hsame (fun c hc => change_receiveNext hash b hc)
  | handle l => exact b.withListener_of hsame (fun c hc => change_handleNext hash b hc)
  | finish l k ack => exact b.withListener_of hsame (fun c hc => change_finishJob hash b hc)
  | exit l => exact b.withListener_of hsame (fun c hc => change_exitConsumer hash b hc)

end Step

end Messaging

end Ferroly
