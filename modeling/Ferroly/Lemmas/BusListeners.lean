import Ferroly.Lemmas.Bus

/-!
# The listeners and the sends of the message bus

What an action does to the listeners of the destinations, to their receivers and to the sends: listeners and sends are added and never
taken away, and a receiver whose channel has a sender stays.
-/

namespace Ferroly.Messaging

open List

variable {ss : List Send} {i l : Nat} {s : Send}

/-! ## The listeners of a destination -/

def Bus.listed (b : Bus) (m : Str) : List Nat := (b.destinations.lookup m).elim [] DestState.listeners

/-- Those whose receiver is not gone. -/
def Bus.live (b : Bus) (m : Str) : List Nat := (b.listed m).filter (fun l => !b.isClosed l)

theorem hasSender_of_listed {b : Bus} {m : Str} (h : l ∈ b.listed m) : b.hasSender l = true := by
  unfold Bus.listed at h
  rcases hd : b.destinations.lookup m with _ | d
  · rw [hd] at h
    cases h
  · rw [hd] at h
    unfold Bus.hasSender
    rw [Bool.or_eq_true]
    left
    exact any_eq_true.mpr ⟨⟨m, d⟩, AList.mem_lookup_iff.mp hd, decide_eq_true h⟩

section Pick

variable (hash : Str → Nat) (b : Bus)

theorem listed_insert {m : Str} {d : DestState} {ls : List Listener} {rs : List Report} (m' : Str) :
    (⟨ls, b.destinations.insert m d, ss, rs⟩ : Bus).listed m' = if m' = m then d.listeners else b.listed m' := by
  unfold Bus.listed
  by_cases h : m' = m
  · subst h
    rw [if_pos rfl, AList.lookup_insert]
    rfl
  · rw [if_neg h, AList.lookup_insert_ne h]

/-- Picking drops the receivers that are gone, and does nothing else to the listeners. -/
theorem pick_listed (m : Str) (key : Option Str) (m' : Str) :
    (b.pick hash m key).2.listed m' = b.listed m' ∨ (b.pick hash m key).2.listed m' = b.live m' := by
  unfold Bus.pick
  rcases hd : b.destinations.lookup m with _ | d
  · exact .inl rfl
  have hlive : ∀ rr, (if m' = m then (⟨d.listeners.filter (fun l => !b.isClosed l), rr⟩ : DestState).listeners else b.listed m') = b.listed m' ∨
      (if m' = m then (⟨d.listeners.filter (fun l => !b.isClosed l), rr⟩ : DestState).listeners else b.listed m') = b.live m' := by
    intro rr
    by_cases h : m' = m
    · subst h
      right
      rw [if_pos rfl]
      unfold Bus.live Bus.listed
      rw [hd]
      rfl
    · exact .inl (if_neg h)
  dsimp only
  split
  · rw [listed_insert]
    exact hlive _
  · rcases key with _ | k
    · rw [listed_insert]
      exact hlive _
    · rw [listed_insert]
      exact hlive _

/-- A key leads to the listener that its hash selects among those that are there. -/
theorem pick_some {m : Str} {key : Option Str} (h : (b.pick hash m key).1 = some l) :
    l ∈ b.listed m ∧ ∀ k, key = some k → (b.live m)[hash k % (b.live m).length]? = some l := by
  unfold Bus.pick at h
  rcases hd : b.destinations.lookup m with _ | d
  · rw [hd] at h
    cases h
  have hlive : d.listeners.filter (fun l => !b.isClosed l) = b.live m := by
    unfold Bus.live Bus.listed
    rw [hd]
    rfl
  rw [hd] at h
  dsimp only at h
  rw [hlive] at h
  split at h
  · cases h
  have hmem : ∀ i : Nat, (b.live m)[i]? = some l → l ∈ b.listed m := fun i hi => (mem_filter.mp (mem_of_getElem? hi)).1
  rcases key with _ | k
  · exact ⟨hmem _ h, fun k hk => absurd hk nofun⟩
  · refine ⟨hmem _ h, ?_⟩
    rintro k' ⟨⟩
    exact h

end Pick

/-! ## What no action takes away -/

/-- The listeners as they were added. -/
def Bus.roster (b : Bus) : List (Nat × Str × ListenerOptions) := b.listeners.map (fun c => (c.id, c.name, c.opts))

/-- The listener that an action adds. -/
def Bus.added (b : Bus) : Action → List (Nat × Str × ListenerOptions)
  | .addListener addr opts =>
    if opts.bufferSize = 0 ∨ opts.bufferSize > maxPermits then [] else [(b.listeners.length, destName addr, opts)]
  | _ => []

/-- An action of a user: a send is begun, a listener is added, or the bus is stopped. -/
def Action.calls : Action → Bool
  | .send _ _ _ => true
  | .addListener _ _ => true
  | .stop => true
  | _ => false

/-- No send is taken away, and one that is added uses the message's own key. -/
def SendsKept (ss ss' : List Send) : Prop :=
  ss.length ≤ ss'.length ∧
    ∀ s' ∈ ss', (∃ s ∈ ss, s'.opts.routingKey = s.opts.routingKey ∧ s'.parcel = s.parcel) ∨ s'.opts.routingKey = none

theorem sendsKept_refl (ss : List Send) : SendsKept ss ss := ⟨Nat.le_refl _, fun s hs => .inl ⟨s, hs, rfl, rfl⟩⟩

theorem sendsKept_set (hs : ss[i]? = some s) (phase : SendPhase) : SendsKept ss (ss.set i { s with phase := phase }) := by
  refine ⟨by rw [length_set], ?_⟩
  intro s' hs'
  rcases mem_or_eq_of_mem_set hs' with h | rfl
  · exact .inl ⟨s', h, rfl, rfl⟩
  · exact .inl ⟨s, mem_of_getElem? hs, rfl, rfl⟩

theorem sendsKept_add (hkey : s.opts.routingKey = none) : SendsKept ss (ss ++ [s]) := by
  refine ⟨by simp, ?_⟩
  intro s' hs'
  rcases mem_append.mp hs' with h | h
  · exact .inl ⟨s', h, rfl, rfl⟩
  · rw [mem_singleton.mp h]
    exact .inr hkey

/-- A step of a send or of a consumer adds no listener and takes away no send, and a destination loses only receivers that are gone. A
receiver is gone only if its semaphore could not be made or its channel has no sender. -/
structure Keeps (b b' : Bus) : Prop where
  roster : b'.roster = b.roster
  closed : ∀ l, b'.isClosed l = true →
    b.isClosed l = true ∨ ∃ c, b.listeners[l]? = some c ∧ (c.opts.concurrency.any (· > maxPermits) = true ∨ b.hasSender l = false)
  listed : ∀ m, b'.listed m = b.listed m ∨ b'.listed m = b.live m
  sends : SendsKept b.sends b'.sends

section Keep

variable (hash : Str → Nat) (b : Bus)

theorem keeps_of_listeners {b' : Bus} (hlisteners : b'.listeners = b.listeners)
    (hlisted : ∀ m, b'.listed m = b.listed m ∨ b'.listed m = b.live m) (hsends : SendsKept b.sends b'.sends) : Keeps b b' := by
  refine ⟨?_, ?_, hlisted, hsends⟩
  · unfold Bus.roster
    rw [hlisteners]
  · intro l h
    unfold Bus.isClosed at *
    rw [hlisteners] at h
    exact .inl h

theorem keeps_refl : Keeps b b := keeps_of_listeners b rfl (fun _ => .inl rfl) (sendsKept_refl _)

theorem keeps_setListener {c c' : Listener} {reports : List Report} {sends : List Send} (hc : b.listeners[l]? = some c)
    (h : (c'.id, c'.name, c'.opts) = (c.id, c.name, c.opts))
    (hclosed : c'.closed = true → c.closed = true ∨ c.opts.concurrency.any (· > maxPermits) = true ∨ b.hasSender l = false)
    (hsends : SendsKept b.sends sends) : Keeps b ⟨b.listeners.set l c', b.destinations, sends, reports⟩ := by
  obtain ⟨hl, rfl⟩ := List.getElem?_eq_some_iff.mp hc
  refine ⟨?_, ?_, fun _ => .inl rfl, hsends⟩
  · unfold Bus.roster
    rw [map_set, h, ← map_set (f := fun c : Listener => (c.id, c.name, c.opts)), set_getElem_self]
  · intro k hk
    unfold Bus.isClosed at *
    by_cases hkl : l = k
    · subst hkl
      simp only [getElem?_set_self hl] at hk
      rw [hc]
      exact (hclosed hk).imp_right (fun h => ⟨_, rfl, h⟩)
    · simp only [getElem?_set_ne hkl] at hk
      exact .inl hk

theorem keeps_failSend {b1 : Bus} (hlisteners : b1.listeners = b.listeners) (hsends : b1.sends = b.sends)
    (hlisted : ∀ m, b1.listed m = b.listed m ∨ b1.listed m = b.live m) (hs : b.sends[i]? = some s) (e : MessagingError) :
    Keeps b (b1.failSend i s e) := by
  refine keeps_of_listeners b hlisteners hlisted ?_
  unfold Bus.failSend
  rw [hsends]
  exact sendsKept_set hs _

theorem keeps_pickSend (hs : b.sends[i]? = some s) : Keeps b (b.pickSend hash i s) := by
  unfold Bus.pickSend
  split
  · obtain ⟨hlisteners, hsends, -⟩ := b.pick_parts hash (destName s.addr) (s.opts.routingKey.or s.parcel.msg.routingKey)
    have hlisted := pick_listed hash b (destName s.addr) (s.opts.routingKey.or s.parcel.msg.routingKey)
    split
    · rename_i b1 hpick
      rw [hpick] at hlisteners hsends hlisted
      exact keeps_failSend b hlisteners hsends hlisted hs _
    · rename_i l b1 hpick
      rw [hpick] at hlisteners hsends hlisted
      refine keeps_of_listeners b hlisteners hlisted ?_
      rw [hsends]
      exact sendsKept_set hs _
  · exact keeps_refl b

theorem keeps_pushSend (hs : b.sends[i]? = some s) : Keeps b (b.pushSend i s) := by
  unfold Bus.pushSend
  split
  · split
    · rename_i c hc
      unfold Bus.pushTo
      split
      · exact keeps_failSend b rfl rfl (fun _ => .inl rfl) hs _
      split
      · exact keeps_setListener b hc rfl .inl (sendsKept_set hs _)
      split
      · exact keeps_refl b
      · exact keeps_failSend b rfl rfl (fun _ => .inl rfl) hs _
    · exact keeps_refl b
  · exact keeps_refl b

theorem keeps_reportSend (hs : b.sends[i]? = some s) : Keeps b (b.reportSend i s) := by
  unfold Bus.reportSend
  split
  · exact keeps_of_listeners b rfl (fun _ => .inl rfl) (sendsKept_set hs _)
  · exact keeps_refl b

theorem keeps_finishJob {k : Nat} {c : Listener} {ack : Ack} (hc : b.listeners[l]? = some c) : Keeps b (b.finishJob l c k ack) := by
  unfold Bus.finishJob
  split
  swap
  · exact keeps_refl b
  cases ack with
  | ok | reject => exact keeps_setListener b hc rfl .inl (sendsKept_refl _)
  | retry =>
    unfold Bus.settle
    dsimp only
    split
    · exact keeps_setListener b hc rfl .inl (sendsKept_add rfl)
    split
    · exact keeps_setListener b hc rfl .inl (sendsKept_add rfl)
    · exact keeps_setListener b hc rfl .inl (sendsKept_refl _)

theorem keeps_consumer {c : Listener} (hc : b.listeners[l]? = some c) :
    Keeps b (b.beginConsumer l c) ∧ Keeps b (b.receiveNext l c) ∧ Keeps b (b.handleNext l c) ∧ Keeps b (b.exitConsumer l c) := by
  refine ⟨?_, ?_, ?_, ?_⟩
  · unfold Bus.beginConsumer
    split
    · exact keeps_refl b
    split
    · rename_i hmany
      exact keeps_setListener b hc rfl (fun _ => .inr (.inl hmany)) (sendsKept_refl _)
    · exact keeps_setListener b hc rfl .inl (sendsKept_refl _)
  · unfold Bus.receiveNext
    split
    · split
      · exact keeps_setListener b hc rfl .inl (sendsKept_refl _)
      · exact keeps_refl b
    · exact keeps_refl b
  · unfold Bus.handleNext
    split
    · split
      · exact keeps_setListener b hc rfl .inl (sendsKept_refl _)
      · exact keeps_refl b
    · exact keeps_refl b
  · unfold Bus.exitConsumer
    split
    · rename_i hexit
      exact keeps_setListener b hc rfl (fun _ => .inr (.inr (by simpa using hexit.2.2))) (sendsKept_refl _)
    · exact keeps_refl b

/-- What an action keeps that is none of a user. -/
theorem step_keeps {a : Action} (ha : a.calls = false) : Keeps b (b.step hash a) := by
  cases a with
  | send addr msg opts | addListener addr opts | stop => cases ha
  | pick i => exact b.withSend_of (keeps_refl b) (fun s hs => keeps_pickSend hash b hs)
  | push i => exact b.withSend_of (keeps_refl b) (fun s hs => keeps_pushSend b hs)
  | report i => exact b.withSend_of (keeps_refl b) (fun s hs => keeps_reportSend b hs)
  | begin l => exact b.withListener_of (keeps_refl b) (fun c hc => (keeps_consumer b hc).1)
  | receive l => exact b.withListener_of (keeps_refl b) (fun c hc => (keeps_consumer b hc).2.1)
  | handle l => exact b.withListener_of (keeps_refl b) (fun c hc => (keeps_consumer b hc).2.2.1)
  | finish l k ack => exact b.withListener_of (keeps_refl b) (fun c hc => keeps_finishJob b hc)
  | exit l => exact b.withListener_of (keeps_refl b) (fun c hc => (keeps_consumer b hc).2.2.2)

variable (a : Action)

/-- An action adds at most its listener, and takes away no send. -/
theorem step_roster : (b.step hash a).roster = b.roster ++ b.added a ∧ b.sends.length ≤ (b.step hash a).sends.length := by
  have hkeeps : Keeps b (b.step hash a) → b.added a = [] →
      (b.step hash a).roster = b.roster ++ b.added a ∧ b.sends.length ≤ (b.step hash a).sends.length := by
    intro h hnone
    rw [hnone, append_nil]
    exact ⟨h.roster, h.sends.1⟩
  cases a with
  | send addr msg opts =>
    refine ⟨(append_nil _).symm, ?_⟩
    rw [Bus.step, length_append]
    exact Nat.le_add_right _ _
  | addListener addr opts =>
    rw [Bus.step, Bus.added]
    split
    · exact ⟨(append_nil _).symm, Nat.le_refl _⟩
    · exact ⟨map_append, Nat.le_refl _⟩
  | stop => exact ⟨(append_nil _).symm, Nat.le_refl _⟩
  | _ => exact hkeeps (step_keeps hash b rfl) rfl

/-- After an action a receiver is gone only if it was, or its semaphore could not be made, or its channel had no sender. -/
theorem step_closed (h : (b.step hash a).isClosed l = true) :
    b.isClosed l = true ∨ ∃ c, b.listeners[l]? = some c ∧ (c.opts.concurrency.any (· > maxPermits) = true ∨ b.hasSender l = false) := by
  cases a with
  | send addr msg opts | stop => exact .inl h
  | addListener addr opts =>
    rw [Bus.step] at h
    split at h
    · exact .inl h
    · left
      unfold Bus.isClosed at *
      rcases Nat.lt_or_ge l b.listeners.length with hl | hl
      · rw [getElem?_append_left hl] at h
        exact h
      · rw [getElem?_append_right hl] at h
        rcases hk : l - b.listeners.length with _ | k
        · rw [hk] at h
          cases h
        · rw [hk] at h
          cases h
  | _ => exact (step_keeps hash b rfl).closed l h

/-- A send is one that was there, or one of a message sent again, or it is the one that the action begins. -/
theorem step_sends {s' : Send} (h : s' ∈ (b.step hash a).sends) :
    (∃ s ∈ b.sends, s'.opts.routingKey = s.opts.routingKey ∧ s'.parcel = s.parcel) ∨ s'.opts.routingKey = none ∨
      a = .send s'.addr s'.parcel.msg s'.opts := by
  cases a with
  | send addr msg opts =>
    rcases mem_append.mp h with h | h
    · exact .inl ⟨s', h, rfl, rfl⟩
    · rw [mem_singleton.mp h]
      exact .inr (.inr rfl)
  | addListener addr opts =>
    left
    rw [Bus.step] at h
    split at h
    · exact ⟨s', h, rfl, rfl⟩
    · exact ⟨s', h, rfl, rfl⟩
  | stop => exact .inl ⟨s', h, rfl, rfl⟩
  | _ =>
    rcases (step_keeps hash b rfl).sends.2 s' h with h | h
    · exact .inl h
    · exact .inr (.inl h)

/-- The listeners of a destination after an action: those that were there, or those whose receiver is not gone; none if the bus was
stopped; and the listener that was added. -/
theorem step_listed (m : Str) :
    (b.step hash a).listed m = b.listed m ∨ (b.step hash a).listed m = b.live m ∨ a = .stop ∧ (b.step hash a).listed m = [] ∨
      ∃ addr opts, a = .addListener addr opts ∧ destName addr = m ∧ b.added a = [(b.listeners.length, m, opts)] ∧
        (b.step hash a).listed m = b.listed m ++ [b.listeners.length] := by
  cases a with
  | send addr msg opts => exact .inl rfl
  | addListener addr opts =>
    rw [Bus.step, Bus.added]
    split
    · exact .inl rfl
    · unfold HashMap.entry
      rw [listed_insert]
      by_cases h : m = destName addr
      · subst h
        refine .inr (.inr (.inr ⟨addr, opts, rfl, rfl, rfl, ?_⟩))
        rw [if_pos rfl]
        unfold Bus.listed
        rcases b.destinations.lookup (destName addr) with _ | d <;> rfl
      · exact .inl (if_neg h)
  | stop => exact .inr (.inr (.inl ⟨rfl, rfl⟩))
  | _ =>
    refine Or.imp_right .inl (Keeps.listed ?_ m)
    exact step_keeps hash b rfl

end Keep

end Ferroly.Messaging
