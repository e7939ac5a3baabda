import Ferroly.Lemmas.Affinity
import Ferroly.Lemmas.Budget

/-!
# The message bus over whole runs

No accepted message is lost or doubled, a key leads to one listener, and a message is delivered no more often than its destinations
allow; and the runs in which one of these is not so.
-/

namespace Ferroly.Messaging

open List

/-! ## Conservation -/

/-- In every run, with limits that semaphores can have, an accepted message is on the bus once (in a channel, with a consumer that waits
for a permit, with a handler, or in the send that sends it again) or was reported for the last time once; and no other message is. -/
theorem message_conservation (hash : Str → Nat) (as : List Action) (has : ∀ a ∈ as, a.limited = true) (t : Nat) :
    (Bus.new.run hash as).copies t + (Bus.new.run hash as).ends t = if t ∈ (Bus.new.run hash as).accepted then 1 else 0 := by
  have h := conserved_run hash has
  have hle : (Bus.new.run hash as).accepted.count t ≤ 1 := by
    have honce := h.once t
    split at honce <;> omega
  rw [h.balance t]
  split
  · rename_i hmem
    have hpos := count_pos_iff.mpr hmem
    omega
  · rename_i hmem
    exact count_eq_zero.mpr hmem

/-- Two messages for a listener that handles one at a time. -/
def twoForOne : List Action :=
  [.addListener "chan://d".toList { ListenerOptions.default with concurrency := some 1 },
    .send "chan://d".toList ⟨none, 0⟩ ⟨none, false⟩, .pick 0, .push 0, .send "chan://d".toList ⟨none, 0⟩ ⟨none, false⟩, .pick 1, .push 1,
    .begin 0, .receive 0, .handle 0, .receive 0]

theorem message_conservation_twoForOne : (∀ a ∈ twoForOne, a.limited = true) ∧
      (Bus.new.run (fun _ => 0) twoForOne).copies 1 + (Bus.new.run (fun _ => 0) twoForOne).ends 1 =
        if 1 ∈ (Bus.new.run (fun _ => 0) twoForOne).accepted then 1 else 0 := by
  have hlimited : ∀ a ∈ twoForOne, a.limited = true := all_eq_true.mp rfl
  exact ⟨hlimited, message_conservation (fun _ => 0) twoForOne hlimited 1⟩

/-- The second of two accepted messages is in no channel, with no handler and in no send, and was not reported: the consumer has it. -/
theorem accepted_waits_for_permit :
    1 ∈ (Bus.new.run (fun _ => 0) twoForOne).accepted ∧ (Bus.new.run (fun _ => 0) twoForOne).ends 1 = 0 ∧
      (Bus.new.run (fun _ => 0) twoForOne).parcels =
        [(.hand 0 "d".toList, ⟨1, none, ⟨none, 0⟩⟩), (.running 0 "d".toList, ⟨0, none, ⟨none, 0⟩⟩)] := by
  refine ⟨?_, rfl, rfl⟩
  exact mem_cons_of_mem _ mem_cons_self

/-! ## Routing keys -/

/-- On a destination whose listeners were added before anything was sent and stay as they are, all deliveries under one key go to the
same listener, if no send uses another key than the message's own. -/
theorem key_affinity (hash : Str → Nat) (n : Str) (setup as : List Action) (hsetup : ∀ a ∈ setup, a.prepares n = true)
    (has : ∀ a ∈ as, a.fixes n = true ∧ a.ownKey = true) {l l' : Nat} {p p' : Parcel} {k : Str}
    (h : .receive l (chanAddr n) p ∈ ((Bus.new.run hash setup).run hash as).reports) (hk : p.key = some k)
    (h' : .receive l' (chanAddr n) p' ∈ ((Bus.new.run hash setup).run hash as).reports) (hk' : p'.key = some k) : l = l' := by
  have haffine := affine_run ((prepared_run hash hsetup).affine hash) (fun a ha => (has a ha).symm)
  have hl := haffine.reported l p h k hk
  have hl' := haffine.reported l' p' h' k hk'
  rw [hl, Option.some.injEq] at hl'
  exact hl'

/-- Two listeners, each for one message at a time. -/
def twoListeners : List Action := [.addListener "chan://d".toList .default, .addListener "chan://d".toList .default]

/-- A message with a key is sent, its handler asks for another delivery, and it is delivered again. -/
def sentTwice (own override : Option Str) (l l' : Nat) : List Action :=
  [.send "chan://d".toList ⟨own, 0⟩ ⟨override, false⟩, .pick 0, .push 0, .begin l, .receive l, .handle l, .finish l 0 .retry,
    .pick 1, .push 1, .begin l', .receive l', .handle l']

/-- The hash of one key. -/
def hashOfA (k : Str) : Nat := if k = "a".toList then 8186225505942432243 else 0

theorem key_affinity_sentTwice : (∀ a ∈ twoListeners, a.prepares "d".toList = true) ∧
      (∀ a ∈ sentTwice (some "a".toList) none 1 1, a.fixes "d".toList = true ∧ a.ownKey = true) ∧
      Report.receive 1 (chanAddr "d".toList) ⟨0, some "a".toList, ⟨some "a".toList, 0⟩⟩ ∈
        ((Bus.new.run hashOfA twoListeners).run hashOfA (sentTwice (some "a".toList) none 1 1)).reports ∧
      Report.receive 1 (chanAddr "d".toList) ⟨0, some "a".toList, ⟨some "a".toList, 1⟩⟩ ∈
        ((Bus.new.run hashOfA twoListeners).run hashOfA (sentTwice (some "a".toList) none 1 1)).reports ∧ (1 : Nat) = 1 := by
  have hprepares : ∀ a ∈ twoListeners, a.prepares "d".toList = true := all_eq_true.mp rfl
  have hkeeps : ∀ a ∈ sentTwice (some "a".toList) none 1 1, a.fixes "d".toList = true ∧ a.ownKey = true := by
    intro a ha
    have hall : (sentTwice (some "a".toList) none 1 1).all (fun a => a.fixes "d".toList && a.ownKey) = true := rfl
    exact Bool.and_eq_true_iff.mp (all_eq_true.mp hall a ha)
  have h : Report.receive 1 (chanAddr "d".toList) ⟨0, some "a".toList, ⟨some "a".toList, 0⟩⟩ ∈
      ((Bus.new.run hashOfA twoListeners).run hashOfA (sentTwice (some "a".toList) none 1 1)).reports := by
    exact .tail _ (.head _)
  have h' : Report.receive 1 (chanAddr "d".toList) ⟨0, some "a".toList, ⟨some "a".toList, 1⟩⟩ ∈
      ((Bus.new.run hashOfA twoListeners).run hashOfA (sentTwice (some "a".toList) none 1 1)).reports := by
    exact .tail _ (.tail _ (.tail _ (.tail _ (.head _))))
  exact ⟨hprepares, hkeeps, h, h', key_affinity hashOfA "d".toList twoListeners _ hprepares hkeeps h rfl h' rfl⟩

/-- A message sent under a key that is not its own is delivered by one listener, and after a retry by another. -/
theorem retry_loses_override : Report.receive 1 (chanAddr "d".toList) ⟨0, some "a".toList, ⟨none, 0⟩⟩ ∈
        ((Bus.new.run hashOfA twoListeners).run hashOfA (sentTwice none (some "a".toList) 1 0)).reports ∧
      Report.receive 0 (chanAddr "d".toList) ⟨0, some "a".toList, ⟨none, 1⟩⟩ ∈
        ((Bus.new.run hashOfA twoListeners).run hashOfA (sentTwice none (some "a".toList) 1 0)).reports := by
  exact ⟨.tail _ (.head _), .tail _ (.tail _ (.tail _ (.tail _ (.head _))))⟩

/-! ## Deliveries -/

/-- If no destination's dead letters lead back to it, and the counts of the messages that are sent leave room, a message is delivered
no more often than all destinations together allow. -/
theorem deliveries_within_budget (hash : Str → Nat) (as : List Action) (hacyclic : Graph.Acyclic (DeadLetters (topology as)))
    (hfits : ∀ a ∈ as, a.fits (budget (topology as)) = true) (t : Nat) :
    (Bus.new.run hash as).deliveries t ≤ budget (topology as) :=
  (budgeted_run hacyclic hfits).total t

/-- A message that is given up by the one listener of a destination. -/
def givenUp (dlq : Option Str) : List Action :=
  [.addListener "chan://d".toList ⟨1, none, 1, dlq⟩, .send "chan://d".toList ⟨none, 0⟩ ⟨none, false⟩, .pick 0, .push 0, .begin 0,
    .receive 0, .handle 0, .finish 0 0 .retry, .pick 1, .push 1, .receive 0, .handle 0]

theorem acyclic_givenUp : Graph.Acyclic (DeadLetters (topology (givenUp none))) := by
  have hnone : ∀ n m, ¬DeadLetters (topology (givenUp none)) n m := by
    rintro n m ⟨e, he, -, dlq, hdlq, -⟩
    rw [mem_singleton.mp (show e ∈ [("d".toList, ⟨1, none, 1, none⟩)] from he)] at hdlq
    cases hdlq
  intro n hn
  obtain ⟨m, hnm, -⟩ := Relation.TransGen.head'_iff.mp hn
  exact hnone n m hnm

theorem deliveries_within_budget_givenUp :
    Graph.Acyclic (DeadLetters (topology (givenUp none))) ∧ (∀ a ∈ givenUp none, a.fits (budget (topology (givenUp none))) = true) ∧
      (Bus.new.run (fun _ => 0) (givenUp none)).deliveries 0 ≤ budget (topology (givenUp none)) := by
  have hfits : ∀ a ∈ givenUp none, a.fits (budget (topology (givenUp none))) = true := all_eq_true.mp (by decide)
  exact ⟨acyclic_givenUp, hfits, deliveries_within_budget (fun _ => 0) (givenUp none) acyclic_givenUp hfits 0⟩

/-- A destination that is its own dead-letter target delivers a message again that it has given up. -/
theorem dead_letters_return : budget (topology (givenUp (some "chan://d".toList))) = 1 ∧
      (Bus.new.run (fun _ => 0) (givenUp (some "chan://d".toList))).deliveries 0 = 2 :=
  ⟨by decide, rfl⟩

end Ferroly.Messaging
