import Ferroly.Lemmas.BusRouting

/-!
# The listener that a key leads to

While the listeners of a destination stay the same, a key leads to one of them; and a message that was sent with its own key is only
where that key leads.
-/

namespace Ferroly.Messaging

open List

variable {a : Action} {b : Bus} {ls : List Nat} {n : Str} {hash : Str → Nat}

/-! ## Where a key leads -/

/-- A send uses the message's own key. -/
def Send.ownKey (s : Send) : Prop := s.opts.routingKey.or s.parcel.msg.routingKey = s.parcel.msg.routingKey

/-- A message has its own key, and on a destination with these listeners it is only where the key leads. -/
structure Placed (hash : Str → Nat) (n : Str) (ls : List Nat) (x : Place × Parcel) : Prop where
  own : x.2.key = x.2.msg.routingKey
  led : ∀ l, x.1.target = some (l, n) → ∀ k, x.2.key = some k → ls[hash k % ls.length]? = some l

/-- On a destination whose listeners stay the same, messages with their own keys are where these lead, and were delivered there. -/
structure Affine (hash : Str → Nat) (n : Str) (ls : List Nat) (b : Bus) : Prop where
  routed : Routed b
  fixed : b.listed n = ls
  limits : ∀ l ∈ ls, ∀ e, b.roster[l]? = some e → e.2.2.concurrency.all (· ≤ maxPermits) = true
  keyed : ∀ s ∈ b.sends, s.ownKey
  placed : ∀ x ∈ b.parcels, Placed hash n ls x
  reported : ∀ l p, Report.receive l (chanAddr n) p ∈ b.reports → ∀ k, p.key = some k → ls[hash k % ls.length]? = some l

/-- All listeners of the destination are there. -/
theorem Affine.live (h : Affine hash n ls b) : b.live n = ls := by
  unfold Bus.live
  rw [h.fixed]
  refine filter_eq_self.mpr ?_
  intro l hl
  by_contra hclosed
  obtain ⟨e, he, hmany⟩ := h.routed.wired.gone n l (by rw [h.fixed]; exact hl) (by simpa using hclosed)
  have hfew := h.limits l hl e he
  rcases hc : e.2.2.concurrency with _ | c
  · simp [hc] at hmany
  · simp only [hc, Option.all_some, Option.any_some, decide_eq_true_eq] at hfew hmany
    omega

theorem chanAddr_inj {m : Str} (h : chanAddr m = chanAddr n) : m = n := append_cancel_left h

/-- A message that goes on goes where its key leads. -/
theorem Affine.moves {x y : Place × Parcel} {rs : List Report} (h : Affine hash n ls b) (hmoves : Moves hash b x y rs)
    (hx : x ∈ b.parcels) :
    Placed hash n ls y ∧ ∀ l p, Report.receive l (chanAddr n) p ∈ rs → ∀ k, p.key = some k → ls[hash k % ls.length]? = some l := by
  obtain ⟨hown, hled⟩ := h.placed x hx
  cases hmoves with
  | pick s l hs hl =>
    refine ⟨⟨hown, ?_⟩, by simp⟩
    intro l' htarget k hk
    simp only [Place.target, Option.map_some, Option.some.injEq, Prod.mk.injEq] at htarget
    obtain ⟨rfl, hdest⟩ := htarget
    -- The send uses the message's own key, which is the one it was sent under.
    have hlookup := (pick_some hash b hl).2 k (by rw [h.keyed s hs, ← hk, hown])
    rw [hdest, h.live] at hlookup
    exact hlookup
  | push o addr l c p hc =>
    obtain ⟨hid, hdest⟩ := h.routed.push hx hc
    refine ⟨⟨hown, ?_⟩, by simp⟩
    intro l' htarget k hk
    simp only [Place.target, Option.some.injEq, Prod.mk.injEq] at htarget
    obtain ⟨rfl, hn⟩ := htarget
    rw [hid]
    refine hled l ?_ k hk
    rw [Place.target, Option.map_some, ← hdest, hn]
  | receive c p => exact ⟨⟨hown, hled⟩, by simp⟩
  | handle c p hc =>
    refine ⟨⟨hown, hled⟩, ?_⟩
    intro l p' hmem k hk
    obtain ⟨rfl, haddr, rfl⟩ := Report.receive.inj (mem_singleton.mp hmem)
    refine hled c.id ?_ k hk
    rw [chanAddr_inj haddr]
    rfl
  | requeue c p hc hlt | deadLetter c p dlq hc hdlq => exact ⟨⟨hown, fun l htarget => (by cases htarget)⟩, by simp⟩

theorem ownKey_or {key own : Option Str} (h : (key == none || key == own) = true) : key.or own = own := by
  rw [Bool.or_eq_true, beq_iff_eq, beq_iff_eq] at h
  rcases h with rfl | rfl
  · rfl
  · cases key <;> rfl

theorem keyed_step (h : ∀ s ∈ b.sends, s.ownKey) (ha : a.ownKey = true) : ∀ s ∈ (b.step hash a).sends, s.ownKey := by
  intro s' hs'
  unfold Send.ownKey
  rcases step_sends hash b a hs' with ⟨s, hs, hkey, hparcel⟩ | hnone | rfl
  · rw [hkey, hparcel]
    exact h s hs
  · rw [hnone]
    rfl
  · exact ownKey_or ha

/-- An action keeps messages with their own keys where these lead. -/
theorem Affine.step (h : Affine hash n ls b) (hown : a.ownKey = true) (hfixes : a.fixes n = true) :
    Affine hash n ls (b.step hash a) := by
  refine ⟨h.routed.step a, ?_, ?_, keyed_step h.keyed hown, ?_, ?_⟩
  · rcases step_listed hash b a n with hl | hl | ⟨rfl, -⟩ | ⟨addr, opts, rfl, hdest, -⟩
    · rw [hl, h.fixed]
    · rw [hl, h.live]
    · cases hfixes
    · simp [Action.fixes, hdest] at hfixes
  · intro l hl e he
    obtain ⟨e', he', -⟩ := h.routed.wired.names n l (by rw [h.fixed]; exact hl)
    rw [step_roster_getElem? he', Option.some.injEq] at he
    subst he
    exact h.limits l hl e' he'
  · intro z hz
    rcases mem_step_parcels hz with hz | ⟨addr, msg, opts, rfl, rfl⟩ | ⟨x, rs, hx, hmoves⟩
    · exact h.placed z hz
    · exact ⟨ownKey_or hown, fun l htarget => (by cases htarget)⟩
    · exact (h.moves hmoves hx).1
  · intro l p hmem
    rcases receive_mem_step hmem with hmem | ⟨x, y, rs, hx, hmoves, hmem⟩
    · exact h.reported l p hmem
    · exact (h.moves hmoves hx).2 l p hmem

theorem affine_run (h : Affine hash n ls b) {as : List Action} (has : ∀ a ∈ as, a.ownKey = true ∧ a.fixes n = true) :
    Affine hash n ls (b.run hash as) :=
  run_induct (fun _ _ h ha => h.step ha.1 ha.2) has h

/-! ## Before the first message -/

/-- Nothing was sent yet. -/
structure Prepared (n : Str) (b : Bus) : Prop where
  routed : Routed b
  limits : ∀ l ∈ b.listed n, ∀ e, b.roster[l]? = some e → e.2.2.concurrency.all (· ≤ maxPermits) = true
  keyed : ∀ s ∈ b.sends, s.ownKey
  empty : b.parcels = []
  silent : ∀ l addr p, Report.receive l addr p ∉ b.reports

theorem prepared_new (n : Str) : Prepared n Bus.new :=
  ⟨routed_new, fun l hl => (by cases hl), fun s hs => (by cases hs), rfl, fun l addr p h => (by cases h)⟩

theorem Prepared.limits_step (h : Prepared n b) (ha : a.prepares n = true) :
    ∀ l ∈ (b.step hash a).listed n, ∀ e, (b.step hash a).roster[l]? = some e → e.2.2.concurrency.all (· ≤ maxPermits) = true := by
  intro l hl e he
  rcases mem_step_listed hl with hl | ⟨rfl, opts, hadded⟩
  · obtain ⟨e', he', -⟩ := h.routed.wired.names n l hl
    rw [step_roster_getElem? he', Option.some.injEq] at he
    subst he
    exact h.limits l hl e' he'
  · rw [step_roster_added hadded, Option.some.injEq] at he
    subst he
    unfold Bus.added at hadded
    split at hadded
    · split at hadded
      · cases hadded
      · simp only [cons.injEq, Prod.mk.injEq, true_and, and_true] at hadded
        obtain ⟨hdest, rfl⟩ := hadded
        simpa [Action.prepares, hdest] using ha
    · cases hadded

theorem Prepared.step (h : Prepared n b) (ha : a.prepares n = true) : Prepared n (b.step hash a) := by
  have hown : a.ownKey = true := by
    cases a with
    | send addr msg opts => cases ha
    | _ => rfl
  refine ⟨h.routed.step a, h.limits_step ha, keyed_step h.keyed hown, ?_, ?_⟩
  · refine eq_nil_iff_forall_not_mem.mpr ?_
    intro z hz
    rcases mem_step_parcels hz with hz | ⟨addr, msg, opts, rfl, -⟩ | ⟨x, rs, hx, -⟩
    · rw [h.empty] at hz
      cases hz
    · cases ha
    · rw [h.empty] at hx
      cases hx
  · intro l addr p hmem
    rcases receive_mem_step hmem with hmem | ⟨x, y, rs, hx, -, -⟩
    · exact h.silent l addr p hmem
    · rw [h.empty] at hx
      cases hx

theorem prepared_run (hash : Str → Nat) {as : List Action} (has : ∀ a ∈ as, a.prepares n = true) : Prepared n (Bus.new.run hash as) :=
  run_induct (fun _ _ h ha => h.step ha) has (prepared_new n)

theorem Prepared.affine (h : Prepared n b) (hash : Str → Nat) : Affine hash n (b.listed n) b where
  routed := h.routed
  fixed := rfl
  limits := h.limits
  keyed := h.keyed
  placed x hx := by
    rw [h.empty] at hx
    cases hx
  reported l p hmem := absurd hmem (h.silent l _ p)

end Ferroly.Messaging
