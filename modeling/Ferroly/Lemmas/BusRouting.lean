import Ferroly.Lemmas.BusRun

/-!
# Routing on the message bus

Listeners keep their numbers, destinations list their own listeners, and a message is only with a listener of the destination it was
sent to.
-/

namespace Ferroly.Messaging

open List

variable {b : Bus} {hash : Str → Nat}

/-! ## The listeners that are listed -/

/-- Listeners are numbered as they were added, and a destination lists only its own. A receiver that is listed and gone is one whose
semaphore could not be made. -/
structure Wired (b : Bus) : Prop where
  ids : ∀ (l : Nat) (e : Nat × Str × ListenerOptions), b.roster[l]? = some e → e.1 = l
  names : ∀ m, ∀ l ∈ b.listed m, ∃ e, b.roster[l]? = some e ∧ e.2.1 = m
  gone : ∀ m, ∀ l ∈ b.listed m, b.isClosed l = true → ∃ e, b.roster[l]? = some e ∧ e.2.2.concurrency.any (· > maxPermits) = true

theorem wired_new : Wired Bus.new := ⟨fun l e he => (by cases he), fun m l hl => (by cases hl), fun m l hl => (by cases hl)⟩

variable {l : Nat}

theorem roster_getElem? {c : Listener} (hc : b.listeners[l]? = some c) : b.roster[l]? = some (c.id, c.name, c.opts) := by
  unfold Bus.roster
  rw [getElem?_map, hc]
  rfl

theorem roster_length (b : Bus) : b.roster.length = b.listeners.length := length_map _

variable {a : Action} {e : Nat × Str × ListenerOptions}

/-- A listener that was there stays where it was. -/
theorem step_roster_getElem? (he : b.roster[l]? = some e) : (b.step hash a).roster[l]? = some e := by
  rw [(step_roster hash b a).1]
  exact (List.getElem?_append_left (List.getElem?_eq_some_iff.mp he).1).trans he

/-- The listener that is added comes last. -/
theorem step_roster_added (ha : b.added a = [e]) : (b.step hash a).roster[b.listeners.length]? = some e := by
  rw [(step_roster hash b a).1, ha, ← roster_length]
  exact getElem?_concat_length

/-- A listener that is listed after an action was listed before, or it was just added. -/
theorem mem_step_listed {m : Str} (h : l ∈ (b.step hash a).listed m) :
    l ∈ b.listed m ∨ l = b.listeners.length ∧ ∃ opts, b.added a = [(b.listeners.length, m, opts)] := by
  rcases step_listed hash b a m with hl | hl | ⟨-, hl⟩ | ⟨addr, opts, -, -, hadded, hl⟩
  · rw [hl] at h
    exact .inl h
  · rw [hl] at h
    exact .inl (mem_filter.mp h).1
  · rw [hl] at h
    cases h
  · rw [hl, mem_append, mem_singleton] at h
    exact h.imp_right (fun h => ⟨h, opts, hadded⟩)

theorem Wired.step (h : Wired b) (a : Action) : Wired (b.step hash a) := by
  refine ⟨?_, ?_, ?_⟩
  · intro l e he
    rw [(step_roster hash b a).1] at he
    rcases Nat.lt_or_ge l b.roster.length with hl | hl
    · rw [getElem?_append_left hl] at he
      exact h.ids l e he
    · rw [List.getElem?_append_right hl, roster_length] at he
      unfold Bus.added at he
      split at he
      · split at he
        · cases he
        · obtain ⟨hlt, rfl⟩ := List.getElem?_eq_some_iff.mp he
          rw [length_singleton] at hlt
          rw [roster_length] at hl
          rw [getElem_singleton]
          omega
      · cases he
  · intro m l hl
    rcases mem_step_listed hl with hl | ⟨rfl, opts, hadded⟩
    · obtain ⟨e, he, hname⟩ := h.names m l hl
      exact ⟨e, step_roster_getElem? he, hname⟩
    · exact ⟨_, step_roster_added hadded, rfl⟩
  · intro m l hl hclosed
    rcases mem_step_listed hl with hl | ⟨rfl, -⟩
    · rcases step_closed hash b a hclosed with hclosed | ⟨c, hc, hmany | hsender⟩
      · obtain ⟨e, he, hmany⟩ := h.gone m l hl hclosed
        exact ⟨e, step_roster_getElem? he, hmany⟩
      · exact ⟨_, step_roster_getElem? (roster_getElem? hc), hmany⟩
      · rw [hasSender_of_listed hl] at hsender
        cases hsender
    · -- A listener that was just added is not gone: there was none of its number.
      rcases step_closed hash b a hclosed with hclosed | ⟨c, hc, -⟩
      · unfold Bus.isClosed at hclosed
        rw [getElem?_eq_none (Nat.le_refl _)] at hclosed
        cases hclosed
      · rw [getElem?_eq_none (Nat.le_refl _)] at hc
        cases hc

/-! ## Messages are where they were sent to -/

/-- The listener a message is for, and the destination. -/
def Place.target : Place → Option (Nat × Str)
  | .send _ addr l => l.map (fun l => (l, destName addr))
  | .queue l name => some (l, name)
  | .hand l name => some (l, name)
  | .running l name => some (l, name)

/-- A message is for a listener of its destination. -/
structure Routed (b : Bus) : Prop where
  wired : Wired b
  named : ∀ x ∈ b.parcels, ∀ l m, x.1.target = some (l, m) → ∃ e, b.roster[l]? = some e ∧ e.2.1 = m

theorem routed_new : Routed Bus.new := ⟨wired_new, fun x hx => (by cases hx)⟩

/-- The channel that a message is put into is that of the listener it is for. -/
theorem Routed.push (h : Routed b) {o : Origin} {addr : Str} {c : Listener} {p : Parcel} (hx : (Place.send o addr (some l), p) ∈ b.parcels)
    (hc : b.listeners[l]? = some c) : c.id = l ∧ c.name = destName addr := by
  obtain ⟨e, he, hdest⟩ := h.named _ hx l (destName addr) rfl
  rw [roster_getElem? hc, Option.some.injEq] at he
  subst he
  exact ⟨h.wired.ids l _ (roster_getElem? hc), hdest⟩

theorem Routed.step (h : Routed b) (a : Action) : Routed (b.step hash a) := by
  refine ⟨h.wired.step a, ?_⟩
  intro z hz l m htarget
  suffices hnamed : ∃ e, b.roster[l]? = some e ∧ e.2.1 = m by
    obtain ⟨e, he, hm⟩ := hnamed
    exact ⟨e, step_roster_getElem? he, hm⟩
  rcases mem_step_parcels hz with hz | ⟨addr, msg, opts, -, rfl⟩ | ⟨x, rs, hx, hmoves⟩
  · exact h.named z hz l m htarget
  · cases htarget
  · cases hmoves with
    | pick s l' hs hl =>
      cases htarget
      exact h.wired.names _ l (pick_some hash b hl).1
    | push o addr l' c p hc =>
      cases htarget
      rw [(h.push hx hc).1]
      exact ⟨_, roster_getElem? hc, rfl⟩
    | receive c p | handle c p hc => exact h.named _ hx l m htarget
    | requeue c p hc hlt | deadLetter c p dlq hc hdlq => cases htarget

end Ferroly.Messaging
