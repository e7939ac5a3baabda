import Ferroly.Lemmas.WsRead

/-!
# The read loop, frame by frame

On the bytes of some frames the read loop is a fold over the frames. What it has done after frames that keep to the protocol is said by
their groups.
-/

namespace Ferroly.Ws

open List

variable {g u : List WireFrame} {cap : Option Nat} {s : Session} {f : WireFrame}

variable {fmax mmax takes : Option Nat}

/-! ## The loop as a fold -/

/-- What the loop does with a frame on the wire, and whether it goes on. -/
def takeFrame (maxFrameSize maxMessageSize : Option Nat) (s : Session) (f : WireFrame) : Session × Bool :=
  match f.opcode with
  | none => (s, false)
  | some op => if exceeds maxFrameSize f.payload.length then (s, false) else onFrame maxMessageSize s ⟨f.fin, op, f.payload⟩

/-- The frames one after the other, as long as the loop goes on. -/
def feed (maxFrameSize maxMessageSize : Option Nat) : List WireFrame → Session → Session × Bool
  | [], s => (s, true)
  | f :: fs, s =>
    match takeFrame maxFrameSize maxMessageSize s f with
    | (s, true) => feed maxFrameSize maxMessageSize fs s
    | (s, false) => (s, false)

theorem feed_append (fs gs : List WireFrame) (s : Session) : feed fmax mmax (fs ++ gs) s = match feed fmax mmax fs s with
      | (s, true) => feed fmax mmax gs s
      | (s, false) => (s, false) := by
  induction fs generalizing s with
  | nil => rfl
  | cons f fs ih =>
    rw [cons_append, feed, feed]
    rcases takeFrame fmax mmax s f with ⟨s', _ | _⟩
    · rfl
    · exact ih s'

theorem feed_singleton (f : WireFrame) (s : Session) : feed fmax mmax [f] s = takeFrame fmax mmax s f := by
  rw [feed]
  rcases takeFrame fmax mmax s f with ⟨s', _ | _⟩ <;> rfl

variable (fs : List WireFrame)

theorem length_le_flatMap : fs.length ≤ (fs.flatMap WireFrame.bytes).length := by
  induction fs with
  | nil => exact Nat.le_refl _
  | cons f fs ih =>
    rw [flatMap_cons, length_append, WireFrame.bytes]
    simp only [cons_append, length_cons]
    omega

variable {r : Reader}

/-- At the end of the bytes the loop has no more to do. -/
theorem readLoopFrom_empty (fuel : Nat) (s : Session) (hr : r.unread = []) : readLoopFrom mmax fuel r s = s := by
  rcases fuel with _ | fuel
  · rfl
  · obtain ⟨e, r', hread⟩ := readExact_empty hr (n := 2) (by decide)
    have hframe : readFrame r = (.error e, r') := Task.bind_of_error hread
    rw [readLoopFrom, hframe]

theorem readLoopFrom_feed {fs : List WireFrame} {rest : Bytes} {fuel : Nat} (hr : r.unread = fs.flatMap WireFrame.bytes ++ rest)
    (hfuel : fs.length ≤ fuel) (hend : rest = [] ∨ (feed r.maxFrameSize mmax fs s).2 = false) :
    readLoopFrom mmax fuel r s = (feed r.maxFrameSize mmax fs s).1 := by
  induction fs generalizing fuel r s with
  | nil =>
    rcases hend with rfl | hend
    · exact readLoopFrom_empty fuel s hr
    · cases hend
  | cons f fs ih =>
    rcases fuel with _ | fuel
    · cases hfuel
    rw [flatMap_cons, append_assoc] at hr
    rw [feed] at hend ⊢
    rw [readLoopFrom]
    rcases readFrame_reads hr with ⟨op, r', hop, hfits, hread, hrest, hmax⟩ | ⟨hbad, e, r', hread, -⟩
    · have htake : takeFrame r.maxFrameSize mmax s f = onFrame mmax s ⟨f.fin, op, f.payload⟩ := by
        rw [takeFrame, hop]
        simp only [hfits, Bool.false_eq_true, if_false]
      rw [htake] at hend ⊢
      rw [hread]
      simp only
      rcases hon : onFrame mmax s ⟨f.fin, op, f.payload⟩ with ⟨s', _ | _⟩
      · rfl
      · rw [hon] at hend
        rw [← hmax] at hend ⊢
        exact ih hrest (Nat.le_of_succ_le_succ hfuel) hend
    · have htake : takeFrame r.maxFrameSize mmax s f = (s, false) := by
        rw [takeFrame]
        rcases hop : f.opcode with _ | op
        · rfl
        · rcases hbad with hbad | hbad
          · rw [hop] at hbad
            cases hbad
          · simp only [hbad, if_true]
      rw [hread, htake]

/-- The read loop on the bytes of some frames, and what follows them if it ends there. -/
theorem readLoop_frames {fs : List WireFrame} {rest : Bytes} (hr : r.unread = fs.flatMap WireFrame.bytes ++ rest)
    (hend : rest = [] ∨ (feed r.maxFrameSize mmax fs ⟨none, [], takes, []⟩).2 = false) :
    readLoop mmax r takes = (feed r.maxFrameSize mmax fs ⟨none, [], takes, []⟩).1 := by
  refine readLoopFrom_feed hr ?_ hend
  have hle := length_le_flatMap fs
  rw [hr, length_append]
  omega

/-! ## Frames that keep to the protocol -/

theorem groups_snoc (u : List WireFrame) (f : WireFrame) : groups (u ++ [f]) = joinGroup (groups u) f := by
  rw [groups, foldl_append]
  rfl

theorem snoc_control (u : List WireFrame) (h : f.isControl = true) :
    complete (u ++ [f]) = complete u ∧ opened (u ++ [f]) = opened u := by
  have hg : groups (u ++ [f]) = groups u := by rw [groups_snoc, joinGroup, if_pos h]
  exact ⟨congrArg Prod.fst hg, congrArg Prod.snd hg⟩

theorem snoc_final (u : List WireFrame) (h : f.isControl = false) (hfin : f.fin = true) :
    complete (u ++ [f]) = complete u ++ [opened u ++ [f]] ∧ opened (u ++ [f]) = [] := by
  have hg : groups (u ++ [f]) = (complete u ++ [opened u ++ [f]], []) := by
    rw [groups_snoc, joinGroup, h, hfin]
    rfl
  exact ⟨congrArg Prod.fst hg, congrArg Prod.snd hg⟩

theorem snoc_part (u : List WireFrame) (h : f.isControl = false) (hfin : f.fin = false) :
    complete (u ++ [f]) = complete u ∧ opened (u ++ [f]) = opened u ++ [f] := by
  have hg : groups (u ++ [f]) = (complete u, opened u ++ [f]) := by
    rw [groups_snoc, joinGroup, h, hfin]
    rfl
  exact ⟨by rw [complete, hg], by rw [opened, hg]⟩

theorem isMessage_snoc (h : isMessage (g ++ [f]) = true) :
    (g = [] ∧ (f.code = 1 ∨ f.code = 2)) ∨ (isMessage g = true ∧ f.code = 0) := by
  rcases g with _ | ⟨e, g⟩
  · rw [nil_append, isMessage, all_nil, Bool.and_true, Bool.or_eq_true, beq_iff_eq, beq_iff_eq] at h
    exact .inl ⟨rfl, h⟩
  · rw [cons_append, isMessage, all_append, Bool.and_eq_true, Bool.and_eq_true] at h
    refine .inr ⟨?_, ?_⟩
    · rw [isMessage, Bool.and_eq_true]
      exact ⟨h.1, h.2.1⟩
    · simpa using h.2.2

/-- What one frame more owes: its own soundness, and for a data frame its place. -/
theorem isValid_snoc (h : isValid (u ++ [f]) = true) : isValid u = true ∧ f.isSound = true ∧
      (f.isControl = false → isMessage (opened u ++ [f]) = true ∧
        (f.fin = true → (groupMessage (opened u ++ [f])).isSome = true)) := by
  rw [isValid, all_append, Bool.and_eq_true, Bool.and_eq_true, Bool.and_eq_true] at h
  obtain ⟨⟨⟨hu, hf⟩, hgroups⟩, hopen⟩ := h
  rw [all_cons, all_nil, Bool.and_true] at hf
  rw [isValid, hu, Bool.and_eq_true]
  rcases hc : f.isControl with _ | _
  · rcases hfin : f.fin with _ | _
    · obtain ⟨h1, h2⟩ := snoc_part u hc hfin
      rw [h1] at hgroups
      have hne : (opened u ++ [f]).isEmpty = false := by simp
      rw [h2, hne] at hopen
      refine ⟨⟨hgroups, ?_⟩, hf, fun _ => ⟨hopen, nofun⟩⟩
      rw [Bool.or_eq_true, List.isEmpty_iff]
      exact (isMessage_snoc hopen).imp And.left And.left
    · obtain ⟨h1, h2⟩ := snoc_final u hc hfin
      rw [h1, all_append, Bool.and_eq_true, all_cons, all_nil, Bool.and_true, Bool.and_eq_true] at hgroups
      refine ⟨⟨hgroups.1, ?_⟩, hf, fun _ => ⟨hgroups.2.1, fun _ => hgroups.2.2⟩⟩
      rw [Bool.or_eq_true, List.isEmpty_iff]
      exact (isMessage_snoc hgroups.2.1).imp And.left And.left
  · obtain ⟨h1, h2⟩ := snoc_control u hc
    rw [h1] at hgroups
    rw [h2] at hopen
    exact ⟨⟨hgroups, hopen⟩, hf, nofun⟩

/-- The opcode of a group's message. -/
def kind (g : List WireFrame) : Opcode :=
  match g with
  | [] => .binary
  | f :: _ => if f.code = 1 then .text else .binary

/-- What is delivered for some frames. -/
def sent (u : List WireFrame) : List (Opcode × Bytes) := (complete u).map (fun g => (kind g, joined g))

/-- The loop's state after frames that keep to the protocol. -/
def reached (takes : Option Nat) (u : List WireFrame) : Session where
  frag := if opened u = [] then none else some (kind (opened u), joined (opened u))
  delivered := sent u
  takes := takes.map (· - (complete u).length)
  queue := (pings u).map .pong

theorem withinLimits_iff : withinLimits fmax mmax u = true ↔ (∀ f ∈ u, exceeds fmax f.payload.length = false) ∧
      exceeds mmax (joined (opened u)).length = false ∧ ∀ g ∈ complete u, exceeds mmax (joined g).length = false := by
  simp only [withinLimits, Bool.and_eq_true, all_cons, all_eq_true, Bool.not_eq_true']

theorem pings_snoc (u : List WireFrame) (f : WireFrame) : pings (u ++ [f]) = pings u ++ if f.code = 9 then [f.payload] else [] := by
  rw [pings, pings, filter_append]
  by_cases h : f.code = 9 <;> simp [h]

theorem joined_snoc (g : List WireFrame) (f : WireFrame) : joined (g ++ [f]) = joined g ++ f.payload := by
  rw [joined, flatMap_append, flatMap_singleton]
  rfl

theorem kind_snoc (f : WireFrame) (h : g ≠ []) : kind (g ++ [f]) = kind g := by
  rcases g with _ | ⟨e, g⟩
  · exact absurd rfl h
  · rfl

/-- The opcodes of frames: what each code means. -/
theorem opcode_cases (f : WireFrame) : (f.code = 0 ∧ f.opcode = some .continuation ∧ f.isControl = false) ∨
      (f.code = 1 ∧ f.opcode = some .text ∧ f.isControl = false) ∨
      (f.code = 2 ∧ f.opcode = some .binary ∧ f.isControl = false) ∨
      (f.code = 8 ∧ f.opcode = some .close ∧ f.isControl = true) ∨
      (f.code = 9 ∧ f.opcode = some .ping ∧ f.isControl = true) ∨
      (f.code = 10 ∧ f.opcode = some .pong ∧ f.isControl = true) ∨ (f.opcode = none ∧ f.isKnown = false) := by
  unfold WireFrame.opcode WireFrame.isControl WireFrame.isKnown
  generalize f.code = c
  revert c
  decide

theorem exceeds_false_of_le {n m : Nat} (h : exceeds cap m = false) (hnm : n ≤ m) : exceeds cap n = false := by
  rcases cap with _ | k
  · rfl
  · exact decide_eq_false (fun hk => of_decide_eq_false h (hk.trans_le hnm))

/-- What one frame more owes to the limits: its own size, and for a data frame that of its message so far. -/
theorem withinLimits_snoc (h : withinLimits fmax mmax (u ++ [f]) = true) : withinLimits fmax mmax u = true ∧
      exceeds fmax f.payload.length = false ∧ (f.isControl = false → exceeds mmax (joined (opened u ++ [f])).length = false) := by
  have hle : (joined (opened u)).length ≤ (joined (opened u ++ [f])).length := by
    rw [joined_snoc, length_append]
    omega
  rw [withinLimits_iff, forall_mem_append, forall_mem_singleton] at h
  obtain ⟨⟨hall, hf⟩, hopened, hcomplete⟩ := h
  rw [withinLimits_iff]
  rcases hc : f.isControl with _ | _
  · rcases hfin : f.fin with _ | _
    · obtain ⟨e1, e2⟩ := snoc_part u hc hfin
      rw [e1] at hcomplete
      rw [e2] at hopened
      exact ⟨⟨hall, exceeds_false_of_le hopened hle, hcomplete⟩, hf, fun _ => hopened⟩
    · rw [(snoc_final u hc hfin).1, forall_mem_append, forall_mem_singleton] at hcomplete
      exact ⟨⟨hall, exceeds_false_of_le hcomplete.2 hle, hcomplete.1⟩, hf, fun _ => hcomplete.2⟩
  · obtain ⟨e1, e2⟩ := snoc_control u hc
    rw [e1] at hcomplete
    rw [e2] at hopened
    exact ⟨⟨hall, hopened, hcomplete⟩, hf, nofun⟩

/-- A control frame leaves the messages as they are. -/
theorem reached_control (hc : f.isControl = true) :
    reached takes (u ++ [f]) = { reached takes u with queue := (pings (u ++ [f])).map .pong } := by
  obtain ⟨e1, e2⟩ := snoc_control u hc
  rw [reached, reached, sent, sent, e1, e2]

/-- A fragment that is not the last is kept. -/
theorem reached_part (hc : f.isControl = false) (hfin : f.fin = false) (hping : f.code ≠ 9) : reached takes (u ++ [f]) =
      { reached takes u with frag := some (kind (opened u ++ [f]), joined (opened u ++ [f])) } := by
  obtain ⟨e1, e2⟩ := snoc_part u hc hfin
  have hne : opened u ++ [f] ≠ [] := append_ne_nil_of_right_ne_nil _ (cons_ne_nil _ _)
  rw [reached, reached, sent, sent, e1, e2, pings_snoc, if_neg hping, append_nil, if_neg hne]

/-- With the last fragment the message is delivered, if the receiver takes one more. -/
theorem emit_final (hc : f.isControl = false) (hfin : f.fin = true) (hping : f.code ≠ 9)
    (htakes : exceeds takes (complete (u ++ [f])).length = false) (hs : s = { reached takes u with frag := none }) :
    emit s (kind (opened u ++ [f])) (joined (opened u ++ [f])) = (reached takes (u ++ [f]), true) := by
  obtain ⟨e1, e2⟩ := snoc_final u hc hfin
  rw [e1, length_append, length_singleton] at htakes
  have hmore : s.takes ≠ some 0 := by
    rw [hs]
    rcases takes with _ | k
    · exact nofun
    · have hk := of_decide_eq_false htakes
      simp only [reached, Option.map_some, ne_eq, Option.some.injEq]
      omega
  rw [emit]
  split
  · next hgone => exact absurd hgone hmore
  · rw [hs, reached, reached, sent, sent, e1, e2, pings_snoc, if_neg hping, append_nil, map_append, length_append]
    simp only [Option.map_map]
    rfl

/-- One frame more that keeps to the protocol and the limits. -/
theorem takeFrame_reached (hvalid : isValid (u ++ [f]) = true) (hclose : f.code ≠ 8)
    (hlimits : withinLimits fmax mmax (u ++ [f]) = true) (htakes : exceeds takes (complete (u ++ [f])).length = false) :
    takeFrame fmax mmax (reached takes u) f = (reached takes (u ++ [f]), true) := by
  obtain ⟨-, hsound, hdata⟩ := isValid_snoc hvalid
  obtain ⟨-, hlarge, hmsg⟩ := withinLimits_snoc hlimits
  have htake : ∀ op, f.opcode = some op →
      takeFrame fmax mmax (reached takes u) f = onFrame mmax (reached takes u) ⟨f.fin, op, f.payload⟩ := by
    intro op hop
    rw [takeFrame, hop]
    exact if_neg (ne_true_of_eq_false hlarge)
  -- a text or binary frame begins a message, so none is open
  have hfirst : ∀ op, f.isControl = false → (f.code = 1 ∨ f.code = 2) → kind [f] = op → f.code ≠ 9 → (if f.fin then
          if exceeds mmax f.payload.length then (reached takes u, false) else emit (reached takes u) op f.payload
        else ({ reached takes u with frag := some (op, f.payload) }, true)) = (reached takes (u ++ [f]), true) := by
    intro op hc hcode hkind hping
    have hopen : opened u = [] := by
      rcases isMessage_snoc (hdata hc).1 with ⟨h, -⟩ | ⟨-, h⟩
      · exact h
      · rw [h] at hcode
        exact absurd hcode (by decide)
    have hjoined : joined (opened u ++ [f]) = f.payload := by
      rw [hopen, joined_snoc]
      rfl
    have hkind' : kind (opened u ++ [f]) = op := by
      rw [hopen]
      exact hkind
    rcases hfin : f.fin with _ | _
    · rw [reached_part hc hfin hping, hjoined, hkind']
      rfl
    · have hnone : reached takes u = { reached takes u with frag := none } := by
        rw [reached, hopen]
        rfl
      have hemit := emit_final hc hfin hping htakes hnone
      have hfits := hmsg hc
      rw [hjoined] at hemit hfits
      rw [hkind'] at hemit
      simp only [hfits, if_true, Bool.false_eq_true, if_false, hemit]
  rcases opcode_cases f with ⟨hcode, hop, hc⟩ | ⟨hcode, hop, hc⟩ | ⟨hcode, hop, hc⟩ | ⟨hcode, -⟩ | ⟨hcode, hop, hc⟩ | ⟨hcode, hop, hc⟩ |
    ⟨-, hknown⟩
  · -- a continuation goes on with the open message
    rw [htake _ hop, onFrame]
    have hping : f.code ≠ 9 := by
      rw [hcode]
      decide
    have hopen : opened u ≠ [] := by
      rcases isMessage_snoc (hdata hc).1 with ⟨-, h⟩ | ⟨h, -⟩
      · rw [hcode] at h
        exact absurd h (by decide)
      · intro hnil
        rw [hnil] at h
        cases h
    have hfrag : (reached takes u).frag = some (kind (opened u), joined (opened u)) := if_neg hopen
    rw [hfrag]
    simp only
    rw [← joined_snoc, ← kind_snoc f hopen, hmsg hc]
    rcases hfin : f.fin with _ | _
    · rw [reached_part hc hfin hping]
      rfl
    · simp only [Bool.false_eq_true, if_false, if_true]
      exact emit_final hc hfin hping htakes rfl
  · rw [htake _ hop]
    exact hfirst .text hc (.inl hcode) (if_pos hcode) (by rw [hcode]; decide)
  · rw [htake _ hop]
    exact hfirst .binary hc (.inr hcode) (if_neg (by rw [hcode]; decide)) (by rw [hcode]; decide)
  · exact absurd hcode hclose
  · rw [htake _ hop, reached_control hc, pings_snoc, if_pos hcode, map_append]
    rfl
  · rw [htake _ hop, reached_control hc, pings_snoc, if_neg (by rw [hcode]; decide), append_nil]
    rfl
  · rw [WireFrame.isSound, hknown, Bool.and_false] at hsound
    cases hsound

/-- Frames that keep to the protocol and the limits, without a close: what the loop has done with them. -/
theorem feed_reached {u : List WireFrame} (hvalid : isValid u = true) (hclose : ∀ f ∈ u, f.code ≠ 8)
    (hlimits : withinLimits fmax mmax u = true) (htakes : exceeds takes (complete u).length = false) :
    feed fmax mmax u ⟨none, [], takes, []⟩ = (reached takes u, true) := by
  -- from the front, with the frames taken so far as what the state is about
  induction u using reverseRecOn with
  | nil => rcases takes with _ | _ <;> rfl
  | append_singleton u f ih =>
    have hle : (complete u).length ≤ (complete (u ++ [f])).length := by
      rcases hc : f.isControl with _ | _
      · rcases hfin : f.fin with _ | _
        · rw [(snoc_part u hc hfin).1]
        · rw [(snoc_final u hc hfin).1, length_append]
          exact Nat.le_add_right _ _
      · rw [(snoc_control u hc).1]
    rw [feed_append, ih (isValid_snoc hvalid).1 (fun e he => hclose e (mem_append_left _ he)) (withinLimits_snoc hlimits).1
      (exceeds_false_of_le htakes hle)]
    simp only
    rw [feed_singleton]
    exact takeFrame_reached hvalid (hclose f (mem_append_right _ (mem_singleton.mpr rfl))) hlimits htakes

theorem groupMessage_eq (h : (groupMessage g).isSome = true) : groupMessage g = some (messageOf (kind g) (joined g)) := by
  rcases g with _ | ⟨f, g⟩
  · cases h
  · rw [groupMessage] at h ⊢
    by_cases hcode : f.code = 1
    · rw [if_pos hcode, Option.isSome_map] at h
      obtain ⟨t, ht⟩ := Option.isSome_iff_exists.mp h
      rw [if_pos hcode, ht, kind, if_pos hcode, messageOf, fromUtf8Lossy_of_fromUtf8 ht]
      rfl
    · rw [if_neg hcode, kind, if_neg hcode]
      rfl

/-- The messages of frames that keep to the protocol are what is delivered for them. -/
theorem messages_eq_sent (hvalid : isValid u = true) : messages u = (sent u).map (fun p => messageOf p.1 p.2) := by
  rw [isValid, Bool.and_eq_true, Bool.and_eq_true, all_eq_true, all_eq_true] at hvalid
  have hgroup : ∀ g ∈ complete u, groupMessage g = (some ∘ fun g => messageOf (kind g) (joined g)) g := by
    intro g hg
    have hg' := hvalid.1.2 g hg
    rw [Bool.and_eq_true] at hg'
    exact groupMessage_eq hg'.2
  rw [messages, filterMap_congr hgroup, filterMap_eq_map, sent, map_map]
  rfl

/-! ## Up to the first close -/

/-- The frames from the first close on. -/
def fromClose (fs : List WireFrame) : List WireFrame := fs.dropWhile (fun f => f.code != 8)

theorem beforeClose_append_fromClose : beforeClose fs ++ fromClose fs = fs := takeWhile_append_dropWhile

theorem code_ne_of_mem_beforeClose {fs : List WireFrame} {f : WireFrame} (h : f ∈ beforeClose fs) : f.code ≠ 8 := by
  have hf : (f.code != 8) = true := mem_takeWhile_imp (p := fun f : WireFrame => f.code != 8) h
  exact bne_iff_ne.mp hf

theorem fromClose_cases : fromClose fs = [] ∧ (∀ f ∈ fs, f.code ≠ 8) ∨ ∃ f gs, fromClose fs = f :: gs ∧ f.opcode = some .close := by
  have hhead := head?_dropWhile_not (fun f : WireFrame => f.code != 8) fs
  rcases hfrom : fromClose fs with _ | ⟨f, gs⟩
  · refine .inl ⟨rfl, fun f hf => @code_ne_of_mem_beforeClose fs f ?_⟩
    rw [← beforeClose_append_fromClose fs, hfrom, append_nil] at hf
    exact hf
  · refine .inr ⟨f, gs, rfl, ?_⟩
    rw [show fs.dropWhile _ = f :: gs from hfrom] at hhead
    have hcode : (f.code != 8) = false := hhead
    rw [WireFrame.opcode, bne_eq_false_iff_eq.mp hcode]
    rfl

variable (gs : List WireFrame)

/-- A close ends the loop, whatever follows; unless it is too large it is answered. -/
theorem feed_close (s : Session) (h : f.opcode = some .close) : feed fmax mmax (f :: gs) s =
      (⟨s.frag, s.delivered, s.takes, s.queue ++ if exceeds fmax f.payload.length then [] else [.close]⟩, false) := by
  rw [feed, takeFrame, h]
  rcases exceeds fmax f.payload.length with _ | _
  · rfl
  · simp only [if_true, append_nil]

/-- Frames with a close among them end the loop. -/
theorem feed_stops {fs : List WireFrame} (s : Session) (h : ∃ f ∈ fs, f.code = 8) : (feed fmax mmax fs s).2 = false := by
  obtain ⟨f, hf, hcode⟩ := h
  rcases fromClose_cases fs with ⟨-, hnone⟩ | ⟨e, gs, hfrom, hop⟩
  · exact absurd hcode (hnone f hf)
  · rw [← beforeClose_append_fromClose fs, hfrom, feed_append]
    rcases feed fmax mmax (beforeClose fs) s with ⟨s', _ | _⟩
    · rfl
    · simp only
      rw [feed_close gs s' hop]

/-! ## Frames within the limits -/

variable {frames : List WireFrame}

/-- The answer to the first close. -/
def closing (maxFrameSize : Option Nat) (fs : List WireFrame) : List Outgoing :=
  match fromClose fs with
  | [] => []
  | f :: _ => if exceeds maxFrameSize f.payload.length then [] else [.close]

/-- Frames that keep to the protocol and the limits, up to the first close: all their messages are delivered. -/
theorem feed_valid (hvalid : isValid (beforeClose frames) = true) (hlimits : withinLimits fmax mmax (beforeClose frames) = true)
    (hstays : ∀ n, takes = some n → (messages (beforeClose frames)).length ≤ n) :
    (feed fmax mmax frames ⟨none, [], takes, []⟩).1.messages = messages (beforeClose frames) ∧
      (feed fmax mmax frames ⟨none, [], takes, []⟩).1.queue = (pings (beforeClose frames)).map .pong ++ closing fmax frames := by
  have hmessages := messages_eq_sent hvalid
  have htakes : exceeds takes (complete (beforeClose frames)).length = false := by
    rw [hmessages, length_map, sent, length_map] at hstays
    rcases takes with _ | n
    · rfl
    · exact decide_eq_false (Nat.not_lt.mpr (hstays n rfl))
  have hout := feed_reached hvalid (fun f hf => code_ne_of_mem_beforeClose hf) hlimits htakes
  have hfeed : feed fmax mmax frames ⟨none, [], takes, []⟩ =
      feed fmax mmax (fromClose frames) (reached takes (beforeClose frames)) := by
    have happend := @feed_append fmax mmax (beforeClose frames) (fromClose frames) ⟨none, [], takes, []⟩
    rw [beforeClose_append_fromClose, hout] at happend
    exact happend
  rw [hfeed, hmessages, closing]
  rcases fromClose_cases frames with ⟨hnil, -⟩ | ⟨f, gs, hfrom, hop⟩
  · rw [hnil]
    exact ⟨rfl, (append_nil _).symm⟩
  · rw [hfrom, feed_close gs _ hop]
    exact ⟨rfl, rfl⟩

/-! ## Any input -/

theorem onFrame_delivered (s : Session) (f : Frame) :
    ∀ p ∈ (onFrame mmax s f).1.delivered, p ∈ s.delivered ∨ exceeds mmax p.2.length = false := by
  have hemit : ∀ (s : Session) (op : Opcode) (payload : Bytes), exceeds mmax payload.length = false →
      ∀ p ∈ (emit s op payload).1.delivered, p ∈ s.delivered ∨ exceeds mmax p.2.length = false := by
    intro s op payload hsize p hp
    rw [emit] at hp
    split at hp
    · exact .inl hp
    · rcases mem_append.mp hp with hp | hp
      · exact .inl hp
      · rw [mem_singleton.mp hp]
        exact .inr hsize
  rw [onFrame]
  rcases f.opcode with _ | _ | _ | _ | _ | _ <;> simp only
  case continuation =>
    rcases s.frag with _ | ⟨op, buf⟩
    · exact fun p hp => .inl hp
    · simp only
      rcases hsize : exceeds mmax (buf ++ f.payload).length with _ | _
      · rcases f.fin with _ | _
        · exact fun p hp => .inl hp
        · exact hemit { s with frag := none } op _ hsize
      · exact fun p hp => .inl hp
  case close => exact fun p hp => .inl hp
  case ping => exact fun p hp => .inl hp
  case pong => exact fun p hp => .inl hp
  all_goals
    rcases f.fin with _ | _
    · exact fun p hp => .inl hp
    · rcases hsize : exceeds mmax f.payload.length with _ | _
      · exact hemit s _ _ hsize
      · exact fun p hp => .inl hp

/-- Whatever is read, no message that is delivered is larger than the limit. -/
theorem readLoopFrom_delivered (fuel : Nat) (r : Reader) (s : Session) (h : ∀ p ∈ s.delivered, exceeds mmax p.2.length = false) :
    ∀ p ∈ (readLoopFrom mmax fuel r s).delivered, exceeds mmax p.2.length = false := by
  induction fuel generalizing r s with
  | zero => exact h
  | succ fuel ih =>
    rw [readLoopFrom]
    rcases readFrame r with ⟨_ | frame, r'⟩
    · exact h
    · have hstep : ∀ p ∈ (onFrame mmax s frame).1.delivered, exceeds mmax p.2.length = false := by
        intro p hp
        exact (onFrame_delivered s frame p hp).elim (h p) id
      simp only
      rcases hon : onFrame mmax s frame with ⟨s', _ | _⟩
      · rw [hon] at hstep
        exact hstep
      · rw [hon] at hstep
        exact ih r' s' hstep

end Ferroly.Ws
