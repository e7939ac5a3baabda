import Ferroly.Lemmas.HttpSse

/-!
# Framing of server-sent events

The decoder takes a newline as the end of a line and drops a carriage return before it. An event's name and id, and a plain string,
are put on the wire as they are.
-/

namespace Ferroly.Http

open List

namespace Sse

/-- For all events and all strings, however their frames arrive: the events are decoded as they were if and only if no line of their
fields ends in a carriage return, their names and ids are one line each and no comment begins with a newline; and the plain strings if
and only if each is one line that does not end in a carriage return. -/
theorem frames_decode_iff (events : List Event) (strings : List Str) (eventChunks stringChunks : List Bytes)
    (hevents : eventChunks.flatten = (sse events).flatten) (hstrings : stringChunks.flatten = (eventStream strings).flatten) :
    (decode eventChunks = events ↔ ∀ e ∈ events, e.isKept = true) ∧
      ((decode stringChunks).map Event.data = strings ↔ ∀ s ∈ strings, isLine s = true) :=
  ⟨decode_sse_iff hevents, decode_eventStream_iff hstrings⟩

/-- An event of two lines with all its fields. -/
def greeting : Event := ⟨"hello\nworld".toList, some "greeting".toList, some "1".toList, some 3000, some "ping".toList⟩

/-- The event in two chunks, and two plain strings in one. -/
theorem frames_decode_greeting : decode [(sse [greeting]).flatten.take 9, (sse [greeting]).flatten.drop 9] = [greeting] ∧
      (decode [(eventStream ["a".toList, "b".toList]).flatten]).map Event.data = ["a".toList, "b".toList] := by
  obtain ⟨hevents, hstrings⟩ := frames_decode_iff [greeting] ["a".toList, "b".toList]
    [(sse [greeting]).flatten.take 9, (sse [greeting]).flatten.drop 9] [(eventStream ["a".toList, "b".toList]).flatten]
    (by rw [flatten_cons, flatten_singleton, take_append_drop]) (flatten_singleton)
  exact ⟨hevents.mpr (by decide), hstrings.mpr (by decide)⟩

/-- A name with a newline adds a `data` line, and a plain string with an empty line another event. -/
theorem text_injects_fields : decode (sse [{ Event.new "real".toList with event := some "ping\ndata: forged".toList }]) =
        [{ Event.new "forged\nreal".toList with event := some "ping".toList }] ∧
      decode (eventStream ["real\n\ndata: forged".toList]) = [Event.new "real".toList, Event.new "forged".toList] := by
  decide

/-- The strings of an event hold no carriage return, and its name, id and comment no newline. -/
def Event.Plain (e : Event) : Prop :=
  '\r' ∉ e.data ∧ ∀ s ∈ e.event.toList ++ e.id.toList ++ e.comment.toList, '\r' ∉ s ∧ '\n' ∉ s

theorem Event.Plain.isKept {e : Event} (h : e.Plain) : e.isKept = true := by
  have hlast : ∀ {s : Str}, '\r' ∉ s → (s.getLast? != some '\r') = true := fun hs =>
    bne_iff_ne.mpr (fun hl => hs (mem_of_getLast? hl))
  have hkeeps : ∀ {s : Str}, '\r' ∉ s → keepsLines s = true := fun hs =>
    all_eq_true.mpr (fun l hl => hlast (fun hr => hs (mem_of_mem_split hl hr)))
  have hline : ∀ {v : Option Str}, (∀ s ∈ v.toList, '\r' ∉ s ∧ '\n' ∉ s) → v.all isLine = true := by
    rintro (_ | s) hv
    · rfl
    · obtain ⟨hr, hn⟩ := hv s (mem_singleton.mpr rfl)
      simp [isLine, hn, hlast hr]
  obtain ⟨hdata, hrest⟩ := h
  rw [forall_mem_append, forall_mem_append] at hrest
  obtain ⟨⟨hevent, hid⟩, hcomment⟩ := hrest
  rw [Event.isKept, hkeeps hdata, hline hevent, hline hid, Bool.true_and, Bool.true_and, Bool.true_and]
  rcases hc : e.comment with _ | c
  · rfl
  · rw [hc] at hcomment
    obtain ⟨hr, hn⟩ := hcomment c (mem_singleton.mpr rfl)
    rw [Option.all_some, hkeeps hr, Bool.true_and, bne_iff_ne]
    exact fun hhead => hn (mem_of_head? hhead)

/-- Bytes that arrive in two ways give the same events and leave the decoder in the same state, and the frames of plain events are
decoded as these events. -/
theorem decoding_independent : (∀ chunks chunks' : List Bytes, chunks.flatten = chunks'.flatten →
      SseDecoder.new.pushAll chunks = SseDecoder.new.pushAll chunks') ∧
    ∀ events : List Event, (∀ e ∈ events, e.Plain) → decode [(sse events).flatten] = events := by
  refine ⟨fun chunks chunks' h => ?_, fun events h => ?_⟩
  · rw [SseDecoder.pushAll_eq _ not_mem_nil, SseDecoder.pushAll_eq _ not_mem_nil, h]
  · exact (decode_sse_iff flatten_singleton).mpr (fun e he => (h e he).isKept)

end Sse

end Ferroly.Http
