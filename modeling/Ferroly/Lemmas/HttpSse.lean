import Ferroly.Http.Sse

/-!
# Decoding the frames of events

On the bytes of a text the decoder goes by the lines of the text, however the bytes arrive. The frames of events whose names and ids are
one line each are decoded one by one; the `data` that a plain stream yields is never longer than what was sent.
-/

namespace Ferroly

open List

namespace Http

namespace Sse

variable {c : Char} {cur e : Event} {chunks : List Bytes} {ls : List Str} {l p s : Str}

namespace SseDecoder

/-! ## Chunks -/

theorem takeLines_append (s : Event × Bool) (ls ms : List Bytes) :
    takeLines s (ls ++ ms) = ((takeLines (takeLines s ls).1 ms).1, (takeLines s ls).2 ++ (takeLines (takeLines s ls).1 ms).2) := by
  induction ls generalizing s with
  | nil => rfl
  | cons l ls ih =>
    rw [cons_append, takeLines, takeLines, ih]
    simp only [append_assoc]

/-- The chunks of a body are decoded as the whole of it. -/
theorem pushAll_eq (dec : SseDecoder) (hbuf : byte '\n' ∉ dec.buf) : dec.pushAll chunks = dec.push chunks.flatten := by
  induction chunks generalizing dec with
  | nil =>
    rw [push, flatten_nil, append_nil, cutLines_of_not_mem hbuf]
    rfl
  | cons c cs ih =>
    have hrest := (cutLines_spec (byte '\n') (dec.buf ++ c)).2.2
    rw [pushAll, ih (dec.push c).1 hrest]
    simp only [push, flatten_cons]
    rw [← append_assoc, cutLines_append (dec.buf ++ c), takeLines_append]

end SseDecoder

open SseDecoder

/-! ## Lines of a text -/

/-- Take a line of a text. -/
def takeText (s : Event × Bool) (line : Str) : (Event × Bool) × List Event :=
  if stripCr line = [] then if s.2 then ((.empty, false), [dispatch s.1]) else (s, [])
  else ((field s.1 (stripCr line), true), [])

def takeTexts (s : Event × Bool) : List Str → (Event × Bool) × List Event
  | [] => (s, [])
  | l :: ls => ((takeTexts (takeText s l).1 ls).1, (takeText s l).2 ++ (takeTexts (takeText s l).1 ls).2)

/-- The bytes of a text end in the byte of an ASCII character exactly if the text ends in it. -/
theorem getLast?_utf8 (hc : c.toNat < 0x80) : (utf8 s).getLast? = some (byte c) ↔ s.getLast? = some c := by
  rcases eq_nil_or_concat s with rfl | ⟨t, d, rfl⟩
  · exact ⟨nofun, nofun⟩
  · rw [concat_eq_append, utf8_append, getLast?_concat, Option.some.injEq]
    constructor
    · intro h
      by_contra hdc
      have hne : utf8 [d] ≠ [] := ne_nil_of_length_pos (length_le_utf8 [d])
      rw [getLast?_append_of_ne_nil _ hne] at h
      have hmem := mem_of_getLast? h
      rw [utf8_cons, utf8_nil, append_nil] at hmem
      exact ne_byte_of_mem hmem hc hdc rfl
    · rintro rfl
      rw [utf8_cons_ascii hc, utf8_nil, getLast?_concat]

theorem takeLine_utf8 (s : Event × Bool) (line : Str) : takeLine s (utf8 line) = takeText s line := by
  have hstrip : (if (utf8 line).getLast? = some (byte '\r') then (utf8 line).dropLast else utf8 line) = utf8 (stripCr line) := by
    rw [stripCr]
    by_cases h : line.getLast? = some '\r'
    · rw [if_pos ((getLast?_utf8 (by decide)).mpr h), if_pos h]
      obtain ⟨t, rfl⟩ := getLast?_eq_some_iff.mp h
      rw [utf8_append, dropLast_concat]
      exact dropLast_concat
    · rw [if_neg (fun hb => h ((getLast?_utf8 (by decide)).mp hb)), if_neg h]
  rw [takeLine, hstrip, fromUtf8Lossy_utf8]
  rfl

theorem takeLines_utf8 (s : Event × Bool) : takeLines s (ls.map utf8) = takeTexts s ls := by
  induction ls generalizing s with
  | nil => rfl
  | cons l ls ih => rw [map_cons, takeLines, takeTexts, takeLine_utf8, ih]

theorem takeTexts_append (s : Event × Bool) (ls ms : List Str) :
    takeTexts s (ls ++ ms) = ((takeTexts (takeTexts s ls).1 ms).1, (takeTexts s ls).2 ++ (takeTexts (takeTexts s ls).1 ms).2) := by
  simp only [← takeLines_utf8, map_append, takeLines_append]

theorem not_mem_utf8 (hc : c.toNat < 0x80) (h : c ∉ s) : byte c ∉ utf8 s := by
  intro hb
  obtain ⟨d, hd, hb⟩ := mem_flatMap.mp hb
  exact ne_byte_of_mem hb hc (fun he => h (he ▸ hd)) rfl

/-- The bytes of a text are cut where the text is. -/
theorem cutLines_utf8 : cutLines (byte '\n') (utf8 s) = ((cutLines '\n' s).1.map utf8, utf8 (cutLines '\n' s).2) := by
  obtain ⟨hs, hlines, hrest⟩ := cutLines_spec '\n' s
  have hbytes : utf8 s = ((cutLines '\n' s).1.map utf8).flatMap (fun l => l ++ [byte '\n']) ++ utf8 (cutLines '\n' s).2 := by
    conv_lhs => rw [hs]
    have hline : (fun l : Str => utf8 (l ++ ['\n'])) = fun l => utf8 l ++ [byte '\n'] := by
      funext l
      rw [utf8_append]
      rfl
    rw [utf8_append, utf8, flatMap_assoc, flatMap_map, ← hline]
    rfl
  rw [hbytes]
  refine cutLines_flatMap ?_ (not_mem_utf8 (by decide) hrest)
  intro l hl
  obtain ⟨m, hm, rfl⟩ := mem_map.mp hl
  exact not_mem_utf8 (by decide) (hlines m hm)

/-- A text that arrives in any chunks is decoded line by line. -/
theorem decode_text (h : chunks.flatten = utf8 s) : decode chunks = (takeTexts (.empty, false) (cutLines '\n' s).1).2 := by
  rw [decode, pushAll_eq _ not_mem_nil, h]
  show (takeLines _ (cutLines (byte '\n') (utf8 s)).1).2 = _
  rw [cutLines_utf8, takeLines_utf8]
  rfl

/-! ## Fields -/

theorem stripCr_append (hp : p.getLast? ≠ some '\r') : stripCr (p ++ l) = p ++ stripCr l := by
  rw [stripCr, stripCr]
  rcases eq_nil_or_concat l with rfl | ⟨t, c, rfl⟩
  · rw [append_nil, if_neg hp, if_neg (by simp), append_nil]
  · rw [concat_eq_append, ← append_assoc, getLast?_concat, getLast?_concat, dropLast_concat, dropLast_concat]
    split
    · rfl
    · rw [append_assoc]

/-- A line with something in front that is not blank sets a field. -/
theorem takeText_field (s : Event × Bool) (hne : p ≠ []) (hp : p.getLast? ≠ some '\r') :
    takeText s (p ++ l) = ((field s.1 (p ++ stripCr l), true), []) := by
  rw [takeText, stripCr_append hp, if_neg (append_ne_nil_of_left_ne_nil hne _)]

theorem field_comment :
    field cur (": ".toList ++ l) = { cur with comment := some ((cur.comment.elim [] fun c => if c = [] then [] else c ++ ['\n']) ++ l) } := by
  have hstrip : stripStart (": ".toList ++ l) ":".toList = some (' ' :: l) := rfl
  have hspace : stripSpace (' ' :: l) = l := rfl
  rw [field, hstrip]
  simp only [addComment, hspace]
  rcases cur.comment with _ | c
  · rfl
  · by_cases h : c = [] <;> simp [h]

variable {v : Str}

theorem field_named (cur : Event) {name : Str} (hhead : name.head? ≠ none ∧ name.head? ≠ some ':') (hname : ':' ∉ name) (v : Str) :
    field cur (name ++ ": ".toList ++ v) = setField cur name v := by
  have hstrip : stripStart (name ++ ": ".toList ++ v) ":".toList = none := by
    rcases name with _ | ⟨c, name⟩
    · exact absurd rfl hhead.1
    · have hc : (':' == c) = false := beq_eq_false_iff_ne.mpr (fun h => hhead.2 (congrArg some h.symm))
      rw [stripStart]
      simp [isPrefixOf, hc]
  have hsplit : splitOnce ':' (name ++ ": ".toList ++ v) = some (name, ' ' :: v) := by
    rw [append_assoc]
    exact splitOnce_append hname
  rw [field, hstrip, hsplit]
  rfl

/-- Lines with the same beginning set their fields one after the other. -/
theorem takeTexts_fields (s : Event × Bool) (hne : p ≠ []) (hp : p.getLast? ≠ some '\r') : takeTexts s (ls.map (fun l => p ++ l)) =
      ((ls.foldl (fun cur l => field cur (p ++ stripCr l)) s.1, s.2 || !ls.isEmpty), []) := by
  induction ls generalizing s with
  | nil =>
    rw [map_nil, takeTexts, foldl_nil, isEmpty_nil, Bool.not_true, Bool.or_false]
  | cons l ls ih =>
    rw [map_cons, takeTexts, takeText_field s hne hp, ih, isEmpty_cons, Bool.not_false, Bool.or_true]
    rfl

/-- The lines of a comment as the decoder puts them together. -/
def joinComment (c : Option Str) (ls : List Str) : Option Str :=
  ls.foldl (fun c l => some ((c.elim [] fun c => if c = [] then [] else c ++ ['\n']) ++ l)) c

theorem foldl_comment : ls.foldl (fun cur l => field cur (": ".toList ++ stripCr l)) cur =
      { cur with comment := joinComment cur.comment (ls.map stripCr) } := by
  induction ls generalizing cur with
  | nil => rfl
  | cons l ls ih =>
    rw [foldl_cons, ih, field_comment]
    rfl

theorem foldl_data : ls.foldl (fun cur l => field cur ("data: ".toList ++ stripCr l)) cur =
      { cur with data := cur.data ++ (ls.map stripCr).flatMap (fun l => l ++ ['\n']) } := by
  induction ls generalizing cur with
  | nil =>
    rw [foldl_nil, map_nil, flatMap_nil, append_nil]
  | cons l ls ih =>
    have hfield := @field_named cur "data".toList (by decide) (by decide) (stripCr l)
    rw [foldl_cons, show "data: ".toList ++ stripCr l = "data".toList ++ ": ".toList ++ stripCr l from rfl, hfield, ih, setField,
      if_pos rfl, map_cons, flatMap_cons]
    simp only [append_assoc]

theorem takeTexts_nil (s : Event × Bool) : takeTexts s [] = (s, []) := rfl

/-- The field of a value that may be missing. -/
theorem takeTexts_option (s : Event × Bool) (hne : p ≠ []) (hp : p.getLast? ≠ some '\r') (v : Option Str) :
    takeTexts s (v.toList.map (fun l => p ++ l)) = ((v.elim s.1 (fun l => field s.1 (p ++ stripCr l)), s.2 || v.isSome), []) := by
  rw [takeTexts_fields s hne hp]
  rcases v with _ | v <;> rfl

/-! ## Frames -/

/-- The lines of a frame before the blank one. -/
def frameLines (e : Event) : List Str :=
  (e.comment.elim [] fun c => (split '\n' c).map (fun l => ": ".toList ++ l)) ++
    e.event.toList.map (fun l => "event: ".toList ++ l) ++
    e.id.toList.map (fun l => "id: ".toList ++ l) ++
    (e.retry.map (fun r => Nat.toDigits 10 r.toNat)).toList.map (fun l => "retry: ".toList ++ l) ++
    (if e.data ≠ [] ∨ e.comment = none ∧ e.event = none then (split '\n' e.data).map (fun l => "data: ".toList ++ l) else [])

theorem toFrame_eq : e.toFrame = (frameLines e ++ [[]]).flatMap (fun l => l ++ ['\n']) := by
  have hlines : ∀ (p : Str) (ls : List Str), (ls.map (fun l => p ++ l)).flatMap (fun l => l ++ ['\n']) = ls.flatMap (Event.fieldLine p) := by
    intro p ls
    rw [flatMap_map]
    rfl
  have hoption : ∀ (p : Str) (v : Option Str), (v.toList.map (fun l => p ++ l)).flatMap (fun l => l ++ ['\n']) = v.elim [] (Event.fieldLine p) := by
    intro p v
    rcases v with _ | v
    · rfl
    · exact flatMap_singleton _ _
  rw [Event.toFrame, frameLines]
  simp only [flatMap_append, hoption]
  congr 1
  congr 1
  · congr 1
    · congr 1
      congr 1
      rcases e.comment with _ | c
      · rfl
      · exact (hlines _ _).symm
    · rcases e.retry with _ | r <;> rfl
  · split
    · exact (hlines _ _).symm
    · rfl

/-- What the decoder reads of a frame whose name and id are one line each. -/
def received (e : Event) : Event where
  data := if e.data ≠ [] ∨ e.comment = none ∧ e.event = none then ((split '\n' e.data).map stripCr).flatMap (fun l => l ++ ['\n']) else []
  event := e.event.map stripCr
  id := e.id.map stripCr
  retry := e.retry
  comment := e.comment.elim none fun c => joinComment none ((split '\n' c).map stripCr)

theorem split_ne_nil (c : Char) (s : Str) : split c s ≠ [] := splitOn_ne_nil c s

theorem field_retry (r : UInt64) :
    field cur ("retry: ".toList ++ stripCr (Nat.toDigits 10 r.toNat)) = { cur with retry := some r } := by
  have hcr : (Nat.toDigits 10 r.toNat).getLast? ≠ some '\r' := by
    intro h
    exact absurd (isDigit_toDigits r.toNat _ (mem_of_getLast? h)) (by decide)
  have hparse : parseUnsigned 64 10 (Nat.toDigits 10 r.toNat) = some r.toNat := by
    rw [parseUnsigned_toDigits, if_pos r.toNat_lt]
  have hset : setField cur "retry".toList (Nat.toDigits 10 r.toNat) = { cur with retry := some r } := by
    rw [setField, if_neg (by decide), if_neg (by decide), if_neg (by decide), if_pos rfl, hparse]
    simp only [UInt64.ofNat_toNat]
  rw [stripCr_eq_self hcr]
  exact (@field_named cur "retry".toList (by decide) (by decide) _).trans hset

theorem takeTexts_frameLines : takeTexts (.empty, false) (frameLines e) = ((received e, true), []) := by
  have hcomment : takeTexts (.empty, false) (e.comment.elim [] fun c => (split '\n' c).map (fun l => ": ".toList ++ l)) =
      ((⟨[], none, none, none, (received e).comment⟩, e.comment.isSome), []) := by
    rw [received]
    rcases e.comment with _ | c
    · rfl
    · have hne : (split '\n' c).isEmpty = false := isEmpty_eq_false_iff.mpr (split_ne_nil _ _)
      rw [Option.elim_some, takeTexts_fields _ (by decide) (by decide), foldl_comment, hne]
      rfl
  have hretry : ∀ cur : Event, ((e.retry.map (fun r => Nat.toDigits 10 r.toNat)).elim cur fun l => field cur ("retry: ".toList ++ stripCr l)) =
      { cur with retry := e.retry.elim cur.retry some } := by
    intro cur
    rcases e.retry with _ | r
    · rfl
    · exact field_retry r
  have hdata : ∀ cur d, cur.data = [] → (d = true ∨ e.comment = none ∧ e.event = none) →
      takeTexts (cur, d) (if e.data ≠ [] ∨ e.comment = none ∧ e.event = none then (split '\n' e.data).map (fun l => "data: ".toList ++ l) else []) =
        (({ cur with data := (received e).data }, true), []) := by
    intro cur d hcur hd
    rw [received]
    split
    · have hne : (split '\n' e.data).isEmpty = false := isEmpty_eq_false_iff.mpr (split_ne_nil _ _)
      rw [takeTexts_fields _ (by decide) (by decide), foldl_data, hne, hcur]
      simp only [nil_append, Bool.not_false, Bool.or_true]
    · rename_i hnone
      rw [takeTexts_nil, hd.resolve_right (fun h => hnone (.inr h)), ← hcur]
  rw [frameLines, takeTexts_append, takeTexts_append, takeTexts_append, takeTexts_append, hcomment]
  simp only [takeTexts_option (p := "event: ".toList) _ (by decide) (by decide), takeTexts_option (p := "id: ".toList) _ (by decide) (by decide),
    takeTexts_option (p := "retry: ".toList) _ (by decide) (by decide), hretry]
  rw [hdata]
  · rcases e with ⟨data, event, id, retry, comment⟩
    rcases event with _ | event <;> rcases id with _ | id <;> rcases retry with _ | retry <;> rfl
  · rcases e.event with _ | event <;> rcases e.id with _ | id <;> rfl
  · rcases e with ⟨data, event, id, retry, comment⟩
    rcases comment with _ | c
    · rcases event with _ | event
      · exact .inr ⟨rfl, rfl⟩
      · exact .inl rfl
    · exact .inl (by simp)

/-- A frame is decoded as one event. -/
theorem takeTexts_frame : takeTexts (.empty, false) (frameLines e ++ [[]]) = ((.empty, false), [dispatch (received e)]) := by
  rw [takeTexts_append, takeTexts_frameLines]
  rfl

/-- Frames that are each decoded as one event. -/
theorem takeTexts_frames {α : Type} {xs : List α} {lines : α → List Str} {event : α → Event}
    (h : ∀ x ∈ xs, takeTexts (.empty, false) (lines x) = ((.empty, false), [event x])) :
    takeTexts (.empty, false) (xs.flatMap lines) = ((.empty, false), xs.map event) := by
  induction xs with
  | nil => rfl
  | cons x xs ih =>
    rw [flatMap_cons, takeTexts_append, h x mem_cons_self, ih (forall_mem_cons.mp h).2]
    rfl

/-- The lines of frames whose lines have no newline in them. -/
theorem cutLines_frames {α : Type} {xs : List α} {frame : α → Str} {lines : α → List Str}
    (hframe : ∀ x, frame x = (lines x).flatMap (fun l => l ++ ['\n'])) (hlines : ∀ x ∈ xs, ∀ l ∈ lines x, '\n' ∉ l) :
    (cutLines '\n' (xs.flatMap frame)).1 = xs.flatMap lines := by
  have hframes : xs.flatMap frame = (xs.flatMap lines).flatMap (fun l => l ++ ['\n']) ++ [] := by
    rw [flatMap_assoc, append_nil]
    exact flatMap_congr (fun x _ => hframe x)
  rw [hframes, cutLines_flatMap ?_ not_mem_nil]
  intro l hl
  obtain ⟨x, hx, hl⟩ := mem_flatMap.mp hl
  exact hlines x hx l hl

/-! ## What a frame keeps -/

theorem stripCr_begins (s : Str) : stripCr s <+: s := by
  rw [stripCr]
  split
  · exact dropLast_prefix s
  · exact prefix_rfl

theorem stripCr_eq_self_iff : stripCr s = s ↔ s.getLast? ≠ some '\r' := by
  refine ⟨fun h hlast => ?_, stripCr_eq_self⟩
  obtain ⟨t, rfl⟩ := getLast?_eq_some_iff.mp hlast
  rw [stripCr, if_pos hlast, dropLast_concat] at h
  simp at h

theorem isLine_iff : isLine s = true ↔ '\n' ∉ s ∧ stripCr s = s := by
  rw [isLine, Bool.and_eq_true, stripCr_eq_self_iff]
  simp

/-- Lines put together with something before or after each. -/
theorem length_flatMap_stripCr (ls : List Str) :
    ((ls.map stripCr).flatMap (fun l => '\n' :: l)).length ≤ (ls.flatMap (fun l => '\n' :: l)).length := by
  induction ls with
  | nil => exact Nat.le_refl _
  | cons l ls ih =>
    have hl := (stripCr_begins l).length_le
    rw [map_cons, flatMap_cons, flatMap_cons, length_append, length_append, length_cons, length_cons]
    omega

/-- Lines put together are what they were only if none has lost its end. -/
theorem flatMap_stripCr_eq :
    stripCr l ++ (ls.map stripCr).flatMap (fun l => '\n' :: l) = l ++ ls.flatMap (fun l => '\n' :: l) ↔ ∀ m ∈ l :: ls, stripCr m = m := by
  constructor
  · intro h
    induction ls generalizing l with
    | nil =>
      rw [map_nil, flatMap_nil, append_nil, append_nil] at h
      intro m hm
      rw [mem_singleton.mp hm]
      exact h
    | cons k ls ih =>
      have hlen := congrArg length h
      rw [length_append, length_append] at hlen
      have hls := length_flatMap_stripCr (k :: ls)
      have hself : stripCr l = l := (stripCr_begins l).eq_of_length_le (by omega)
      rw [hself, append_cancel_left_eq, map_cons, flatMap_cons, flatMap_cons, cons_append, cons_append, cons.injEq] at h
      intro m hm
      rcases mem_cons.mp hm with rfl | hm
      · exact hself
      · exact ih h.2 m hm
  · intro h
    have hmap : ls.map stripCr = ls := by
      rw [map_congr_left (forall_mem_cons.mp h).2, map_id']
    rw [h l mem_cons_self, hmap]

theorem flatMap_newline : (l :: ls).flatMap (fun l => l ++ ['\n']) = l ++ ls.flatMap (fun l => '\n' :: l) ++ ['\n'] := by
  induction ls generalizing l with
  | nil => rw [flatMap_singleton, flatMap_nil, append_nil]
  | cons k ls ih =>
    rw [flatMap_cons, ih, flatMap_cons]
    simp only [append_assoc, nil_append, cons_append]

/-- A text is its lines with a newline between each two. -/
theorem split_cons (h : split '\n' s = l :: ls) : s = l ++ ls.flatMap (fun l => '\n' :: l) := by
  have hflat := flatMap_split '\n' s
  rw [h, flatMap_newline] at hflat
  exact (append_cancel_right hflat).symm

theorem keepsLines_iff (h : split '\n' s = l :: ls) : keepsLines s = true ↔ ∀ m ∈ l :: ls, stripCr m = m := by
  rw [keepsLines, h, all_eq_true]
  refine forall₂_congr (fun m _ => ?_)
  rw [stripCr_eq_self_iff, bne_iff_ne]

theorem data_kept : (dispatch (received e)).data = e.data ↔ keepsLines e.data = true := by
  obtain ⟨l, ls, hsplit⟩ := exists_cons_of_ne_nil (split_ne_nil '\n' e.data)
  rw [dispatch, received]
  by_cases hdata : e.data ≠ [] ∨ e.comment = none ∧ e.event = none
  · rw [if_pos hdata, hsplit, map_cons, flatMap_newline, getLast?_concat, if_pos rfl, dropLast_concat,
      keepsLines_iff hsplit, ← flatMap_stripCr_eq, ← split_cons hsplit]
  · rw [not_or, not_not] at hdata
    rw [if_neg (not_or.mpr ⟨not_not.mpr hdata.1, hdata.2⟩), hdata.1]
    exact ⟨fun _ => rfl, fun _ => rfl⟩

/-- Once a comment is not empty, its lines are all kept apart. -/
theorem joinComment_of_ne_nil {c : Str} (h : c ≠ []) (ls : List Str) :
    joinComment (some c) ls = some (c ++ ls.flatMap (fun l => '\n' :: l)) := by
  induction ls generalizing c with
  | nil =>
    rw [flatMap_nil, append_nil]
    rfl
  | cons l ls ih =>
    rw [joinComment, foldl_cons, Option.elim_some, if_neg h]
    refine (ih (append_ne_nil_of_left_ne_nil (append_ne_nil_of_left_ne_nil h _) _)).trans ?_
    rw [flatMap_cons]
    simp only [append_assoc, singleton_append]

/-- With lines after an empty beginning, a newline is lost. -/
theorem length_joinComment {c : Str} (ls : List Str) (h : joinComment (some []) ls = some c) :
    c.length ≤ (ls.flatMap (fun l => '\n' :: l)).length - 1 := by
  induction ls with
  | nil =>
    cases h
    exact Nat.zero_le _
  | cons l ls ih =>
    rw [joinComment, foldl_cons, Option.elim_some, if_pos rfl, nil_append] at h
    rw [flatMap_cons, length_append, length_cons]
    rcases l with _ | ⟨a, l⟩
    · have hle := ih h
      omega
    · have hc := joinComment_of_ne_nil (cons_ne_nil a l) ls
      rw [joinComment, h] at hc
      cases hc
      rw [length_append]
      omega

theorem comment_kept (c : Str) :
    joinComment none ((split '\n' c).map stripCr) = some c ↔ (keepsLines c && c.head? != some '\n') = true := by
  obtain ⟨l, ls, hsplit⟩ := exists_cons_of_ne_nil (split_ne_nil '\n' c)
  have hl : '\n' ∉ l := not_mem_of_mem_split (hsplit ▸ mem_cons_self)
  have hc := split_cons hsplit
  have hfirst : joinComment none ((split '\n' c).map stripCr) = joinComment (some (stripCr l)) (ls.map stripCr) := by
    rw [hsplit]
    rfl
  rw [hfirst, Bool.and_eq_true, keepsLines_iff hsplit, bne_iff_ne]
  by_cases hnil : stripCr l = []
  · rw [hnil]
    rcases ls with _ | ⟨k, ls⟩
    · rw [flatMap_nil, append_nil] at hc
      subst hc
      constructor
      · intro h
        cases h
        exact ⟨fun m hm => by rw [mem_singleton.mp hm]; rfl, nofun⟩
      · rintro ⟨h, -⟩
        rw [← hnil, h c mem_cons_self]
        rfl
    · -- a newline is lost at the beginning
      have hlen := length_flatMap_stripCr (k :: ls)
      constructor
      · intro h
        have hle := length_joinComment _ h
        have hclen := congrArg length hc
        rw [length_append] at hclen
        have hpos : 0 < ((k :: ls).flatMap (fun l => '\n' :: l)).length := by
          rw [flatMap_cons, length_append, length_cons]
          omega
        omega
      · rintro ⟨h, hhead⟩
        have hlnil : l = [] := (h l mem_cons_self).symm.trans hnil
        rw [hc, hlnil] at hhead
        exact absurd rfl hhead
  · rw [joinComment_of_ne_nil hnil, Option.some.injEq]
    have hhead : c.head? ≠ some '\n' := by
      rcases l with _ | ⟨a, l⟩
      · exact absurd rfl hnil
      · rw [hc]
        intro h
        exact hl (Option.some.inj h ▸ mem_cons_self)
    rw [← flatMap_stripCr_eq, ← hc]
    exact ⟨fun h => ⟨h, hhead⟩, fun h => h.1⟩

/-- The name and the id of an event have no newline in them. -/
def OneLine (e : Event) : Prop := (∀ v ∈ e.event, '\n' ∉ v) ∧ ∀ v ∈ e.id, '\n' ∉ v

theorem oneLine_empty : OneLine .empty := ⟨by rintro _ ⟨⟩, by rintro _ ⟨⟩⟩

/-- The frame of an event whose name and id are one line each is decoded as the event exactly if its fields keep their values. -/
theorem received_eq_iff (hone : OneLine e) : dispatch (received e) = e ↔ e.isKept = true := by
  have hline : ∀ v : Option Str, (∀ s ∈ v, '\n' ∉ s) → (v.map stripCr = v ↔ v.all isLine = true) := by
    intro v hv
    rcases v with _ | s
    · exact ⟨fun _ => rfl, fun _ => rfl⟩
    · rw [Option.map_some, Option.some.injEq, Option.all_some, isLine_iff]
      exact ⟨fun h => ⟨hv s rfl, h⟩, fun h => h.2⟩
  have hcomment : (e.comment.elim none fun c => joinComment none ((split '\n' c).map stripCr)) = e.comment ↔
      e.comment.all (fun c => keepsLines c && c.head? != some '\n') = true := by
    rcases e.comment with _ | c
    · exact ⟨fun _ => rfl, fun _ => rfl⟩
    · exact comment_kept c
  have hext : dispatch (received e) = e ↔ (((dispatch (received e)).data = e.data ∧ (received e).event = e.event) ∧
      (received e).id = e.id) ∧ (received e).comment = e.comment := by
    rcases e with ⟨data, event, id, retry, comment⟩
    simp [dispatch, received, and_assoc]
  rw [hext, Event.isKept, Bool.and_eq_true, Bool.and_eq_true, Bool.and_eq_true, ← data_kept, ← hline e.event hone.1, ← hline e.id hone.2,
    ← hcomment]
  rfl

/-! ## Names and ids come from one line -/

theorem mem_of_mem_stripSpace (h : c ∈ stripSpace v) : c ∈ v := by
  rw [stripSpace, stripStart] at h
  split at h
  · exact mem_of_mem_drop h
  · exact h

theorem oneLine_setField {name : Str} (hcur : OneLine cur) (hv : '\n' ∉ v) : OneLine (setField cur name v) := by
  rw [setField]
  split
  · exact hcur
  split
  · exact ⟨fun w hw => Option.some.inj hw ▸ hv, hcur.2⟩
  split
  · exact ⟨hcur.1, fun w hw => Option.some.inj hw ▸ hv⟩
  split
  · split
    · exact hcur
    · exact hcur
  · exact hcur

theorem oneLine_field {line : Str} (hcur : OneLine cur) (hline : '\n' ∉ line) : OneLine (field cur line) := by
  rw [field]
  split
  · exact hcur
  · split
    · rename_i name value hsplit
      refine oneLine_setField hcur (fun h => hline ?_)
      rw [splitOnce_eq_some hsplit]
      exact mem_append_right _ (mem_cons_of_mem _ (mem_of_mem_stripSpace h))
    · exact oneLine_setField hcur not_mem_nil

theorem oneLine_takeTexts {s : Event × Bool} (hs : OneLine s.1) (hls : ∀ l ∈ ls, '\n' ∉ l) : ∀ e ∈ (takeTexts s ls).2, OneLine e := by
  induction ls generalizing s with
  | nil => exact nofun
  | cons l ls ih =>
    have hmore := (forall_mem_cons.mp hls).2
    have hstep : OneLine (takeText s l).1.1 ∧ ∀ e ∈ (takeText s l).2, OneLine e := by
      rw [takeText]
      split
      · split
        · exact ⟨oneLine_empty, fun e he => mem_singleton.mp he ▸ hs⟩
        · exact ⟨hs, nofun⟩
      · exact ⟨oneLine_field hs (fun h => hls l mem_cons_self ((stripCr_begins l).subset h)), nofun⟩
    intro e he
    rcases mem_append.mp he with he | he
    · exact hstep.2 e he
    · exact ih hstep.1 hmore e he

theorem not_mem_frameLines (h : OneLine e) : ∀ l ∈ frameLines e ++ [[]], '\n' ∉ l := by
  have hprepend : ∀ {p : Str} {ls : List Str}, '\n' ∉ p → (∀ l ∈ ls, '\n' ∉ l) → ∀ l ∈ ls.map (fun l => p ++ l), '\n' ∉ l := by
    intro p ls hp hls l hl
    obtain ⟨m, hm, rfl⟩ := mem_map.mp hl
    exact fun hmem => (mem_append.mp hmem).elim hp (hls m hm)
  have hsplit : ∀ (s : Str), ∀ l ∈ split '\n' s, '\n' ∉ l := fun s l hl => not_mem_of_mem_split hl
  intro l hl
  rw [frameLines] at hl
  simp only [mem_append, mem_singleton] at hl
  rcases hl with ((((hl | hl) | hl) | hl) | hl) | rfl
  · rcases hc : e.comment with _ | c
    · rw [hc] at hl
      exact absurd hl not_mem_nil
    · rw [hc] at hl
      exact hprepend (by decide) (hsplit c) l hl
  · exact hprepend (by decide) (fun v hv => h.1 v (Option.mem_toList.mp hv)) l hl
  · exact hprepend (by decide) (fun v hv => h.2 v (Option.mem_toList.mp hv)) l hl
  · refine hprepend (by decide) (fun v hv => ?_) l hl
    obtain ⟨r, -, rfl⟩ := Option.map_eq_some_iff.mp (Option.mem_toList.mp hv)
    exact fun hmem => absurd (isDigit_toDigits r.toNat _ hmem) (by decide)
  · split at hl
    · exact hprepend (by decide) (hsplit e.data) l hl
    · exact absurd hl not_mem_nil
  · exact not_mem_nil

theorem oneLine_of_isKept (h : e.isKept = true) : OneLine e := by
  have hline : ∀ v : Option Str, v.all isLine = true → ∀ s ∈ v, '\n' ∉ s := by
    intro v hv s hs
    rw [Option.mem_def.mp hs, Option.all_some, isLine_iff] at hv
    exact hv.1
  rw [Event.isKept, Bool.and_eq_true, Bool.and_eq_true, Bool.and_eq_true] at h
  exact ⟨hline e.event h.1.1.2, hline e.id h.1.2⟩

/-- The frames of events whose names and ids are one line each are decoded one by one. -/
theorem takeTexts_toFrame {events : List Event} (hone : ∀ e ∈ events, OneLine e) :
    (takeTexts (.empty, false) (cutLines '\n' (events.flatMap Event.toFrame)).1).2 = events.map (fun e => dispatch (received e)) := by
  rw [cutLines_frames (fun _ => toFrame_eq) (fun e he => not_mem_frameLines (hone e he)), takeTexts_frames (fun _ _ => takeTexts_frame)]

/-- The frames of some events, in any chunks, are decoded as those events exactly if the fields of all of them keep their values. -/
theorem decode_sse_iff {events : List Event} (h : chunks.flatten = (sse events).flatten) :
    decode chunks = events ↔ ∀ e ∈ events, e.isKept = true := by
  have htext : (sse events).flatten = utf8 (events.flatMap Event.toFrame) := by
    rw [utf8, flatMap_assoc]
    rfl
  rw [decode_text (h.trans htext)]
  constructor
  · intro hdecode
    have hone : ∀ e ∈ events, OneLine e := by
      intro e he
      refine oneLine_takeTexts (s := (.empty, false)) oneLine_empty (cutLines_spec '\n' (events.flatMap Event.toFrame)).2.1 e ?_
      rw [hdecode]
      exact he
    rw [takeTexts_toFrame hone] at hdecode
    intro e he
    refine (received_eq_iff (hone e he)).mp ?_
    have hmap : events.map (fun e => dispatch (received e)) = events.map id := by
      rw [hdecode, map_id]
    exact map_inj_left.mp hmap e he
  · intro hkept
    rw [takeTexts_toFrame (fun e he => oneLine_of_isKept (hkept e he))]
    have hmap : ∀ e ∈ events, dispatch (received e) = id e :=
      fun e he => (received_eq_iff (oneLine_of_isKept (hkept e he))).mpr (hkept e he)
    rw [map_congr_left hmap, map_id]

/-! ## Plain strings -/

/-- How much `data` the decoder holds, without the newline after the last line of it. -/
def held (s : Event × Bool) : Nat := s.1.data.length - 1

/-- How much `data` some events have. -/
def total (events : List Event) : Nat := (events.map (fun e => e.data.length)).sum

theorem total_append (es fs : List Event) : total (es ++ fs) = total es + total fs := by
  rw [total, map_append, sum_append]
  rfl

/-- Between lines: what is held ends in a newline if it is anything, and it is nothing before the first field. -/
def Between (s : Event × Bool) : Prop := (s.1.data = [] ∨ s.1.data.getLast? = some '\n') ∧ (s.2 = false → s.1 = .empty)

theorem length_setField (name v : Str) :
    (setField cur name v).data = cur.data ∨ name = "data".toList ∧ (setField cur name v).data = cur.data ++ v ++ ['\n'] := by
  rw [setField]
  split
  · rename_i h
    exact .inr ⟨h, rfl⟩
  split
  · exact .inl rfl
  split
  · exact .inl rfl
  split
  · split
    · exact .inl rfl
    · exact .inl rfl
  · exact .inl rfl

/-- A field adds less to the `data` than the line is long. -/
theorem length_field (cur : Event) (line : Str) : (field cur line).data = cur.data ∨
      ∃ v : Str, (field cur line).data = cur.data ++ v ++ ['\n'] ∧ v.length + 1 ≤ line.length := by
  have hspace : ∀ v : Str, (stripSpace v).length ≤ v.length := by
    intro v
    rw [stripSpace, stripStart]
    split
    · rw [Option.getD_some, length_drop]
      omega
    · exact Nat.le_refl _
  rw [field]
  split
  · exact .inl rfl
  · split
    · rename_i name value hsplit
      rcases length_setField name (stripSpace value) with h | ⟨hname, h⟩
      · exact .inl h
      · refine .inr ⟨_, h, ?_⟩
        have hle := hspace value
        rw [splitOnce_eq_some hsplit, length_append, length_cons]
        omega
    · rcases length_setField line [] with h | ⟨hname, h⟩
      · exact .inl h
      · refine .inr ⟨_, h, ?_⟩
        rw [hname]
        decide

theorem length_dispatch (h : cur.data = [] ∨ cur.data.getLast? = some '\n') : (dispatch cur).data.length = cur.data.length - 1 := by
  rw [dispatch]
  rcases h with h | h
  · rw [h]
    rfl
  · rw [if_pos h, length_dropLast]

/-- A line adds no more to the `data` than it is long. -/
theorem takeText_held {s : Event × Bool} (h : Between s) (l : Str) :
    Between (takeText s l).1 ∧ held (takeText s l).1 + total (takeText s l).2 ≤ held s + l.length := by
  rw [takeText]
  by_cases hblank : stripCr l = []
  · rw [if_pos hblank]
    rcases hd : s.2 with _ | _
    · exact ⟨h, Nat.le_add_right _ _⟩
    · refine ⟨⟨.inl rfl, fun _ => rfl⟩, ?_⟩
      have hdispatch := length_dispatch h.1
      simp only [if_true, held, total, map_cons, map_nil, sum_cons, sum_nil, Event.empty, length_nil]
      omega
  · rw [if_neg hblank]
    have hl := (stripCr_begins l).length_le
    rcases length_field s.1 (stripCr l) with hf | ⟨v, hf, hv⟩
    · refine ⟨⟨?_, nofun⟩, ?_⟩
      · rw [hf]
        exact h.1
      · simp only [held, hf, total, map_nil, sum_nil]
        omega
    · refine ⟨⟨.inr ?_, nofun⟩, ?_⟩
      · rw [hf, getLast?_concat]
      · simp only [held, hf, total, map_nil, sum_nil, length_append, length_singleton]
        omega

theorem takeTexts_held {s : Event × Bool} (h : Between s) (ls : List Str) :
    Between (takeTexts s ls).1 ∧ held (takeTexts s ls).1 + total (takeTexts s ls).2 ≤ held s + (ls.map length).sum := by
  induction ls generalizing s with
  | nil =>
    refine ⟨h, ?_⟩
    exact Nat.le_refl _
  | cons l ls ih =>
    obtain ⟨hstep, hle⟩ := takeText_held h l
    obtain ⟨hrun, hmore⟩ := ih hstep
    rw [takeTexts]
    refine ⟨hrun, ?_⟩
    simp only [total_append, map_cons, sum_cons]
    omega

/-- The lines of a plain string's frame before the blank one. -/
def plainLines (s : Str) : List Str := split '\n' ("data: ".toList ++ s)

theorem dataFrame_eq : dataFrame s = (plainLines s ++ [[]]).flatMap (fun l => l ++ ['\n']) := by
  rw [flatMap_append, plainLines, flatMap_split, append_assoc]
  rfl

theorem plainLines_eq (h : split '\n' s = l :: ls) : plainLines s = ("data: ".toList ++ l) :: ls := by
  obtain ⟨first, more, hs, hp⟩ := split_append_left (c := '\n') (p := "data: ".toList) (by decide) s
  rw [h] at hs
  cases hs
  exact hp

theorem between_empty : Between (.empty, false) := ⟨.inl rfl, fun _ => rfl⟩

/-- After a blank line the decoder is as it was at first. -/
theorem takeText_blank {s : Event × Bool} (h : Between s) : (takeText s []).1 = (.empty, false) := by
  rcases s with ⟨cur, _ | _⟩
  · have hcur : cur = .empty := h.2 rfl
    rw [hcur]
    rfl
  · rfl

/-- The first line of a plain string's frame. -/
theorem takeText_plain (l : Str) :
    takeText (.empty, false) ("data: ".toList ++ l) = ((⟨stripCr l ++ ['\n'], none, none, none, none⟩, true), []) := by
  rw [takeText_field _ (by decide) (by decide), show "data: ".toList ++ stripCr l = "data".toList ++ ": ".toList ++ stripCr l from rfl]
  rfl

theorem length_split (h : split '\n' s = l :: ls) : s.length = l.length + (ls.map length).sum + ls.length := by
  rw [split_cons h, length_append, length_flatMap]
  have hsum : (ls.map (fun l => ('\n' :: l).length)).sum = (ls.map length).sum + ls.length := by
    clear h
    induction ls with
    | nil => rfl
    | cons k ls ih =>
      rw [map_cons, sum_cons, map_cons, sum_cons, length_cons, length_cons]
      omega
  omega

/-- The frame of a plain string: it leaves the decoder as it was, with no more `data` than the string is long, and less if the string
is not one line. -/
theorem takeTexts_plain (s : Str) : (takeTexts (.empty, false) (plainLines s ++ [[]])).1 = (.empty, false) ∧
      total (takeTexts (.empty, false) (plainLines s ++ [[]])).2 ≤ s.length ∧
      ('\n' ∈ s → total (takeTexts (.empty, false) (plainLines s ++ [[]])).2 < s.length) := by
  obtain ⟨l, ls, hsplit⟩ := exists_cons_of_ne_nil (split_ne_nil '\n' s)
  have hfirst : Between (takeText (.empty, false) ("data: ".toList ++ l)).1 := (takeText_held between_empty _).1
  obtain ⟨hbetween, hle⟩ := takeTexts_held hfirst ls
  obtain ⟨-, hlast⟩ := takeText_held hbetween []
  have hheld : held (takeText (.empty, false) ("data: ".toList ++ l)).1 ≤ l.length := by
    rw [takeText_plain, held, length_append]
    exact (stripCr_begins l).length_le
  have hnone : (takeText (.empty, false) ("data: ".toList ++ l)).2 = [] := by rw [takeText_plain]
  have hlen := length_split hsplit
  have hmore : '\n' ∈ s → 0 < ls.length := by
    intro hmem
    by_contra hnot
    have hnil : ls = [] := length_eq_zero_iff.mp (by omega)
    rw [hnil] at hsplit
    have hs := split_cons hsplit
    rw [flatMap_nil, append_nil] at hs
    rw [hs] at hmem
    exact not_mem_of_mem_split (hsplit ▸ mem_cons_self) hmem
  rw [plainLines_eq hsplit, cons_append, takeTexts, takeTexts_append, hnone]
  simp only [takeTexts, takeText_blank hbetween, nil_append, append_nil, total_append]
  rw [length_nil] at hlast
  refine ⟨trivial, by omega, fun hmem => ?_⟩
  have hpos := hmore hmem
  omega

/-- The frame of one line. -/
theorem takeTexts_plain_line (h : '\n' ∉ s) :
    takeTexts (.empty, false) (plainLines s ++ [[]]) = ((.empty, false), [Event.new (stripCr s)]) := by
  rw [plainLines_eq (split_eq_singleton h), singleton_append, takeTexts, takeText_plain]
  have hdispatch : dispatch ⟨stripCr s ++ ['\n'], none, none, none, none⟩ = Event.new (stripCr s) := by
    rw [dispatch]
    simp only [getLast?_concat, dropLast_concat]
    rfl
  rw [← hdispatch]
  rfl

theorem takeTexts_plain_total (strings : List Str) :
    (takeTexts (.empty, false) (strings.flatMap (fun s => plainLines s ++ [[]]))).1 = (.empty, false) ∧
      total (takeTexts (.empty, false) (strings.flatMap (fun s => plainLines s ++ [[]]))).2 ≤ (strings.map length).sum ∧
      ((∃ s ∈ strings, '\n' ∈ s) →
        total (takeTexts (.empty, false) (strings.flatMap (fun s => plainLines s ++ [[]]))).2 < (strings.map length).sum) := by
  induction strings with
  | nil =>
    refine ⟨rfl, Nat.le_refl _, ?_⟩
    rintro ⟨s, hs, -⟩
    exact absurd hs not_mem_nil
  | cons s strings ih =>
    obtain ⟨hend, hle, hlt⟩ := takeTexts_plain s
    obtain ⟨hends, hles, hlts⟩ := ih
    rw [flatMap_cons, takeTexts_append, hend, map_cons, sum_cons]
    simp only [total_append]
    refine ⟨hends, by omega, ?_⟩
    rintro ⟨t, ht, hmem⟩
    rcases mem_cons.mp ht with rfl | ht
    · have := hlt hmem
      omega
    · have := hlts ⟨t, ht, hmem⟩
      omega

/-- The frames of plain strings, in any chunks, are decoded as events with those strings exactly if each of them is one line that does
not end in a carriage return. -/
theorem decode_eventStream_iff {strings : List Str} (h : chunks.flatten = (eventStream strings).flatten) :
    (decode chunks).map Event.data = strings ↔ ∀ s ∈ strings, isLine s = true := by
  have htext : (eventStream strings).flatten = utf8 (strings.flatMap dataFrame) := by
    rw [utf8, flatMap_assoc]
    rfl
  have hlines : ∀ s ∈ strings, ∀ l ∈ plainLines s ++ [[]], '\n' ∉ l := by
    intro s _ l hl
    rcases mem_append.mp hl with hl | hl
    · exact not_mem_of_mem_split hl
    · rw [mem_singleton.mp hl]
      exact not_mem_nil
  rw [decode_text (h.trans htext), cutLines_frames (fun _ => dataFrame_eq) hlines]
  have hlinesOf : (∀ s ∈ strings, '\n' ∉ s) →
      ((takeTexts (.empty, false) (strings.flatMap (fun s => plainLines s ++ [[]]))).2.map Event.data = strings ↔
        ∀ s ∈ strings, stripCr s = s) := by
    intro hone
    rw [takeTexts_frames (fun s hs => takeTexts_plain_line (hone s hs)), map_map]
    conv_lhs => rw [← map_id strings, map_map]
    exact map_inj_left
  constructor
  · intro hdata
    have hone : ∀ s ∈ strings, '\n' ∉ s := by
      intro s hs hmem
      have hlt := (takeTexts_plain_total strings).2.2 ⟨s, hs, hmem⟩
      rw [total, ← Function.comp_def length, ← map_map, hdata] at hlt
      omega
    exact fun s hs => isLine_iff.mpr ⟨hone s hs, (hlinesOf hone).mp hdata s hs⟩
  · intro hkept
    exact (hlinesOf (fun s hs => (isLine_iff.mp (hkept s hs)).1)).mpr (fun s hs => (isLine_iff.mp (hkept s hs)).2)

end Sse

end Http

end Ferroly
