import Ferroly.Lemmas.WsSession

/-!
# WebSocket connections

What the read loop makes of the frames of a connection, however their bytes come: the messages of frames that keep to the protocol.
-/

namespace Ferroly.Ws

/-- On any connection. Where the bytes are those of frames that keep to the protocol and the limits up to the first close, and the
application takes all messages: the loop delivers exactly the messages and queues a pong for each ping, up to the close. And whatever
the bytes are, no message that is delivered has more bytes than the limit. -/
theorem valid_frames_delivered (maxFrameSize maxMessageSize takes : Option Nat) (conn : Conn) (leftover : Bytes) :
    (∀ (frames : List WireFrame) (rest : Bytes), leftover ++ conn.input = frames.flatMap WireFrame.bytes ++ rest →
      (rest = [] ∨ ∃ f ∈ frames, f.code = 8) → isValid (beforeClose frames) = true →
      withinLimits maxFrameSize maxMessageSize (beforeClose frames) = true →
      (∀ n, takes = some n → (messages (beforeClose frames)).length ≤ n) →
      (readLoop maxMessageSize (.new conn leftover maxFrameSize) takes).messages = messages (beforeClose frames) ∧
        (readLoop maxMessageSize (.new conn leftover maxFrameSize) takes).queue =
          (pings (beforeClose frames)).map .pong ++ closing maxFrameSize frames) ∧
      ∀ n, maxMessageSize = some n →
        ∀ p ∈ (readLoop maxMessageSize (.new conn leftover maxFrameSize) takes).delivered, p.2.length ≤ n := by
  constructor
  · intro frames rest hbytes hend hvalid hlimits hstays
    have hloop := @readLoop_frames maxMessageSize takes (.new conn leftover maxFrameSize) _ _ hbytes (hend.imp_right (feed_stops _))
    rw [hloop]
    exact feed_valid hvalid hlimits hstays
  · intro n hn p hp
    have hsize := readLoopFrom_delivered _ _ _ (fun p hp => absurd hp List.not_mem_nil) p hp
    rw [hn] at hsize
    exact Nat.not_lt.mp (of_decide_eq_false hsize)

/-- A text in two fragments with a ping between them, and a close. -/
def pingedText : List WireFrame :=
  [⟨false, 0, 1, none, utf8 "a".toList, by decide⟩, ⟨true, 0, 9, some (fun _ => 7), [1], by decide⟩,
    ⟨true, 0, 0, some (fun _ => 7), utf8 "b".toList, by decide⟩, ⟨true, 0, 8, none, [], by decide⟩]

/-- The bytes of some frames, with two of them left over from the handshake. -/
def framesConn (frames : List WireFrame) : Conn := ⟨(frames.flatMap WireFrame.bytes).drop 2, .stall, [1, 3], false, [], none, none⟩

theorem valid_frames_delivered_pinged :
    (readLoop (some 2) (.new (framesConn pingedText) ((pingedText.flatMap WireFrame.bytes).take 2) (some 1)) none).messages =
        [.text "ab".toList] ∧
      (readLoop (some 2) (.new (framesConn pingedText) ((pingedText.flatMap WireFrame.bytes).take 2) (some 1)) none).queue =
        [.pong [1], .close] := by
  have h := (valid_frames_delivered (some 1) (some 2) none (framesConn pingedText) ((pingedText.flatMap WireFrame.bytes).take 2)).1
    pingedText [] (by rw [List.append_nil]; exact List.take_append_drop 2 _) (.inl rfl) (by decide) (by decide)
    (fun _ h => nomatch h)
  exact h

/-! ## One frame -/

/-- What the encoder writes is a frame without reserved bits. -/
theorem encode_eq (fin : Bool) (opcode : Opcode) (payload : Bytes) (mask : Option MaskKey) (hlen : payload.length < 2 ^ 63) :
    ∃ f : WireFrame, encode fin opcode payload mask = f.bytes ∧ f.opcode = some opcode ∧ f.fin = fin ∧ f.key = mask ∧
      f.payload = payload := by
  have hbits : ∀ fin : Bool, (if fin then 0x80 else 0 : UInt8) ||| opcode.bits =
      UInt8.ofNat ((if fin then 128 else 0) + 0 * 16 + opcode.bits.toNat) := by
    rcases opcode <;> decide
  refine ⟨⟨fin, 0, ⟨opcode.bits.toNat, by rcases opcode <;> decide⟩, mask, payload, hlen⟩, ?_, by rcases opcode <;> rfl, rfl, rfl, rfl⟩
  rw [WireFrame.bytes_eq]
  unfold encode
  rw [hbits]
  rfl

/-- However the bytes of an encoded frame and those after it are spread over the leftover of the handshake and the reads of the socket:
within the limit the frame is read as it was, and what comes after it is unread; beyond the limit the read fails with the whole payload
unread. -/
theorem encoded_frame_read (fin : Bool) (opcode : Opcode) (payload : Bytes) (mask : Option MaskKey) (R leftover : Bytes) (conn : Conn)
    (maxFrameSize : Option Nat) (hlen : payload.length < 2 ^ 63)
    (hbytes : leftover ++ conn.input = encode fin opcode payload mask ++ R) :
    (exceeds maxFrameSize payload.length = false → ∃ r,
      readFrame (.new conn leftover maxFrameSize) = (.ok ⟨fin, opcode, payload⟩, r) ∧ r.unread = R) ∧
    (exceeds maxFrameSize payload.length = true → ∃ e r,
      readFrame (.new conn leftover maxFrameSize) = (.error e, r) ∧ r.unread = sealedPayload mask payload ++ R) := by
  obtain ⟨f, hf, hop, rfl, rfl, rfl⟩ := encode_eq fin opcode payload mask hlen
  have hunread : (Reader.new conn leftover maxFrameSize).unread = f.bytes ++ R := by rw [← hf]; exact hbytes
  rcases readFrame_reads hunread with ⟨op, r, hop', hfits, hread, hrest, -⟩ | ⟨hbad, e, r, hread, hrest⟩
  · cases hop.symm.trans hop'
    refine ⟨fun _ => ⟨r, hread, hrest⟩, fun hexceeds => ?_⟩
    cases hfits.symm.trans hexceeds
  · have hexceeds := hbad.resolve_left (by rw [hop]; exact Option.some_ne_none _)
    refine ⟨fun hfits => ?_, fun _ => ⟨e, r, hread, hrest (by rw [hop]; exact Option.some_ne_none _)⟩⟩
    cases hfits.symm.trans hexceeds

/-- A masked text of one byte, of which two bytes are left over from the handshake, and a byte after it. -/
theorem encoded_frame_read_masked :
    ∃ r, readFrame (.new ⟨[7, 7, 7, 7, 102, 1], .stall, [1, 3], false, [], none, none⟩ [129, 129] (some 1)) =
      (.ok ⟨true, .text, utf8 "a".toList⟩, r) ∧ r.unread = [1] :=
  (encoded_frame_read true .text (utf8 "a".toList) (some fun _ => 7) [1] [129, 129] _ (some 1) (by decide) (by decide)).1 rfl

end Ferroly.Ws
