import Ferroly.Lemmas.HttpBody
import Ferroly.Ws.Spec

/-!
# Reading frames

However the bytes of some frames are spread over the leftover of the handshake and the reads of the socket, the reader takes them one by
one as they were sent.
-/

namespace Ferroly.Ws

open List Ferroly.Task

variable {r : Reader}

/-! ## Numbers in bytes -/

theorem ofBeBytes_append (b : Bytes) (x : UInt8) : ofBeBytes (b ++ [x]) = ofBeBytes b * 256 + x.toNat := by
  rw [ofBeBytes, foldl_append]
  rfl

theorem length_beBytes (width n : Nat) : (beBytes width n).length = width := by
  induction width generalizing n with
  | zero => rfl
  | succ width ih => rw [beBytes, length_append, ih, length_singleton]

theorem ofBeBytes_beBytes {width n : Nat} (h : n < 256 ^ width) : ofBeBytes (beBytes width n) = n := by
  induction width generalizing n with
  | zero =>
    rw [Nat.pow_zero, Nat.lt_one_iff] at h
    rw [h]
    rfl
  | succ width ih =>
    have hq : n / 256 < 256 ^ width := Nat.div_lt_of_lt_mul (by rw [Nat.mul_comm]; exact h)
    rw [beBytes, ofBeBytes_append, ih hq, UInt8.toNat_ofNat']
    omega

/-! ## Masks -/

theorem applyMask_applyMask (payload : Bytes) (key : MaskKey) : applyMask (applyMask payload key) key = payload := by
  refine ext_getElem (by simp [applyMask]) (fun i h1 h2 => ?_)
  simp only [applyMask, getElem_mapIdx]
  rw [UInt8.xor_assoc, UInt8.xor_self, UInt8.xor_zero]

theorem length_applyMask (payload : Bytes) (key : MaskKey) : (applyMask payload key).length = payload.length := by
  simp [applyMask]

theorem maskKeyOf_bytes (key : MaskKey) : maskKeyOf key.bytes = key := by
  funext i
  rcases i with ⟨_ | _ | _ | _ | i, hi⟩
  · rfl
  · rfl
  · rfl
  · rfl
  · omega

theorem maskOctets_eq (payload : Bytes) (key : MaskKey) : WireFrame.maskOctets payload key = applyMask payload key := by
  refine ext_getElem (by simp [WireFrame.maskOctets, applyMask]) (fun i h1 h2 => ?_)
  rw [length_applyMask] at h2
  have hkey : key.bytes.getD (i % 4) 0 = key (Fin.ofNat 4 i) := congrFun (maskKeyOf_bytes key) (Fin.ofNat 4 i)
  simp only [WireFrame.maskOctets, applyMask, getElem_map, getElem_range, getElem_mapIdx, hkey]
  rw [getD_eq_getElem?_getD, getElem?_eq_getElem h2, Option.getD_some]

theorem lengthOctets_eq (masked : Bool) (len : Nat) :
    WireFrame.lengthOctets masked len = lengthBytes (if masked then 0x80 else 0) len := by
  have hmark : ∀ (masked : Bool) (n : Fin 128),
      UInt8.ofNat ((if masked then 128 else 0) + n.val) = (if masked then 0x80 else 0) ||| UInt8.ofNat n.val := by decide
  unfold WireFrame.lengthOctets lengthBytes
  by_cases h1 : len < 126
  · rw [if_pos h1]
    simp only [if_pos (Nat.le_of_lt_succ h1)]
    rw [hmark masked ⟨len, by omega⟩]
  by_cases h2 : len ≤ 0xFFFF
  · rw [if_neg h1, if_pos h2]
    simp only [if_neg (show ¬len ≤ 125 by omega), if_pos (show len < 2 ^ 16 by omega)]
    exact congrArg (· :: _) (hmark masked 126)
  · rw [if_neg h1, if_neg h2]
    simp only [if_neg (show ¬len ≤ 125 by omega), if_neg (show ¬len < 2 ^ 16 by omega)]
    refine congrArg₂ cons (hmark masked 127) ?_
    simp [beBytes, Nat.div_div_eq_div_mul]

/-! ## Bytes -/

/-- The reader has `rest` still to read, and the same limit. -/
def Reader.Leaves (r r' : Reader) (rest : Bytes) : Prop := r'.unread = rest ∧ r'.maxFrameSize = r.maxFrameSize

theorem readExactLoop_reads {fuel need : Nat} {out a rest : Bytes} {r : Reader} (hr : r.unread = a ++ rest) (ha : a.length = need)
    (hfuel : need < fuel) : ∃ r', readExactLoop fuel need out r = (.ok (out ++ a), r') ∧ r.Leaves r' rest := by
  induction fuel generalizing need out a r with
  | zero => omega
  | succ fuel ih =>
    rw [readExactLoop]
    split
    case isTrue hz =>
      obtain rfl : a = [] := length_eq_zero_iff.mp (ha.trans hz)
      exact ⟨r, by rw [append_nil]; rfl, hr, rfl⟩
    case isFalse hz =>
      rw [bind_of_ok (get_apply r)]
      split
      case isTrue hpos =>
        -- from the buffer
        set k := min need (r.buf.length - r.pos) with hk
        have hka : k ≤ a.length := by omega
        have htake : (r.buf.drop r.pos).take k = a.take k := by
          have h := congrArg (List.take k) hr
          rw [Reader.unread, take_append_of_le_length (by rw [length_drop]; omega), take_append_of_le_length hka] at h
          exact h
        have hdrop : Reader.unread { r with pos := r.pos + k } = a.drop k ++ rest := by
          have h := congrArg (List.drop k) hr
          rw [Reader.unread, drop_append_of_le_length (by rw [length_drop]; omega), drop_append_of_le_length hka, drop_drop] at h
          exact h
        rw [bind_of_ok (modify_apply _), htake]
        obtain ⟨r', hread, hleaves⟩ := @ih (need - k) (out ++ a.take k) _ _ hdrop (by rw [length_drop]; omega) (by omega)
        exact ⟨r', by rw [hread, append_assoc, take_append_drop], hleaves⟩
      case isFalse hpos =>
        have hbuf : r.buf.drop r.pos = [] := drop_eq_nil_of_le (by omega)
        rw [Reader.unread, hbuf, nil_append] at hr
        have hne : r.inner.input ≠ [] := by
          intro hnil
          rw [hnil] at hr
          have := congrArg List.length hr
          simp only [length_nil, length_append] at this
          omega
        obtain ⟨k, hk0, hkm, hki, hread⟩ := Conn.read_of_ne_nil (m := min need READ_CHUNK) (by unfold READ_CHUNK; omega) hne
        have hka : k ≤ a.length := by omega
        have htake : r.inner.input.take k = a.take k := by rw [hr, take_append_of_le_length hka]
        have hlen : (a.take k).length = k := length_take_of_le hka
        have hstep : (Conn.read (min need READ_CHUNK)).zoom Reader.inner (fun c r => { r with inner := c }) r =
            (.ok (a.take k), { r with inner := { r.inner with input := r.inner.input.drop k, paces := r.inner.paces.tail } }) := by
          rw [zoom_apply, hread, htake]
        rw [bind_of_ok hstep, if_neg (by intro h; rw [h] at hlen; simp at hlen; omega), hlen]
        have hdrop : Reader.unread { r with inner :=
            { r.inner with input := r.inner.input.drop k, paces := r.inner.paces.tail } } = a.drop k ++ rest := by
          rw [Reader.unread]
          rw [hbuf, nil_append, hr, drop_append_of_le_length hka]
        obtain ⟨r', hread', hleaves⟩ := @ih (need - k) (out ++ a.take k) _ _ hdrop (by rw [length_drop]; omega) (by omega)
        exact ⟨r', by rw [hread', append_assoc, take_append_drop], hleaves⟩

theorem readExact_reads {a rest : Bytes} (hr : r.unread = a ++ rest) : ∃ r', readExact a.length r = (.ok a, r') ∧ r.Leaves r' rest :=
  readExactLoop_reads hr rfl (Nat.lt_succ_self _)

/-- Nothing is read where there is nothing. -/
theorem readExact_empty {n : Nat} (hr : r.unread = []) (hn : n ≠ 0) : ∃ e r', readExact n r = (.error e, r') := by
  obtain ⟨hbuf, hin⟩ := append_eq_nil_iff.mp hr
  have hpos : ¬r.pos < r.buf.length := Nat.not_lt.mpr (drop_eq_nil_iff.mp hbuf)
  rw [readExact, readExactLoop, if_neg hn, bind_of_ok (get_apply r), if_neg hpos,
    bind_apply, zoom_apply, Conn.read_nil hin, Conn.atEnd]
  rcases r.inner.ending with _ | _ | _
  · exact ⟨_, _, rfl⟩
  · exact ⟨_, _, rfl⟩
  · exact ⟨_, _, rfl⟩

/-! ## Frames -/

theorem parseHeader_first (f : WireFrame) (b1 : UInt8) :
    Frame.parseHeader f.firstByte b1 = f.opcode.map (fun op => (f.fin, op, b1 &&& 0x80 != 0, b1 &&& 0x7f)) := by
  have hbits : ∀ (fin : Bool) (rsv : Fin 8) (code : Fin 16),
      UInt8.ofNat ((if fin then 128 else 0) + rsv.val * 16 + code.val) &&& 0x0f = UInt8.ofNat code.val ∧
        (UInt8.ofNat ((if fin then 128 else 0) + rsv.val * 16 + code.val) &&& 0x80 != 0) = fin := by decide
  obtain ⟨h1, h2⟩ := hbits f.fin f.rsv f.code
  rw [Frame.parseHeader, WireFrame.firstByte, h1, h2]
  rfl

theorem lengthMarker (maskBit : Bool) (len : Fin 128) :
    (((if maskBit then 0x80 else 0) ||| UInt8.ofNat len.val : UInt8) &&& 0x80 != 0) = maskBit ∧
      ((if maskBit then 0x80 else 0) ||| UInt8.ofNat len.val : UInt8) &&& 0x7f = UInt8.ofNat len.val := by
  revert maskBit len
  decide

/-- The length is read back from the bytes after the first. -/
theorem readLength_reads {maskBit : Bool} {len : Nat} (hlen : len < 2 ^ 63) :
    ∃ b1 ext, lengthBytes (if maskBit then 0x80 else 0) len = b1 :: ext ∧ (b1 &&& 0x80 != 0) = maskBit ∧
      ∀ (r : Reader) rest, r.unread = ext ++ rest → ∃ r', readLength (b1 &&& 0x7f) r = (.ok len, r') ∧ r.Leaves r' rest := by
  unfold lengthBytes
  by_cases h1 : len < 126
  · obtain ⟨hmask, hmark⟩ := lengthMarker maskBit ⟨len, by omega⟩
    refine ⟨_, [], if_pos h1, hmask, fun r rest hr => ⟨r, ?_, hr, rfl⟩⟩
    have hval : (UInt8.ofNat len).toNat = len := by
      rw [UInt8.toNat_ofNat']
      omega
    have hne : ∀ n : UInt8, 126 ≤ n.toNat → UInt8.ofNat len ≠ n := by
      rintro n hn rfl
      omega
    rw [hmark, readLength, if_neg (hne 126 (by decide)), if_neg (hne 127 (by decide)), hval]
    rfl
  by_cases h2 : len ≤ 0xFFFF
  · obtain ⟨hmask, hmark⟩ : (((if maskBit then 0x80 else 0) ||| 126 : UInt8) &&& 0x80 != 0) = maskBit ∧
        ((if maskBit then 0x80 else 0) ||| 126 : UInt8) &&& 0x7f = 126 := lengthMarker maskBit 126
    refine ⟨_, beBytes 2 len, by rw [if_neg h1, if_pos h2], hmask, fun r rest hr => ?_⟩
    obtain ⟨r', hread, hleaves⟩ := readExact_reads hr
    rw [length_beBytes] at hread
    refine ⟨r', ?_, hleaves⟩
    have hval : ofBeBytes (beBytes 2 len) = len := ofBeBytes_beBytes (by omega)
    rw [hmark, readLength, if_pos rfl, bind_of_ok hread, hval]
    rfl
  · obtain ⟨hmask, hmark⟩ : (((if maskBit then 0x80 else 0) ||| 127 : UInt8) &&& 0x80 != 0) = maskBit ∧
        ((if maskBit then 0x80 else 0) ||| 127 : UInt8) &&& 0x7f = 127 := lengthMarker maskBit 127
    refine ⟨_, beBytes 8 len, by rw [if_neg h1, if_neg h2], hmask, fun r rest hr => ?_⟩
    obtain ⟨r', hread, hleaves⟩ := readExact_reads hr
    rw [length_beBytes] at hread
    refine ⟨r', ?_, hleaves⟩
    have hval : ofBeBytes (beBytes 8 len) = len := ofBeBytes_beBytes (by omega)
    rw [hmark, readLength, if_neg (by decide), if_pos rfl, bind_of_ok hread, hval, if_neg (by omega)]
    rfl

/-- A payload as it is sent: after its key, if there is one. -/
def sealedPayload (key : Option MaskKey) (payload : Bytes) : Bytes :=
  match key with
  | some key => key.bytes ++ applyMask payload key
  | none => payload

theorem WireFrame.bytes_eq (f : WireFrame) : f.bytes =
    f.firstByte :: lengthBytes (if f.key.isSome then 0x80 else 0) f.payload.length ++ sealedPayload f.key f.payload := by
  rw [WireFrame.bytes, lengthOctets_eq]
  rcases f.key with _ | key
  · rfl
  · simp only [maskOctets_eq, sealedPayload]

theorem readPayload_reads {key : Option MaskKey} {payload rest : Bytes} (hr : r.unread = sealedPayload key payload ++ rest) :
    ∃ r', readPayload key.isSome payload.length r = (.ok payload, r') ∧ r.Leaves r' rest := by
  rcases key with _ | key
  · exact readExact_reads hr
  · simp only [sealedPayload, append_assoc] at hr
    obtain ⟨r1, hkey, hr1, hmax1⟩ := readExact_reads hr
    obtain ⟨r2, hpay, hr2, hmax2⟩ := readExact_reads hr1
    rw [length_applyMask] at hpay
    have hkey' : readExact 4 r = (.ok key.bytes, r1) := hkey
    refine ⟨r2, ?_, hr2, hmax2.trans hmax1⟩
    rw [readPayload, Option.isSome_some, if_pos rfl, bind_of_ok hkey', bind_of_ok hpay, maskKeyOf_bytes,
      applyMask_applyMask]
    rfl

/-- A frame is read as it was sent, if its opcode is known and it is not too large; otherwise the read fails, for the size before the
payload is read. -/
theorem readFrame_reads {f : WireFrame} {rest : Bytes} (hr : r.unread = f.bytes ++ rest) :
    (∃ op r', f.opcode = some op ∧ exceeds r.maxFrameSize f.payload.length = false ∧
        readFrame r = (.ok ⟨f.fin, op, f.payload⟩, r') ∧ r.Leaves r' rest) ∨
      ((f.opcode = none ∨ exceeds r.maxFrameSize f.payload.length = true) ∧ ∃ e r', readFrame r = (.error e, r') ∧
        (f.opcode ≠ none → r'.unread = sealedPayload f.key f.payload ++ rest)) := by
  obtain ⟨b1, ext, hbytes, hmask, hlength⟩ := @readLength_reads f.key.isSome _ f.fits
  rw [f.bytes_eq, hbytes] at hr
  simp only [append_assoc] at hr
  have hr' : r.unread = [f.firstByte, b1] ++ (ext ++ (sealedPayload f.key f.payload ++ rest)) := hr
  obtain ⟨r1, hhdr, hr1, hmax1⟩ := readExact_reads hr'
  have hhdr' : readExact 2 r = (.ok [f.firstByte, b1], r1) := hhdr
  obtain ⟨r2, hlen, hr2, hmax2⟩ := hlength r1 _ hr1
  obtain ⟨r3, hpay, hr3, hmax3⟩ := readPayload_reads hr2
  have hhead : Frame.parseHeader ([f.firstByte, b1].getD 0 0) ([f.firstByte, b1].getD 1 0) =
      f.opcode.map (fun op => (f.fin, op, f.key.isSome, b1 &&& 0x7f)) := by
    rw [← hmask]
    exact parseHeader_first f b1
  rw [readFrame, bind_of_ok hhdr']
  rcases hop : f.opcode with _ | op
  · refine .inr ⟨.inl rfl, .error .invalidData, r1, ?_, fun h => absurd rfl h⟩
    rw [hop] at hhead
    simp only [hhead]
    rfl
  · rw [hop] at hhead
    simp only [hhead, Option.map_some]
    rw [bind_of_ok hlen, bind_of_ok (get_apply r2), hmax2, hmax1]
    rcases hx : exceeds r.maxFrameSize f.payload.length with _ | _
    · rw [if_neg Bool.false_ne_true, bind_of_ok hpay]
      exact .inl ⟨op, r3, rfl, rfl, rfl, hr3, hmax3.trans (hmax2.trans hmax1)⟩
    · exact .inr ⟨.inr rfl, .error .invalidData, r2, rfl, fun _ => hr2⟩

end Ferroly.Ws
