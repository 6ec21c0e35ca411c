import TweakTool.Wire.Rpmsg

/-! # Delivery on a reliable link

When the transport loses nothing, the receiver's calls give back the sender's messages. The two
ends share no state; what keeps them together is that the receiver has either seen no chunk yet
or holds the id of the last chunk sent (`Synced`). This survives every chunk, also where the
running id wraps around: both ends step it with `inc_global_id`, which never yields the 0 that
stands for "no chunk yet". -/

namespace TweakTool.Wire.Rpmsg

open TweakTool.Lib

theorem incGlobalId_ne_zero (id : UInt32) : incGlobalId id ≠ 0 := by
  unfold incGlobalId
  by_cases h : id + 1 ≠ 0
  · rw [if_pos h]
    exact h
  · rw [if_neg h]
    rw [not_not] at h
    rw [h]
    decide

/-- The receiver follows the sender's running id. -/
def Synced (s r : Connection) : Prop := r.recvMsgId = 0 ∨ r.recvMsgId = s.sendMsgId

/-! ## One chunk -/

/-- The size of the payload of chunk `i`. -/
def payloadSize (message : Bytes) (i : Nat) : Nat :=
  min message.length ((i + 1) * maxChunkPayloadSize) - i * maxChunkPayloadSize

/-- The datagram is chunk `i` of `nChunks` of the message, with the running id `id`. -/
structure IsChunk (d message : Bytes) (nChunks i : Nat) (id : UInt32) : Prop where
  length : d.length = payloadOffset + payloadSize message i
  magic : slice d magicOffset 4 = leBytes 4 Rpmsg.magic
  chunkNumber : slice d chunkNumberOffset 2 = leBytes 2 (i + 1)
  chunkCount : slice d chunkCountOffset 2 = leBytes 2 nChunks
  msgId : slice d cntOffset 4 = leBytes 4 id.toNat
  payload : slice d payloadOffset (payloadSize message i) =
    slice message (i * maxChunkPayloadSize) (payloadSize message i)

/-- The chunks of a message: `nChunks` is their number, and it is small enough to be sent. -/
structure Chunked (message : Bytes) (nChunks : Nat) : Prop where
  few : nChunks < uint16Max
  enough : message.length ≤ nChunks * maxChunkPayloadSize
  needed : (nChunks - 1) * maxChunkPayloadSize < message.length

private theorem maxChunkPayloadSize_eq : maxChunkPayloadSize = 244 := rfl

theorem payloadSize_le (message : Bytes) (i : Nat) : payloadSize message i ≤ maxChunkPayloadSize := by
  rw [payloadSize, Nat.succ_mul]
  omega

variable {message : Bytes} {nChunks i : Nat}

/-- The payload of a chunk lies inside the message. -/
theorem Chunked.start_lt (h : Chunked message nChunks) (hi : i < nChunks) :
    i * maxChunkPayloadSize + payloadSize message i ≤ message.length ∧
      i * maxChunkPayloadSize < message.length := by
  have hneeded := h.needed
  rw [maxChunkPayloadSize_eq] at *
  rw [payloadSize, maxChunkPayloadSize_eq]
  omega

/-- The bounds of a chunk fit the 32-bit variables that hold them. -/
theorem Chunked.bounds (h : Chunked message nChunks) (hi : i < nChunks) :
    u32 (i * maxChunkPayloadSize) = i * maxChunkPayloadSize ∧
    u32 (u32 (min message.length (u32 ((i + 1) * maxChunkPayloadSize))) + 2 ^ 32 -
      i * maxChunkPayloadSize) = payloadSize message i ∧
    u16 (payloadOffset + payloadSize message i) = payloadOffset + payloadSize message i := by
  have hfew := h.few
  have hneeded := h.needed
  rw [payloadSize]
  rw [maxChunkPayloadSize_eq] at *
  simp only [u32, u16, uint16Max, payloadOffset] at *
  omega

/-- What `send_partitioned` hands to the transport is the chunk. -/
theorem fillChunk_isChunk {c : Connection} (h : Chunked message nChunks) (hi : i < nChunks) :
    IsChunk (fillChunk c message nChunks i).2 message nChunks i (incGlobalId c.sendMsgId) := by
  obtain ⟨hstart, hsize, hlen⟩ := h.bounds hi
  have hslice := length_slice (h.start_lt hi).1
  have hmax := payloadSize_le message i
  rw [maxChunkPayloadSize_eq] at hmax
  have hbuff : c.sendBuff.val.length = 512 := c.sendBuff.property
  simp only [fillChunk, hstart, hsize, hlen, Block.val_write]
  simp only [payloadOffset, magicOffset, cntOffset, chunkNumberOffset, chunkCountOffset]
  -- a field is read back through the writes that came after its own
  constructor <;>
    simp only [payloadOffset, magicOffset, cntOffset, chunkNumberOffset, chunkCountOffset]
  case length =>
      rw [List.length_take]
      simp only [length_blit]
      omega
  case magic =>
      rw [slice_take, slice_blit_of_le, slice_blit_of_le, slice_blit_self]
      all_goals grind [length_blit, length_leBytes]
  case chunkNumber =>
      rw [slice_take, slice_blit_of_le, slice_blit_of_le, slice_blit_of_ge, slice_blit_of_le,
        slice_blit_self]
      all_goals grind [length_blit, length_leBytes]
  case chunkCount =>
      rw [slice_take, slice_blit_of_le, slice_blit_of_le, slice_blit_of_ge, slice_blit_self]
      all_goals grind [length_blit, length_leBytes]
  case msgId =>
      rw [slice_take, slice_blit_of_le, slice_blit_self]
      all_goals grind [length_blit, length_leBytes]
  case payload =>
      rw [slice_take, slice_blit_self]
      all_goals grind [length_blit]

variable {len : Nat}

/-- The first `i` chunks of the message are in place. -/
structure Assembled (p : Partial len) (message : Bytes) (i : Nat) : Prop where
  nPrevChunk : p.nPrevChunk = i
  bytesReceived : p.bytesReceived = min message.length (i * maxChunkPayloadSize)
  buffer : p.buffer.val.take p.bytesReceived = message.take p.bytesReceived

variable {d : Bytes}

/-- What the receiver reads out of its buffer after a chunk has arrived. -/
theorem IsChunk.fields {id : UInt32} (hd : IsChunk d message nChunks i id)
    (hfew : nChunks < uint16Max) (hi : i < nChunks) (recvBuff : Block maxMessageSize) :
    let b := (recvBuff.write 0 (d.take maxMessageSize)).val
    leNat (slice b magicOffset 4) = Rpmsg.magic ∧
    leNat (slice b chunkNumberOffset 2) = i + 1 ∧
    leNat (slice b chunkCountOffset 2) = nChunks ∧
    UInt32.ofNat (leNat (slice b cntOffset 4)) = id ∧
    slice b payloadOffset (payloadSize message i) =
      slice message (i * maxChunkPayloadSize) (payloadSize message i) := by
  have hlength := hd.length
  have hsize := payloadSize_le message i
  have hbuff : recvBuff.val.length = 512 := recvBuff.property
  rw [maxChunkPayloadSize_eq] at hsize
  rw [uint16Max] at hfew
  rw [payloadOffset] at hlength
  have hall : d.take maxMessageSize = d := List.take_of_length_le (by rw [maxMessageSize]; omega)
  have hread : ∀ offset n, offset + n ≤ d.length →
      slice (blit recvBuff.val 0 d) offset n = slice d offset n :=
    fun offset n h => slice_blit_zero (by omega) h
  rw [hall, Block.val_write]
  refine ⟨?_, ?_, ?_, ?_, ?_⟩
  · rw [hread _ _ (by rw [magicOffset]; omega), hd.magic]
    exact leNat_leBytes (by decide)
  · rw [hread _ _ (by rw [chunkNumberOffset]; omega), hd.chunkNumber]
    exact leNat_leBytes (by omega)
  · rw [hread _ _ (by rw [chunkCountOffset]; omega), hd.chunkCount]
    exact leNat_leBytes (by omega)
  · rw [hread _ _ (by rw [cntOffset]; omega), hd.msgId, leNat_leBytes id.toNat_lt]
    exact UInt32.ofNat_toNat
  · rw [hread _ _ (by rw [payloadOffset]; omega), hd.payload]

/-- The receiver takes chunk `i` of the message: it expects the id and the number, and has room for
the payload. -/
def Takes (r : Connection) (p : Partial len) (message : Bytes) (i : Nat) (id : UInt32) : Prop :=
  (r.recvMsgId = 0 ∨ incGlobalId r.recvMsgId = id) ∧ p.nPrevChunk = i ∧
    i * maxChunkPayloadSize + payloadSize message i ≤ len

instance (r : Connection) (p : Partial len) (message : Bytes) (i : Nat) (id : UInt32) :
    Decidable (Takes r p message i id) := inferInstanceAs (Decidable (_ ∧ _ ∧ _))

variable {r : Connection} {p : Partial len}

/-- What the receiver does with a chunk. It follows the id of the chunk in any case. -/
theorem receiveChunk_eq {id : UInt32} (hd : IsChunk d message nChunks i id)
    (h : Chunked message nChunks) (hi : i < nChunks)
    (hp : r.recvMsgId = 0 ∨ incGlobalId r.recvMsgId = id → p.nPrevChunk = i → Assembled p message i) :
    ∃ r' p', r'.recvMsgId = id ∧ (Takes r p message i id → Assembled p' message (i + 1)) ∧
      receiveChunk r p d = (r',
        if Takes r p message i id then if i + 1 = nChunks then .last p' else .more p'
        else .fail) := by
  obtain ⟨hmagic, hnumber, hcount, hid, hpayload⟩ := hd.fields h.few hi r.recvBuff
  obtain ⟨hin, hstart⟩ := h.start_lt hi
  have hsize := payloadSize_le message i
  have hlength := hd.length
  have hfew := h.few
  -- the receiver's numbers, none of which is cut by its type
  have hcps : u16 (min d.length maxMessageSize + 2 ^ 16 - payloadOffset) = payloadSize message i := by
    rw [maxChunkPayloadSize_eq] at hsize
    rw [hlength, u16, maxMessageSize, payloadOffset]
    omega
  have hprev : u32 (i + 1 + 2 ^ 32 - 1) = i := by
    rw [u32]
    rw [uint16Max] at hfew
    omega
  have hmsgId : (if r.recvMsgId = 0 then id else incGlobalId r.recvMsgId) = id ↔
      (r.recvMsgId = 0 ∨ incGlobalId r.recvMsgId = id) := by
    by_cases hzero : r.recvMsgId = 0
    · simp only [hzero, if_true, true_or]
    · simp only [hzero, if_false, false_or]
  let payload := slice message (i * maxChunkPayloadSize) (payloadSize message i)
  have hpl : payload.length = payloadSize message i := length_slice hin
  refine ⟨{ r with recvBuff := r.recvBuff.write 0 (d.take maxMessageSize), recvMsgId := id },
    ⟨p.buffer.write (i * maxChunkPayloadSize) payload,
      i * maxChunkPayloadSize + payloadSize message i, i + 1⟩, rfl, ?_, ?_⟩
  · rintro ⟨hexpected, hnumbered, hroom⟩
    have hreceived : p.bytesReceived = i * maxChunkPayloadSize := by
      rw [(hp hexpected hnumbered).bytesReceived]
      omega
    refine ⟨rfl, ?_, ?_⟩
    · show i * maxChunkPayloadSize + payloadSize message i = _
      rw [payloadSize, Nat.succ_mul]
      omega
    · show (blit p.buffer.val (i * maxChunkPayloadSize) payload).take
        (i * maxChunkPayloadSize + payloadSize message i) = _
      have hbuffer := (hp hexpected hnumbered).buffer
      rw [hreceived] at hbuffer
      rw [← hpl, take_blit (by rw [Block.length_val]; omega), hbuffer, hpl, List.take_add]
      rfl
  · simp only [receiveChunk, Takes, hcps, hmagic, hnumber, hcount, hid, hpayload, hprev, ne_eq,
      not_true_eq_false, if_false]
    by_cases hexpected : r.recvMsgId = 0 ∨ incGlobalId r.recvMsgId = id
    · rw [hmsgId.mpr hexpected]
      by_cases hnumbered : p.nPrevChunk = i
      · have hreceived : p.bytesReceived = i * maxChunkPayloadSize := by
          rw [(hp hexpected hnumbered).bytesReceived]
          omega
        have hsum : u32 (i * maxChunkPayloadSize + payloadSize message i) =
            i * maxChunkPayloadSize + payloadSize message i := by
          rw [u32]
          rw [maxChunkPayloadSize_eq] at *
          rw [uint16Max] at hfew
          omega
        simp only [hexpected, hnumbered, hreceived, hsum, not_true_eq_false, if_false, true_and,
          ← Nat.not_lt]
        by_cases hroom : len < i * maxChunkPayloadSize + payloadSize message i
        · simp only [hroom, not_true_eq_false, if_true, if_false]
        · simp only [hroom, not_false_eq_true, if_true, if_false]
          rfl
      · simp only [hnumbered, not_true_eq_false, not_false_eq_true, false_and, and_false, if_true,
          if_false]
    · have hother := mt hmsgId.mp hexpected
      simp only [hother, hexpected, not_false_eq_true, false_and, if_true, if_false]

/-- The receiver's side of a chunk it is waiting for. -/
theorem receiveChunk_isChunk {s : Connection}
    (hd : IsChunk d message nChunks i (incGlobalId s.sendMsgId)) (h : Chunked message nChunks)
    (hi : i < nChunks) (hfits : message.length ≤ len) (hsync : Synced s r)
    (hp : Assembled p message i) :
    ∃ r' p', receiveChunk r p d = (r', if i + 1 = nChunks then .last p' else .more p') ∧
      r'.recvMsgId = incGlobalId s.sendMsgId ∧ Assembled p' message (i + 1) := by
  obtain ⟨r', p', hid, hassembled, hreceive⟩ := receiveChunk_eq (r := r) hd h hi (fun _ _ => hp)
  have htakes : Takes r p message i (incGlobalId s.sendMsgId) :=
    ⟨hsync.imp_right (congrArg incGlobalId), hp.nPrevChunk, Nat.le_trans (h.start_lt hi).1 hfits⟩
  rw [if_pos htakes] at hreceive
  exact ⟨r', p', hreceive, hid, hassembled htakes⟩

/-- Once the last chunk is in place, the buffer holds the message. -/
theorem Assembled.message_eq (hp : Assembled p message nChunks) (h : Chunked message nChunks) :
    p.buffer.val.take p.bytesReceived = message := by
  have henough := h.enough
  have hall : p.bytesReceived = message.length := by
    rw [hp.bytesReceived]
    omega
  rw [hp.buffer, hall, List.take_length]

/-! ## One message -/

/-- A transport that accepts everything. -/
def reliable : Nat → ErrorCode := fun _ => .success

/-- The connection after chunk `i` went out. -/
def afterChunk (c : Connection) (message : Bytes) (nChunks i : Nat) : Connection :=
  { (fillChunk c message nChunks i).1 with sendMsgId := incGlobalId c.sendMsgId }

theorem sendLoop_reliable_succ (message : Bytes) (nChunks todo i : Nat) (c : Connection) :
    sendLoop reliable message nChunks (todo + 1) i c =
      let result := sendLoop reliable message nChunks todo (i + 1) (afterChunk c message nChunks i)
      (result.1, (fillChunk c message nChunks i).2 :: result.2.1, result.2.2) := rfl

/-- From any chunk of the message on, the receiver completes the message with the chunks the
sender still sends, and does not touch what follows them. -/
theorem receiveLoop_sendLoop (h : Chunked message nChunks) (hfits : message.length ≤ len) :
    ∀ (todo i : Nat) (s r : Connection) (p : Partial len), i + (todo + 1) = nChunks →
      Synced s r → Assembled p message i →
      (sendLoop reliable message nChunks (todo + 1) i s).1 = .success ∧
      ∃ r' buffer, Synced (sendLoop reliable message nChunks (todo + 1) i s).2.2 r' ∧
        ∀ rest, receiveLoop r p
          ((sendLoop reliable message nChunks (todo + 1) i s).2.1.map .datagram ++ rest) =
            some ⟨.success, message, r', buffer, rest⟩ := by
  intro todo
  induction todo with
  | zero => -- the last chunk
    intro i s r p htodo hsync hp
    have hd : IsChunk _ message nChunks i _ := fillChunk_isChunk (c := s) h (by omega)
    obtain ⟨r', p', hreceive, hid, hp'⟩ :=
      receiveChunk_isChunk hd h (by omega) hfits hsync hp
    rw [if_pos (by omega)] at hreceive
    have hmessage : p'.buffer.val.take p'.bytesReceived = message := by
      rw [← htodo] at h
      exact hp'.message_eq h
    rw [sendLoop_reliable_succ]
    simp only [sendLoop, List.map_cons, List.map_nil, List.cons_append, List.nil_append]
    refine ⟨trivial, r', p'.buffer, .inr hid, fun rest => ?_⟩
    rw [receiveLoop, hreceive]
    simp only [hmessage]
  | succ todo ih =>
    intro i s r p htodo hsync hp
    have hd : IsChunk _ message nChunks i _ := fillChunk_isChunk (c := s) h (by omega)
    obtain ⟨r', p', hreceive, hid, hp'⟩ :=
      receiveChunk_isChunk hd h (by omega) hfits hsync hp
    rw [if_neg (by omega)] at hreceive
    obtain ⟨hcode, r'', buffer, hsync', hrest⟩ :=
      ih (i + 1) (afterChunk s message nChunks i) r' p' (by omega) (.inr hid) hp'
    rw [sendLoop_reliable_succ]
    simp only [List.map_cons, List.cons_append]
    refine ⟨hcode, r'', buffer, hsync', fun rest => ?_⟩
    rw [receiveLoop, hreceive]
    exact hrest rest

/-- A message that needs few enough chunks is cut into as many as are needed. -/
theorem chunked_of_few (hpos : 1 ≤ message.length) (hmax : message.length < 2 ^ 32)
    (hfew : chunkCount message.length < uint16Max) :
    Chunked message (chunkCount message.length) ∧ 0 < chunkCount message.length := by
  have hcount : chunkCount message.length = (message.length + 243) / 244 := by
    rw [chunkCount, u32, maxChunkPayloadSize_eq]
    omega
  rw [hcount] at hfew ⊢
  refine ⟨⟨hfew, ?_, ?_⟩, ?_⟩
  · rw [maxChunkPayloadSize_eq]
    omega
  · rw [maxChunkPayloadSize_eq]
    omega
  · omega

/-- A message of a permitted size has chunks to be sent. -/
theorem chunked_chunkCount (hpos : 1 ≤ message.length) (hmax : message.length ≤ maxPacketSize) :
    Chunked message (chunkCount message.length) ∧ 0 < chunkCount message.length := by
  rw [maxPacketSize] at hmax
  refine chunked_of_few hpos (by omega) ?_
  rw [chunkCount, u32, maxChunkPayloadSize_eq, uint16Max]
  omega

/-- A message sent by one call of `send_partitioned` is what the next call of
`receive_partitioned` returns. -/
theorem receivePartitioned_sendPartitioned {s : Connection} (hpos : 1 ≤ message.length)
    (hmax : message.length ≤ maxPacketSize) (hsync : Synced s r) (buffer : Block maxPacketSize) :
    (sendPartitioned reliable s message).1 = .success ∧
    ∃ r' buffer', Synced (sendPartitioned reliable s message).2.2 r' ∧
      ∀ rest, receivePartitioned r buffer
        ((sendPartitioned reliable s message).2.1.map .datagram ++ rest) =
          some ⟨.success, message, r', buffer', rest⟩ := by
  obtain ⟨hchunked, hcount⟩ := chunked_chunkCount hpos hmax
  have hfew := hchunked.few
  have hsend : sendPartitioned reliable s message =
      sendLoop reliable message (chunkCount message.length) (chunkCount message.length) 0 s := by
    rw [sendPartitioned, if_neg (by omega)]
  obtain ⟨todo, htodo⟩ := Nat.exists_eq_add_one_of_ne_zero (Nat.ne_of_gt hcount)
  have hstart : Assembled (⟨buffer, 0, 0⟩ : Partial maxPacketSize) message 0 := ⟨rfl, by simp, rfl⟩
  have hloop := receiveLoop_sendLoop hchunked hmax todo 0 s r ⟨buffer, 0, 0⟩ (by omega) hsync hstart
  rw [hsend]
  rw [← htodo] at hloop
  exact hloop

/-! ## All messages -/

theorem sendAll_cons (c : Connection) (transport : Nat → ErrorCode) (message : Bytes)
    (messages : List ((Nat → ErrorCode) × Bytes)) :
    sendAll c ((transport, message) :: messages) =
      let first := sendPartitioned transport c message
      let later := sendAll first.2.2 messages
      (first.1 :: later.1, first.2.1 ++ later.2.1, later.2.2) := rfl

/-- Both ends of a reliable link, from any state in which the receiver follows the sender. -/
theorem receiveAll_sendAll {messages : List Bytes}
    (hlen : ∀ m ∈ messages, 1 ≤ m.length ∧ m.length ≤ maxPacketSize) :
    ∀ (s r : Connection) (buffer : Block maxPacketSize), Synced s r →
      (sendAll s (messages.map fun m => (reliable, m))).1 = messages.map (fun _ => .success) ∧
      receiveAll r buffer messages.length
          ((sendAll s (messages.map fun m => (reliable, m))).2.1.map .datagram) =
        some (messages.map fun m => (.success, m), []) := by
  induction messages with
  | nil =>
    intro s r buffer hsync
    exact ⟨rfl, rfl⟩
  | cons m messages ih =>
    intro s r buffer hsync
    obtain ⟨hpos, hmax⟩ := hlen m (List.mem_cons_self ..)
    obtain ⟨hcode, r', buffer', hsync', hreceive⟩ :=
      receivePartitioned_sendPartitioned hpos hmax hsync buffer
    obtain ⟨hcodes, hall⟩ :=
      ih (fun m hm => hlen m (List.mem_cons_of_mem _ hm)) _ r' buffer' hsync'
    rw [List.map_cons, sendAll_cons]
    constructor
    · simp only [hcode, hcodes, List.map_cons]
    · simp only [List.map_append, List.length_cons, receiveAll, hreceive, hall, Option.map_some,
        List.map_cons]

/-- **Everything is delivered**: the messages of successive `send_partitioned` calls, all of which
succeed, come out of as many `receive_partitioned` calls, in order and byte for byte, and nothing
is left over. The receiver is new; the sender may be, and may as well stand shortly before the
point where the running id wraps around. -/
theorem receivePartitioned_delivers (s r : Connection) (buffer : Block maxPacketSize)
    (messages : List Bytes) (hr : r.recvMsgId = 0)
    (hlen : ∀ m ∈ messages, 1 ≤ m.length ∧ m.length ≤ maxPacketSize) :
    (sendAll s (messages.map fun m => (reliable, m))).1 = messages.map (fun _ => .success) ∧
    receiveAll r buffer messages.length
        ((sendAll s (messages.map fun m => (reliable, m))).2.1.map .datagram) =
      some (messages.map fun m => (.success, m), []) :=
  receiveAll_sendAll hlen s r buffer (.inl hr)

/-- A connection with the given running id of the sender that has received nothing. -/
def connectionAt (sendMsgId : UInt32) : Connection where
  sendMsgId := sendMsgId
  recvMsgId := 0
  sendBuff := .zero maxMessageSize
  recvBuff := .zero maxMessageSize

/-- Two messages, the second of which is sent under the id after the wrap-around. -/
theorem receivePartitioned_delivers_wrap :
    (sendAll (connectionAt 0xFFFFFFFE) [(reliable, [7]), (reliable, [8, 9])]).2.2.sendMsgId = 1 ∧
    receiveAll (connectionAt 0) (.zero maxPacketSize) 2
        ((sendAll (connectionAt 0xFFFFFFFE)
          [(reliable, [7]), (reliable, [8, 9])]).2.1.map .datagram) =
      some ([(.success, [7]), (.success, [8, 9])], []) :=
  ⟨by decide, (receivePartitioned_delivers (connectionAt 0xFFFFFFFE) (connectionAt 0)
    (.zero maxPacketSize) [[7], [8, 9]] rfl (by decide)).2⟩

end TweakTool.Wire.Rpmsg
