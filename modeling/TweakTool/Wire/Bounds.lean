import TweakTool.Wire.Resync

/-! # What the receiver touches

`receive_partitioned` looks at the header in its receive buffer without asking how much of it the
transport has filled, and computes the size of the payload in 16 bits. So what is left of earlier
datagrams can be taken for the header of a short one, and its payload is then some 65 thousand bytes
long. Here every turn of the loop is modelled with the bytes it uses. -/

namespace TweakTool.Wire.Rpmsg

open TweakTool.Lib

variable {len : Nat}

/-! ## Turns -/

/-- A `memcpy` from the receive buffer to the message buffer. -/
structure Copy where
  source : Nat
  target : Nat
  size : Nat
  deriving DecidableEq

structure Turn where
  recvMsgId : UInt32 -- `recv_msg_id` of the connection before the turn
  datagram : Bytes
  fields : List (Nat × Nat) -- offset and size of the header fields that the turn uses
  copied : Option Copy
  /-- The length of the message, if the call returns one, and the sizes of the datagrams used. -/
  returned : Option (Nat × List Nat)
  deriving DecidableEq

/-- The receive buffer when the datagram is there. -/
def filled (c : Connection) (d : Bytes) : Bytes := (c.recvBuff.write 0 (d.take maxMessageSize)).val

/-- `chunk_payload_size`. -/
def chunkPayload (d : Bytes) : Nat := u16 (min d.length maxMessageSize + 2 ^ 16 - payloadOffset)

/-- `recv_msg_id` as the header has it. -/
def headerId (c : Connection) (d : Bytes) : UInt32 :=
  UInt32.ofNat (leNat (slice (filled c d) cntOffset 4))

/-- `recv_msg_id` of the connection in the turn. -/
def expectedId (c : Connection) (d : Bytes) : UInt32 :=
  if c.recvMsgId = 0 then headerId c d else incGlobalId c.recvMsgId

/-- `n_chunk` of the turn. -/
def headerChunk (c : Connection) (d : Bytes) : Nat := leNat (slice (filled c d) chunkNumberOffset 2)

/-- The fields that decide what the turn does. An id is used if there is none yet, and is compared
if the magic number is right; the number is compared if the id is right, and the count if there is
another chunk to be put in place. -/
def usedFields (c : Connection) (p : Partial len) (d : Bytes) : List (Nat × Nat) :=
  if leNat (slice (filled c d) magicOffset 4) ≠ magic then
    (magicOffset, 4) :: if c.recvMsgId = 0 then [(cntOffset, 4)] else []
  else
    [(magicOffset, 4), (cntOffset, 4)] ++
      if expectedId c d ≠ headerId c d then []
      else (chunkNumberOffset, 2) ::
        if p.nPrevChunk ≠ u32 (headerChunk c d + 2 ^ 32 - 1) ∨
          len < u32 (p.bytesReceived + chunkPayload d) then []
        else [(chunkCountOffset, 2)]

/-- The turn with a datagram, in a call that has used datagrams of the sizes `used` so far. -/
def turn (c : Connection) (p : Partial len) (used : List Nat) (d : Bytes) : Turn where
  recvMsgId := c.recvMsgId
  datagram := d
  fields := usedFields c p d
  copied := match receiveChunk c p d with
    | (_, .fail) => none
    | (_, .more _) | (_, .last _) => some ⟨payloadOffset, p.bytesReceived, chunkPayload d⟩
  returned := match receiveChunk c p d with
    | (_, .last p) => some (p.bytesReceived, used ++ [d.length])
    | _ => none

/-- The turns of a call under way and of those after it. -/
def turns (c : Connection) (p : Partial len) (used : List Nat) : List Bytes → List Turn
  | [] => []
  | d :: datagrams =>
    turn c p used d :: match receiveChunk c p d with
      | (c, .fail) => turns c ⟨p.buffer, 0, 0⟩ [] datagrams
      | (c, .more p) => turns c p (used ++ [d.length]) datagrams
      | (c, .last p) => turns c ⟨p.buffer, 0, 0⟩ [] datagrams

namespace Turn

/-- The turn uses what the transport has delivered and nothing else, stays inside the message
buffer of `len` bytes, and returns the number of bytes that were put there. -/
structure Safe (len : Nat) (t : Turn) : Prop where
  fields : ∀ field ∈ t.fields, field.1 + field.2 ≤ t.datagram.length
  source : ∀ copy, t.copied = some copy → copy.source + copy.size ≤ t.datagram.length
  target : ∀ copy, t.copied = some copy → copy.target + copy.size ≤ len
  returned : ∀ n used, t.returned = some (n, used) → n = (used.map (· - payloadOffset)).sum

/-- The datagram has a header, or it has a wrong magic number and nothing more is asked of it. -/
def Contained (t : Turn) : Prop :=
  payloadOffset ≤ t.datagram.length ∨
    4 ≤ t.datagram.length ∧ leNat (slice t.datagram magicOffset 4) ≠ magic ∧ t.recvMsgId ≠ 0

instance (t : Turn) : Decidable t.Contained := inferInstanceAs (Decidable (_ ∨ _ ∧ _ ∧ _))

end Turn

/-! ## One turn -/

section Turn

variable {c c' : Connection} {p p' : Partial len} {used : List Nat} {d : Bytes}

/-- What the transport has delivered is what stands at the start of the buffer. -/
theorem slice_filled (hd : d.length ≤ maxMessageSize) {offset n : Nat} (h : offset + n ≤ d.length) :
    slice (filled c d) offset n = slice d offset n := by
  have hbuff : c.recvBuff.val.length = 512 := c.recvBuff.property
  rw [filled, Block.val_write, List.take_of_length_le hd]
  exact slice_blit_zero (by rw [hbuff]; exact hd) h

/-- The turn in terms of what it reads. -/
theorem receiveChunk_view (c : Connection) (p : Partial len) (d : Bytes) :
    receiveChunk c p d =
      let c' := { c with
        recvBuff := c.recvBuff.write 0 (d.take maxMessageSize), recvMsgId := expectedId c d }
      if leNat (slice (filled c d) magicOffset 4) ≠ magic then (c', .fail)
      else if expectedId c d ≠ headerId c d then ({ c' with recvMsgId := headerId c d }, .fail)
      else if p.nPrevChunk ≠ u32 (headerChunk c d + 2 ^ 32 - 1) then (c', .fail)
      else if len < u32 (p.bytesReceived + chunkPayload d) then (c', .fail)
      else
        let p' : Partial len :=
          ⟨p.buffer.write p.bytesReceived (slice (filled c d) payloadOffset (chunkPayload d)),
            u32 (p.bytesReceived + chunkPayload d), headerChunk c d⟩
        (c', if headerChunk c d = leNat (slice (filled c d) chunkCountOffset 2) then .last p'
          else .more p') := rfl

/-- A chunk is taken only with the right magic number and if there is room for its payload. -/
theorem receiveChunk_taken (h : receiveChunk c p d = (c', .more p') ∨
    receiveChunk c p d = (c', .last p')) :
    leNat (slice (filled c d) magicOffset 4) = magic ∧
      u32 (p.bytesReceived + chunkPayload d) ≤ len ∧
      p'.bytesReceived = u32 (p.bytesReceived + chunkPayload d) := by
  rw [receiveChunk_view] at h
  dsimp only at h
  split at h
  · simp at h
  · next hmagic =>
    split at h
    · simp at h
    · split at h
      · simp at h
      · split at h
        · simp at h
        · next hroom =>
          refine ⟨Classical.not_not.mp hmagic, Nat.not_lt.mp hroom, ?_⟩
          split at h
          · simp only [Prod.mk.injEq, reduceCtorEq, and_false, false_or, ChunkResult.last.injEq] at h
            rw [← h.2]
          · simp only [Prod.mk.injEq, reduceCtorEq, and_false, or_false, ChunkResult.more.injEq] at h
            rw [← h.2]

private theorem magic_mem_usedFields : (magicOffset, 4) ∈ usedFields c p d := by
  rw [usedFields]
  split
  · exact List.mem_cons_self
  · exact List.mem_append_left _ List.mem_cons_self

private theorem cnt_mem_usedFields
    (h : leNat (slice (filled c d) magicOffset 4) = magic ∨ c.recvMsgId = 0) :
    (cntOffset, 4) ∈ usedFields c p d := by
  rw [usedFields]
  split
  · next hmagic =>
    rw [if_pos (h.resolve_left hmagic)]
    exact List.mem_cons_of_mem _ List.mem_cons_self
  · exact List.mem_append_left _ (List.mem_cons_of_mem _ List.mem_cons_self)

private theorem le_payloadOffset_of_mem {field : Nat × Nat} (h : field ∈ usedFields c p d) :
    field.1 + field.2 ≤ payloadOffset := by
  have hall : ∀ field ∈ [(magicOffset, 4), (cntOffset, 4), (chunkNumberOffset, 2),
      (chunkCountOffset, 2)], field.1 + field.2 ≤ payloadOffset := by decide
  refine hall field ?_
  rw [usedFields] at h
  split at h
  · split at h <;> grind
  · split at h
    · grind
    · split at h <;> grind

/-- The fields that a turn uses lie in the datagram exactly if it is contained. -/
theorem fields_iff_contained (hd : d.length ≤ maxMessageSize) :
    (∀ field ∈ usedFields c p d, field.1 + field.2 ≤ d.length) ↔ (turn c p used d).Contained := by
  constructor
  · intro h
    by_cases hheader : payloadOffset ≤ d.length
    · exact .inl hheader
    · have hmagic : 4 ≤ d.length := h _ magic_mem_usedFields
      have hcnt := mt (h (cntOffset, 4)) (by simpa [cntOffset, payloadOffset] using hheader)
      have hnot := mt cnt_mem_usedFields hcnt
      rw [not_or, slice_filled hd (by rw [magicOffset]; omega)] at hnot
      exact .inr ⟨hmagic, hnot⟩
  · rintro (hheader | ⟨hmagic, hwrong, hid⟩) field hfield
    · exact Nat.le_trans (le_payloadOffset_of_mem hfield) hheader
    · have hmagic : 4 ≤ d.length := hmagic
      have hwrong : leNat (slice (filled c d) magicOffset 4) ≠ magic := by
        rw [slice_filled hd (by rw [magicOffset]; omega)]
        exact hwrong
      have hid : c.recvMsgId ≠ 0 := hid
      rw [usedFields, if_pos hwrong, if_neg hid] at hfield
      obtain rfl := List.mem_singleton.mp hfield
      exact hmagic

/-- A datagram that is taken and contained has a header. -/
theorem header_of_contained (hd : d.length ≤ maxMessageSize) (h : (turn c p used d).Contained)
    (htaken : receiveChunk c p d = (c', .more p') ∨ receiveChunk c p d = (c', .last p')) :
    payloadOffset ≤ d.length := by
  rcases h with hheader | ⟨hmagic, hwrong, -⟩
  · exact hheader
  · have hmagic : magicOffset + 4 ≤ d.length := hmagic
    have hright := (receiveChunk_taken htaken).1
    rw [slice_filled hd hmagic] at hright
    exact absurd hright hwrong

/-- The payload is what follows the header. -/
theorem chunkPayload_eq (hd : d.length ≤ maxMessageSize) (hheader : payloadOffset ≤ d.length) :
    chunkPayload d = d.length - payloadOffset := by
  rw [chunkPayload, u16]
  rw [maxMessageSize] at *
  rw [payloadOffset] at *
  omega

end Turn

/-! ## All turns -/

/-- The call has put the payloads of the datagrams it used into the buffer. -/
structure Counted (p : Partial len) (used : List Nat) : Prop where
  sum : p.bytesReceived = (used.map (· - payloadOffset)).sum
  inside : p.bytesReceived ≤ len

theorem counted_start (buffer : Block len) : Counted (⟨buffer, 0, 0⟩ : Partial len) [] :=
  ⟨rfl, Nat.zero_le _⟩

section Turns

variable {c c' : Connection} {p p' : Partial maxPacketSize} {used : List Nat} {d : Bytes}

/-- A datagram that is taken adds its payload. -/
theorem Counted.taken (hp : Counted p used) (hd : d.length ≤ maxMessageSize)
    (h : (turn c p used d).Contained)
    (htaken : receiveChunk c p d = (c', .more p') ∨ receiveChunk c p d = (c', .last p')) :
    Counted p' (used ++ [d.length]) ∧ payloadOffset + chunkPayload d ≤ d.length ∧
      p.bytesReceived + chunkPayload d ≤ maxPacketSize := by
  have hheader := header_of_contained hd h htaken
  have hpayload := chunkPayload_eq hd hheader
  obtain ⟨-, hroom, hreceived⟩ := receiveChunk_taken htaken
  have hinside : p.bytesReceived ≤ 262144 := hp.inside
  -- neither the payload nor the buffer comes near the limits of 32 bits
  have hu32 : u32 (p.bytesReceived + chunkPayload d) = p.bytesReceived + chunkPayload d := by
    rw [u32, hpayload]
    rw [maxMessageSize] at hd
    omega
  rw [hu32] at hroom hreceived
  refine ⟨⟨?_, hreceived ▸ hroom⟩, by omega, hroom⟩
  rw [hreceived, hp.sum, hpayload, List.map_append, List.sum_append]
  simp

private theorem safe_of_contained (hp : Counted p used) (hd : d.length ≤ maxMessageSize)
    (h : (turn c p used d).Contained) : (turn c p used d).Safe maxPacketSize := by
  have hfields := (fields_iff_contained hd).mpr h
  rcases hreceive : receiveChunk c p d with ⟨c', result⟩
  cases result with
  | fail =>
    refine ⟨hfields, ?_, ?_, ?_⟩ <;> simp [turn, hreceive]
  | more p' =>
    obtain ⟨-, hsource, htarget⟩ := hp.taken hd h (.inl hreceive)
    refine ⟨hfields, ?_, ?_, ?_⟩ <;> simp [turn, hreceive, hsource, htarget]
  | last p' =>
    obtain ⟨hcounted, hsource, htarget⟩ := hp.taken hd h (.inr hreceive)
    refine ⟨hfields, ?_, ?_, ?_⟩
    · simp [turn, hreceive, hsource]
    · simp [turn, hreceive, htarget]
    · simpa [turn, hreceive] using hcounted.sum

end Turns

private theorem turns_safe (datagrams : List Bytes) :
    ∀ (c : Connection) (p : Partial maxPacketSize) (used : List Nat), Counted p used →
      (∀ d ∈ datagrams, d.length ≤ maxMessageSize) →
      (∀ t ∈ turns c p used datagrams, t.Contained) →
      ∀ t ∈ turns c p used datagrams, t.Safe maxPacketSize := by
  induction datagrams with
  | nil => exact fun _ _ _ _ _ _ => nofun
  | cons d datagrams ih =>
    intro c p used hp hsizes hcontained
    obtain ⟨hd, hsizes⟩ := List.forall_mem_cons.mp hsizes
    rw [turns] at hcontained ⊢
    obtain ⟨hfirst, hrest⟩ := List.forall_mem_cons.mp hcontained
    refine List.forall_mem_cons.mpr ⟨safe_of_contained hp hd hfirst, ?_⟩
    rcases hreceive : receiveChunk c p d with ⟨c', result⟩
    rw [hreceive] at hrest
    cases result with
    | fail => exact ih c' _ [] (counted_start _) hsizes hrest
    | more p' => exact ih c' p' _ (hp.taken hd hfirst (.inl hreceive)).1 hsizes hrest
    | last p' => exact ih c' _ [] (counted_start _) hsizes hrest

private theorem contained_of_turns_safe (datagrams : List Bytes) :
    ∀ (c : Connection) (p : Partial maxPacketSize) (used : List Nat),
      (∀ d ∈ datagrams, d.length ≤ maxMessageSize) →
      (∀ t ∈ turns c p used datagrams, t.Safe maxPacketSize) →
      ∀ t ∈ turns c p used datagrams, t.Contained := by
  induction datagrams with
  | nil => exact fun _ _ _ _ _ => nofun
  | cons d datagrams ih =>
    intro c p used hsizes hsafe
    obtain ⟨hd, hsizes⟩ := List.forall_mem_cons.mp hsizes
    rw [turns] at hsafe ⊢
    obtain ⟨hfirst, hrest⟩ := List.forall_mem_cons.mp hsafe
    refine List.forall_mem_cons.mpr ⟨(fields_iff_contained hd).mp hfirst.fields, ?_⟩
    rcases hreceive : receiveChunk c p d with ⟨c', result⟩
    rw [hreceive] at hrest
    cases result with
    | fail => exact ih c' _ [] hsizes hrest
    | more p' => exact ih c' p' _ hsizes hrest
    | last p' => exact ih c' _ [] hsizes hrest

/-- The lengths that the turns return are those of the messages that are delivered. -/
theorem returned_turns (datagrams : List Bytes) :
    ∀ (c : Connection) (p : Partial len) (used : List Nat),
      ((turns c p used datagrams).filterMap Turn.returned).map Prod.fst =
        (deliveries c p datagrams).map List.length := by
  induction datagrams with
  | nil => exact fun _ _ _ => rfl
  | cons d datagrams ih =>
    intro c p used
    rw [turns, deliveries, List.filterMap_cons, turn]
    rcases hreceive : receiveChunk c p d with ⟨c', result⟩
    cases result with
    | fail => exact ih c' ⟨p.buffer, 0, 0⟩ []
    | more p' => exact ih c' p' _
    | last p' =>
      obtain ⟨-, hroom, hreceived⟩ := receiveChunk_taken (.inr hreceive)
      have hlength : (p'.buffer.val.take p'.bytesReceived).length = p'.bytesReceived := by
        rw [List.length_take, Block.length_val, hreceived]
        omega
      simp only [List.map_cons, hlength]
      exact congrArg (p'.bytesReceived :: ·) (ih c' ⟨p'.buffer, 0, 0⟩ [])

/-- From any state of the connection, and for any datagrams that the receive buffer can take, all
turns of successive calls are safe exactly if every datagram has a header, or has a wrong magic
number and comes when there is an id to follow already. -/
theorem receivePartitioned_safe_iff (c : Connection) (buffer : Block maxPacketSize)
    (datagrams : List Bytes) (hsizes : ∀ d ∈ datagrams, d.length ≤ maxMessageSize) :
    (∀ t ∈ turns c ⟨buffer, 0, 0⟩ [] datagrams, t.Safe maxPacketSize) ↔
      ∀ t ∈ turns c ⟨buffer, 0, 0⟩ [] datagrams, t.Contained :=
  ⟨contained_of_turns_safe datagrams c _ [] hsizes,
    turns_safe datagrams c _ [] (counted_start buffer) hsizes⟩

theorem turns_singleton (c : Connection) (p : Partial len) (used : List Nat) (d : Bytes) :
    turns c p used [d] = [turn c p used d] := by
  rw [turns]
  split <;> rfl

/-- A receive buffer with a header that was left there: the only chunk of a message, with id 5. -/
def leftover : Block maxMessageSize :=
  (Block.zero maxMessageSize).write 0 (leBytes 4 magic ++ leBytes 2 1 ++ leBytes 2 1 ++ leBytes 4 5)

/-- A datagram of somebody else, and a message in two chunks. -/
def twoChunks : List Bytes :=
  [[0, 0, 0, 0], leBytes 4 magic ++ leBytes 2 1 ++ leBytes 2 2 ++ leBytes 4 6 ++ [7, 8],
    leBytes 4 magic ++ leBytes 2 2 ++ leBytes 2 2 ++ leBytes 4 7 ++ [9]]

theorem receivePartitioned_safe_twoChunks :
    (turns { connectionAt 0 with recvMsgId := 4 }
        (⟨.zero maxPacketSize, 0, 0⟩ : Partial maxPacketSize) [] twoChunks).map
        (fun t => (t.copied, t.returned)) =
      [(none, none), (some ⟨12, 0, 2⟩, none), (some ⟨12, 2, 1⟩, some (3, [14, 13]))] ∧
    ∀ t ∈ turns { connectionAt 0 with recvMsgId := 4 }
        (⟨.zero maxPacketSize, 0, 0⟩ : Partial maxPacketSize) [] twoChunks, t.Safe maxPacketSize := by
  refine ⟨by decide +kernel, (receivePartitioned_safe_iff { connectionAt 0 with recvMsgId := 4 }
    (.zero maxPacketSize) twoChunks (by decide)).mpr ?_⟩
  decide +kernel

/-- An empty datagram is taken for a message of 65524 bytes, which are copied from a receive buffer
of 512. -/
theorem not_safe_empty_datagram :
    ∃ t ∈ turns { connectionAt 0 with recvMsgId := 4, recvBuff := leftover }
        (⟨.zero maxPacketSize, 0, 0⟩ : Partial maxPacketSize) [] [[]],
      t.copied = some ⟨12, 0, 65524⟩ ∧ t.returned = some (65524, [0]) ∧ ¬ t.Safe maxPacketSize := by
  rw [turns_singleton]
  have hcopied : (turn { connectionAt 0 with recvMsgId := 4, recvBuff := leftover }
      (⟨.zero maxPacketSize, 0, 0⟩ : Partial maxPacketSize) [] []).copied = some ⟨12, 0, 65524⟩ := by
    decide +kernel
  refine ⟨_, List.mem_singleton_self _, hcopied, by decide +kernel, ?_⟩
  intro hsafe
  exact absurd (hsafe.source _ hcopied) (by decide)

end TweakTool.Wire.Rpmsg
