import TweakTool.Wire.Delivery

/-! # Escapes and the receive thread

The two ends tell each other that they go away with a service datagram, which begins with an escape
byte. A message of the application that begins with this byte is shielded by a second one. This is
the part of `tweakwire_rpmsg.c` above the chunks: `tweak_wire_rpmsg_transmit` and
`tweak_wire_rpmsg_receive_thread`. -/

namespace TweakTool.Wire.Rpmsg

open TweakTool.Lib

/-- `TWEAKWIRE_RPMSG_ESCAPE[0]`. -/
def escape : UInt8 := 0x1B

/-- `TWEAKWIRE_RPMSG_SEND_DISCONNECTED`, "\033disconnect" with its terminating zero. -/
def sendDisconnected : Bytes :=
  [escape, 0x64, 0x69, 0x73, 0x63, 0x6F, 0x6E, 0x6E, 0x65, 0x63, 0x74, 0]

inductive Crash where
  | fatal -- `TWEAK_FATAL`, which aborts
  | nullPointer
  deriving DecidableEq

/-! ## Sending -/

/-- `tweak_wire_rpmsg_transmit`. The check of the result of `malloc` is the wrong way round: with
memory for the shielded message the process aborts, and without it the message is copied through the
null pointer. -/
def tweakWireRpmsgTransmit (transport : Nat → ErrorCode) (hasMemory : Bool) (c : Connection)
    (buffer : Bytes) : Except Crash (ErrorCode × List Bytes × Connection) :=
  let haveToShieldEscape := buffer.head? == some escape
  if !haveToShieldEscape then .ok (sendPartitioned transport c buffer)
  else if hasMemory then .error .fatal
  else .error .nullPointer

/-! ## Receiving -/

inductive ConnectionState where
  | connected
  | disconnected
  deriving DecidableEq

/-- The receive thread: the connection with its receive buffer and its state. -/
structure Thread where
  connection : Connection
  receiveBuffer : Block maxPacketSize
  connectionState : ConnectionState

/-- A call of one of the two listeners. -/
inductive Notification where
  | state (state : ConnectionState)
  | receive (payload : Bytes)
  deriving DecidableEq

namespace Thread

/-- What the thread does with the message of `len` bytes at the start of the receive buffer. The
service datagram is compared with the buffer, however long the message is. -/
def handle (hasStateListener : Bool) (t : Thread) (len : Nat) :
    Except Crash (List Notification × Thread) :=
  let buffer := t.receiveBuffer.val
  let hasEscape := 1 ≤ len && buffer[0]? == some escape
  let shieldedEscape := hasEscape && 2 ≤ len && buffer[1]? == some escape
  if !hasEscape || shieldedEscape then
    let payload := if !shieldedEscape then buffer.take len else slice buffer 1 (len - 1)
    match t.connectionState, hasStateListener with
    | .connected, _ => .ok ([.receive payload], t)
    | .disconnected, true =>
      .ok ([.state .connected, .receive payload], { t with connectionState := .connected })
    -- the listener is called without a look at it
    | .disconnected, false => .error .nullPointer
  else if hasStateListener && slice buffer 0 sendDisconnected.length == sendDisconnected then
    .ok ([.state .disconnected], { t with connectionState := .disconnected })
  else .ok ([], t)

/-- One turn of the loop: a call of `receive_partitioned`, and what is done with its message. -/
def turn (hasStateListener : Bool) (t : Thread) (events : List Event) :
    Option (ErrorCode × Except Crash (List Notification × Thread) × List Event) :=
  (receivePartitioned t.connection t.receiveBuffer events).map fun r =>
    let t := { t with connection := r.connection, receiveBuffer := r.buffer }
    (r.code, if r.code = .success then t.handle hasStateListener r.message.length else .ok ([], t),
      r.rest)

end Thread

/-- What the listeners are called with in at most `turns` turns of
`tweak_wire_rpmsg_receive_thread`, and the datagrams that it sends at its end, once the transport is
aborted; `none` if the thread still waits for a message. -/
def tweakWireRpmsgReceiveThread (transport : Nat → ErrorCode) (hasStateListener : Bool) :
    (turns : Nat) → Thread → List Event → Option (Except Crash (List Notification × List Bytes))
  | 0, _, _ => some (.ok ([], []))
  | turns + 1, t, events =>
    match t.turn hasStateListener events with
    | none => none
    | some (_, .error crash, _) => some (.error crash)
    | some (.finalizing, .ok (notifications, t), _) =>
      let (_, sent, _) := sendPartitioned transport t.connection sendDisconnected
      some (.ok (notifications ++ if hasStateListener then [.state .disconnected] else [], sent))
    | some (_, .ok (notifications, t), rest) =>
      (tweakWireRpmsgReceiveThread transport hasStateListener turns t rest).map fun later =>
        later.map fun (laterNotifications, sent) => (notifications ++ laterNotifications, sent)

/-! ## The receive buffer -/

variable {len : Nat}

/-- What a turn of `receive_partitioned` has put together, unless it failed. -/
def ChunkResult.partial? : ChunkResult len → Option (Partial len)
  | .fail => none
  | .more p | .last p => some p

/-- A turn of `receive_partitioned` only changes the part of the buffer it has received. -/
theorem receiveChunk_buffer {c c' : Connection} {p p' : Partial len} {d : Bytes}
    {result : ChunkResult len} (hlen : len ≤ maxPacketSize) (hp : p.bytesReceived ≤ len)
    (hreceive : receiveChunk c p d = (c', result)) (hresult : result.partial? = some p') :
    p.bytesReceived ≤ p'.bytesReceived ∧ p'.bytesReceived ≤ len ∧
      ∀ n, p'.bytesReceived ≤ n → p'.buffer.val.drop n = p.buffer.val.drop n := by
  simp only [receiveChunk] at hreceive
  generalize UInt32.ofNat (leNat (slice (c.recvBuff.write 0 (d.take maxMessageSize)).val
    cntOffset 4)) = recvMsgId at hreceive
  generalize (if c.recvMsgId = 0 then recvMsgId else incGlobalId c.recvMsgId) = expected at hreceive
  generalize hsize : u16 (min d.length maxMessageSize + 2 ^ 16 - payloadOffset) = size at hreceive
  -- the sum does not wrap around
  have hsum : u32 (p.bytesReceived + size) = p.bytesReceived + size := by
    rw [u16] at hsize
    rw [maxPacketSize] at hlen
    rw [u32]
    omega
  rw [hsum] at hreceive
  split at hreceive -- four ways to fail
  · cases hreceive
    cases hresult
  · split at hreceive
    · cases hreceive
      cases hresult
    · split at hreceive
      · cases hreceive
        cases hresult
      · split at hreceive
        · cases hreceive
          cases hresult
        · next hroom =>
            have hp' : p' = ⟨p.buffer.write p.bytesReceived (slice
                (c.recvBuff.write 0 (d.take maxMessageSize)).val payloadOffset size),
                p.bytesReceived + size,
                leNat (slice (c.recvBuff.write 0 (d.take maxMessageSize)).val chunkNumberOffset 2)⟩ := by
              split at hreceive
              · cases hreceive
                cases hresult
                rfl
              · cases hreceive
                cases hresult
                rfl
            rw [hp']
            -- the copy ends where the next one begins
            refine ⟨Nat.le_add_right _ _, Nat.not_lt.mp hroom, ?_⟩
            intro n hn
            replace hn : p.bytesReceived + size ≤ n := hn
            rw [Block.val_write]
            apply drop_blit
            rw [slice, List.length_take]
            omega

/-- A message that was received is at the start of the buffer, and behind it the buffer is as it
was. -/
theorem receiveLoop_buffer (hlen : len ≤ maxPacketSize) :
    ∀ {events : List Event} {c : Connection} {p : Partial len} {received : Received len},
      (∀ code, .failure code ∈ events → code ≠ .success) → p.bytesReceived ≤ len →
      receiveLoop c p events = some received → received.code = .success →
      ∃ n, p.bytesReceived ≤ n ∧ n ≤ len ∧ received.message = received.buffer.val.take n ∧
        received.buffer.val.drop n = p.buffer.val.drop n := by
  intro events
  induction events with
  | nil =>
    intro c p received _ _ hreceived
    cases hreceived
  | cons event events ih =>
    intro c p received hevents hp hreceived hcode
    have hlater : ∀ code, .failure code ∈ events → code ≠ .success :=
      fun code hmem => hevents code (List.mem_cons_of_mem _ hmem)
    cases event with
    | failure code =>
      cases hreceived
      exact absurd hcode (hevents code List.mem_cons_self)
    | datagram d =>
      rw [receiveLoop] at hreceived
      split at hreceived
      · cases hreceived
        cases hcode
      · next c' p' heq =>
          obtain ⟨hle, hp', hdrop⟩ := receiveChunk_buffer hlen hp heq rfl
          obtain ⟨n, hn, hnlen, hmessage, hbehind⟩ := ih hlater hp' hreceived hcode
          exact ⟨n, Nat.le_trans hle hn, hnlen, hmessage, hbehind.trans (hdrop n hn)⟩
      · next c' p' heq =>
          obtain ⟨hle, hp', hdrop⟩ := receiveChunk_buffer hlen hp heq rfl
          cases hreceived
          exact ⟨p'.bytesReceived, hle, hp', rfl, hdrop _ (Nat.le_refl _)⟩

private theorem receivePartitioned_buffer {c : Connection} {buffer : Block maxPacketSize}
    {events : List Event} {received : Received maxPacketSize}
    (hevents : ∀ code, .failure code ∈ events → code ≠ .success)
    (hreceived : receivePartitioned c buffer events = some received)
    (hcode : received.code = .success) :
    received.buffer.val = received.message ++ buffer.val.drop received.message.length := by
  obtain ⟨n, _, hn, hmessage, hdrop⟩ := receiveLoop_buffer (Nat.le_refl _) hevents
    (Nat.zero_le _) hreceived hcode
  have hlength : received.message.length = n := by
    rw [hmessage, List.length_take, Block.length_val]
    omega
  rw [hlength, hmessage, ← hdrop, List.take_append_drop]

/-! ## What the thread does with a message -/

namespace Thread

variable (hasStateListener : Bool) {t : Thread} {m tail : Bytes}

/-- A message without an escape goes to the listener as it is. -/
theorem handle_plain (hbuffer : t.receiveBuffer.val = m ++ tail) (hplain : m.head? ≠ some escape) :
    t.handle hasStateListener m.length =
      match t.connectionState, hasStateListener with
      | .connected, _ => .ok ([.receive m], t)
      | .disconnected, true =>
        .ok ([.state .connected, .receive m], { t with connectionState := .connected })
      | .disconnected, false => .error .nullPointer := by
  have hescape : (1 ≤ m.length && (m ++ tail)[0]? == some escape) = false := by
    cases m with
    | nil => rfl
    | cons x m =>
      rw [List.head?_cons] at hplain
      simpa using hplain
  simp only [handle, hbuffer, hescape, Bool.false_and, Bool.not_false, Bool.true_or, if_true,
    List.take_left]

/-- A message over a buffer that begins with the service datagram is taken for it. -/
theorem handle_service (hbuffer : t.receiveBuffer.val = m ++ tail) (hm : m ≠ [])
    (hservice : (m ++ tail).take sendDisconnected.length = sendDisconnected) :
    t.handle true m.length =
      .ok ([.state .disconnected], { t with connectionState := .disconnected }) := by
  have hfirst : (m ++ tail)[0]? = some escape := by
    have h := congrArg (·[0]?) hservice
    simpa [List.getElem?_take, sendDisconnected] using h
  have hsecond : (m ++ tail)[1]? = some 0x64 := by
    have h := congrArg (·[1]?) hservice
    simpa [List.getElem?_take, sendDisconnected] using h
  have hunshielded : (some (0x64 : UInt8) == some escape) = false := by decide
  have hlong : decide (1 ≤ m.length) = true :=
    decide_eq_true (List.length_pos_iff.mpr hm)
  simp only [handle, hbuffer, hfirst, hsecond, hunshielded, hlong, slice, List.drop_zero, hservice,
    Bool.and_false, Bool.or_false, Bool.true_and, beq_self_eq_true, Bool.not_true,
    Bool.false_eq_true, if_false, if_true]

/-- When the thread reports that the peer has gone. -/
theorem handle_disconnected_iff (hbuffer : t.receiveBuffer.val = m ++ tail) :
    (∃ notifications t', t.handle hasStateListener m.length = .ok (notifications, t') ∧
      .state .disconnected ∈ notifications) ↔
    hasStateListener = true ∧ m ≠ [] ∧
      (m ++ tail).take sendDisconnected.length = sendDisconnected := by
  constructor
  · rintro ⟨notifications, t', hhandle, hmem⟩
    simp only [handle, hbuffer] at hhandle
    split at hhandle
    · -- a message of the application
      split at hhandle
      · cases hhandle
        simp at hmem
      · cases hhandle
        simp at hmem
      · cases hhandle
    · next hescape =>
        split at hhandle
        · next hservice =>
            rw [Bool.and_eq_true, beq_iff_eq, slice, List.drop_zero] at hservice
            refine ⟨hservice.1, ?_, hservice.2⟩
            rintro rfl
            exact hescape rfl
        · cases hhandle
          cases hmem
  · rintro ⟨rfl, hm, hservice⟩
    exact ⟨_, _, handle_service hbuffer hm hservice, List.mem_singleton.mpr rfl⟩

/-- The thread reports that the peer has gone only where it was told so, unless the first bytes of
the buffer are the service datagram without being the message. -/
theorem handle_sound_iff (hbuffer : t.receiveBuffer.val = m ++ tail) :
    (∀ notifications t', t.handle hasStateListener m.length = .ok (notifications, t') →
      .state .disconnected ∈ notifications → m = sendDisconnected) ↔
    ¬ (hasStateListener = true ∧ m ≠ [] ∧ m.length ≠ sendDisconnected.length ∧
      (m ++ tail).take sendDisconnected.length = sendDisconnected) := by
  constructor
  · rintro hsound ⟨hlistener, hm, hlength, hservice⟩
    obtain ⟨notifications, t', hhandle, hmem⟩ :=
      (handle_disconnected_iff hasStateListener hbuffer).mpr ⟨hlistener, hm, hservice⟩
    exact hlength (congrArg List.length (hsound notifications t' hhandle hmem))
  · intro hno notifications t' hhandle hmem
    obtain ⟨hlistener, hm, hservice⟩ :=
      (handle_disconnected_iff hasStateListener hbuffer).mp ⟨notifications, t', hhandle, hmem⟩
    by_cases hlength : m.length = sendDisconnected.length
    · rw [← hlength, List.take_left] at hservice
      exact hservice
    · exact absurd ⟨hlistener, hm, hlength, hservice⟩ hno

end Thread

/-! ## From end to end -/

/-- The payload that a listener is called with. -/
def Notification.payload? : Notification → Option Bytes
  | .state _ => none
  | .receive payload => some payload

/-- A payload that `tweak_wire_rpmsg_transmit` passes on to a thread that calls its receive listener
once, with exactly that payload, and takes the peer to be there. -/
def Transparent (hasStateListener : Bool) (s : Connection) (t : Thread) (payload : Bytes) : Prop :=
  ∃ sent s' notifications t',
    tweakWireRpmsgTransmit reliable true s payload = .ok (.success, sent, s') ∧
    (∀ rest, t.turn hasStateListener (sent.map .datagram ++ rest) =
      some (.success, .ok (notifications, t'), rest)) ∧
    Synced s' t'.connection ∧ notifications.filterMap Notification.payload? = [payload] ∧
    .state .disconnected ∉ notifications ∧ t'.connectionState = .connected

section Transmit

variable (hasStateListener : Bool) {s : Connection} {t : Thread} {payload : Bytes}

/-- A payload without the escape byte is sent as it is. -/
theorem transmit_plain (hplain : payload.head? ≠ some escape) :
    tweakWireRpmsgTransmit reliable true s payload = .ok (sendPartitioned reliable s payload) := by
  have hshield : (payload.head? == some escape) = false := beq_eq_false_iff_ne.mpr hplain
  simp only [tweakWireRpmsgTransmit, hshield, Bool.not_false, if_true]

/-- The turn of the receive thread that gets what was sent. -/
theorem turn_sendPartitioned (hpos : 1 ≤ payload.length) (hmax : payload.length ≤ maxPacketSize)
    (hsync : Synced s t.connection) :
    (sendPartitioned reliable s payload).1 = .success ∧
    ∃ t' : Thread, t'.receiveBuffer.val = payload ++ t.receiveBuffer.val.drop payload.length ∧
      t'.connectionState = t.connectionState ∧
      Synced (sendPartitioned reliable s payload).2.2 t'.connection ∧
      ∀ rest, t.turn hasStateListener
        ((sendPartitioned reliable s payload).2.1.map .datagram ++ rest) =
          some (.success, t'.handle hasStateListener payload.length, rest) := by
  obtain ⟨hcode, r', buffer', hsync', hreceive⟩ :=
    receivePartitioned_sendPartitioned hpos hmax hsync t.receiveBuffer
  have hbuffer := receivePartitioned_buffer (by simp) (hreceive []) rfl
  refine ⟨hcode, ⟨r', buffer', t.connectionState⟩, hbuffer, rfl, hsync', ?_⟩
  intro rest
  rw [Thread.turn, hreceive rest]
  rfl

theorem transparent_iff (hpos : 1 ≤ payload.length) (hmax : payload.length < maxPacketSize)
    (hsync : Synced s t.connection) :
    Transparent hasStateListener s t payload ↔
      payload.head? ≠ some escape ∧
        (hasStateListener = true ∨ t.connectionState = .connected) := by
  obtain ⟨hcode, t', hbuffer, hstate, hsync', hturn⟩ :=
    turn_sendPartitioned hasStateListener hpos (Nat.le_of_lt hmax) hsync
  constructor
  · -- with memory for the escape byte the process would abort
    rintro ⟨sent, s', notifications, t'', htransmit, hturn', _⟩
    have hplain : payload.head? ≠ some escape := by
      intro hescape
      simp [tweakWireRpmsgTransmit, hescape] at htransmit
    refine ⟨hplain, ?_⟩
    rw [transmit_plain hplain, Except.ok.injEq] at htransmit
    have hhandle := hturn []
    rw [htransmit] at hhandle
    replace hhandle := (hturn' []).symm.trans hhandle
    rw [Thread.handle_plain hasStateListener hbuffer hplain, hstate] at hhandle
    cases hlistener : hasStateListener with
    | true => exact .inl rfl
    | false =>
      cases hconnection : t.connectionState with
      | connected => exact .inr rfl
      | disconnected =>
        rw [hconnection, hlistener] at hhandle
        cases hhandle
  · rintro ⟨hplain, hlistener⟩
    -- the payload is sent as it is
    have hsent : tweakWireRpmsgTransmit reliable true s payload = .ok (.success,
        (sendPartitioned reliable s payload).2.1, (sendPartitioned reliable s payload).2.2) := by
      rw [transmit_plain hplain, ← hcode]
    have hhandle := Thread.handle_plain hasStateListener hbuffer hplain
    cases hconnection : t.connectionState with
    | connected =>
      rw [hstate, hconnection] at hhandle
      rw [hhandle] at hturn
      exact ⟨_, _, _, _, hsent, hturn, hsync', rfl, by simp, hstate.trans hconnection⟩
    | disconnected => -- the listener is told of the peer first
      have htrue : hasStateListener = true := by
        rcases hlistener with h | h
        · exact h
        · rw [hconnection] at h
          cases h
      rw [hstate, hconnection, htrue] at hhandle
      rw [htrue] at hturn ⊢
      rw [hhandle] at hturn
      exact ⟨_, _, _, _, hsent, hturn, hsync', rfl, by simp, rfl⟩

/-- Successive calls of `tweak_wire_rpmsg_transmit`, as long as the process lives. -/
def transmitAll (c : Connection) : List Bytes → Except Crash (List Bytes × Connection)
  | [] => .ok ([], c)
  | payload :: payloads =>
    match tweakWireRpmsgTransmit reliable true c payload with
    | .error crash => .error crash
    | .ok (_, sent, c) => (transmitAll c payloads).map fun (later, c) => (sent ++ later, c)

/-- One more turn of the thread. -/
theorem receiveThread_turn {hasStateListener : Bool} (transport : Nat → ErrorCode) {turns : Nat}
    {t' : Thread} {events rest : List Event} {notifications : List Notification}
    (hturn : t.turn hasStateListener events = some (.success, .ok (notifications, t'), rest)) :
    tweakWireRpmsgReceiveThread transport hasStateListener (turns + 1) t events =
      (tweakWireRpmsgReceiveThread transport hasStateListener turns t' rest).map fun later =>
        later.map fun (laterNotifications, sent) => (notifications ++ laterNotifications, sent) := by
  rw [tweakWireRpmsgReceiveThread, hturn]

/-- The receive thread passes on every payload of a peer that has no escapes to send. -/
theorem receiveThread_delivers {payloads : List Bytes} (transport : Nat → ErrorCode)
    (hpayloads : ∀ payload ∈ payloads,
      1 ≤ payload.length ∧ payload.length < maxPacketSize ∧ payload.head? ≠ some escape) :
    ∀ {s : Connection} {t : Thread}, Synced s t.connection →
      (hasStateListener = true ∨ t.connectionState = .connected) →
      ∃ sent s', transmitAll s payloads = .ok (sent, s') ∧ ∀ rest, ∃ notifications,
        tweakWireRpmsgReceiveThread transport hasStateListener payloads.length t
            (sent.map .datagram ++ rest) = some (.ok (notifications, [])) ∧
          notifications.filterMap Notification.payload? = payloads ∧
          .state .disconnected ∉ notifications := by
  induction payloads with
  | nil =>
    intro s t _ _
    exact ⟨[], s, rfl, fun rest => ⟨[], rfl, rfl, List.not_mem_nil⟩⟩
  | cons payload payloads ih =>
    intro s t hsync hlistener
    obtain ⟨hpos, hmax, hplain⟩ := hpayloads payload List.mem_cons_self
    obtain ⟨sent, s', notifications, t', htransmit, hturn, hsync', hreceived, hstays,
      hconnected⟩ := (transparent_iff hasStateListener hpos hmax hsync).mpr ⟨hplain, hlistener⟩
    obtain ⟨later, s'', hall, hthread⟩ :=
      ih (fun m hm => hpayloads m (List.mem_cons_of_mem _ hm)) hsync' (.inr hconnected)
    refine ⟨sent ++ later, s'', ?_, ?_⟩
    · simp only [transmitAll, htransmit, hall]
      rfl
    · intro rest
      obtain ⟨laterNotifications, hlater, hpassed, hstays'⟩ := hthread rest
      refine ⟨notifications ++ laterNotifications, ?_, ?_, ?_⟩
      · rw [List.length_cons, List.map_append, List.append_assoc,
          receiveThread_turn transport (hturn _), hlater]
        rfl
      · rw [List.filterMap_append, hreceived, hpassed]
        rfl
      · intro hmem
        rcases List.mem_append.mp hmem with hmem | hmem
        · exact hstays hmem
        · exact hstays' hmem

end Transmit

/-- **When the escapes are transparent.** A payload arrives exactly if it does not begin with the
escape byte and the receiving side has a state listener to tell of its first message; and the
receiving side takes a message for the service datagram exactly if it is that, or if the first bytes
of the receive buffer are that, whatever the length of the message: the message may go on behind it,
or what the buffer holds from an earlier message may complete it. -/
theorem escape_layer_iff (hasStateListener : Bool) (t : Thread) :
    (∀ (s : Connection) (payload : Bytes),
      Synced s t.connection → 1 ≤ payload.length → payload.length ≤ 262143 →
        (Transparent hasStateListener s t payload ↔
          payload.head? ≠ some escape ∧
            (hasStateListener = true ∨ t.connectionState = .connected))) ∧
    ∀ (events : List Event) (r : Received maxPacketSize),
      (∀ code, .failure code ∈ events → code ≠ .success) →
      receivePartitioned t.connection t.receiveBuffer events = some r → r.code = .success →
        ((∀ notifications t', t.turn hasStateListener events =
              some (.success, .ok (notifications, t'), r.rest) →
            .state .disconnected ∈ notifications → r.message = sendDisconnected) ↔
          ¬ (hasStateListener = true ∧ r.message ≠ [] ∧
            r.message.length ≠ sendDisconnected.length ∧
            (r.message ++ t.receiveBuffer.val.drop r.message.length).take sendDisconnected.length =
              sendDisconnected)) := by
  constructor
  · intro s payload hsync hpos hmax
    refine transparent_iff hasStateListener hpos ?_ hsync
    rw [maxPacketSize]
    omega
  · intro events r hevents hreceived hcode
    have hbuffer := receivePartitioned_buffer hevents hreceived hcode
    have hturn : t.turn hasStateListener events = some (.success, Thread.handle hasStateListener
        { t with connection := r.connection, receiveBuffer := r.buffer } r.message.length,
        r.rest) := by
      rw [Thread.turn, hreceived, Option.map_some, hcode]
      rfl
    rw [← Thread.handle_sound_iff hasStateListener (t := { t with
      connection := r.connection, receiveBuffer := r.buffer }) hbuffer, hturn]
    simp only [Option.some.injEq, Prod.mk.injEq, true_and, and_true]

/-- A receive thread that has received nothing yet. -/
def newThread : Thread := ⟨connectionAt 0, .zero maxPacketSize, .disconnected⟩

def leave : List Event := (sendPartitioned reliable (connectionAt 0) sendDisconnected).2.1.map .datagram

/-- A payload arrives; and where a peer leaves, the leave is what has been received. -/
theorem escape_layer_iff_leave :
    Transparent true (connectionAt 0) newThread [7, 8] ∧
      ∃ r notifications t',
        receivePartitioned newThread.connection newThread.receiveBuffer leave = some r ∧
        newThread.turn true leave = some (.success, .ok (notifications, t'), r.rest) ∧
        .state .disconnected ∈ notifications ∧ r.message = sendDisconnected := by
  constructor
  · exact ((escape_layer_iff true newThread).1 (connectionAt 0) [7, 8] (.inl rfl) (by decide)
      (by decide)).mpr ⟨by decide, .inl rfl⟩
  · have hpos : 1 ≤ sendDisconnected.length := by decide
    have hmax : sendDisconnected.length ≤ maxPacketSize := by decide
    have hsync : Synced (connectionAt 0) newThread.connection := .inl rfl
    obtain ⟨_, r', buffer', _, hreceive⟩ :=
      receivePartitioned_sendPartitioned hpos hmax hsync newThread.receiveBuffer
    obtain ⟨_, t', hbuffer, _, _, hturn⟩ := turn_sendPartitioned true hpos hmax hsync
    replace hreceive := hreceive []
    replace hturn := hturn []
    rw [List.append_nil, ← leave] at hreceive hturn
    rw [Thread.handle_service hbuffer (by decide) List.take_left] at hturn
    refine ⟨_, _, _, hreceive, hturn, List.mem_cons_self, ?_⟩
    have hsound := ((escape_layer_iff true newThread).2 leave _ (by simp [leave]) hreceive rfl).mpr
      fun h => h.2.2.1 rfl
    exact hsound _ _ hturn List.mem_cons_self

/-- What two messages of a peer look like to the receive thread: the peer leaves, and its next
message is the escape byte alone. -/
def leaveThenEscape : List Event :=
  let leave := sendPartitioned reliable (connectionAt 0) sendDisconnected
  let single := sendPartitioned reliable leave.2.2 [escape]
  leave.2.1.map .datagram ++ single.2.1.map .datagram

/-- A payload that begins with the escape byte aborts the sender; and a message that is nothing but
the escape byte is reported as a second leave. -/
theorem escapes_not_transparent :
    tweakWireRpmsgTransmit reliable true (connectionAt 0) [escape] = .error .fatal ∧
    tweakWireRpmsgReceiveThread reliable true 2 newThread leaveThenEscape =
      some (.ok ([.state .disconnected, .state .disconnected], [])) := by
  refine ⟨rfl, ?_⟩
  obtain ⟨_, t, hbuffer, _, hsync, hturn⟩ := turn_sendPartitioned true (s := connectionAt 0)
    (t := newThread) (show 1 ≤ sendDisconnected.length by decide) (by decide) (.inl rfl)
  obtain ⟨_, t', hbuffer', _, _, hturn'⟩ := turn_sendPartitioned true
    (t := { t with connectionState := .disconnected }) (show 1 ≤ [escape].length by decide)
    (by decide) hsync
  -- behind the single byte the buffer still holds the rest of the service datagram
  rw [hbuffer] at hbuffer'
  have hleave := Thread.handle_service hbuffer (by decide) List.take_left
  have hsingle := Thread.handle_service hbuffer' (by decide) rfl
  rw [hleave] at hturn
  rw [hsingle] at hturn'
  replace hturn' := hturn' []
  rw [List.append_nil] at hturn'
  rw [leaveThenEscape, receiveThread_turn reliable (hturn _), receiveThread_turn reliable hturn']
  rfl

end TweakTool.Wire.Rpmsg
