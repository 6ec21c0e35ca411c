import TweakTool.Wire.Escape

/-! # Payloads in transit

Each end of a rpmsg connection transmits from its own threads and runs a receive thread; both use one
`tweak_wire_connection_rpmsg`. What one end sends is in transit until the receive thread of the other
end takes it, and arrives in the order of sending; the chunks of a message arrive without a gap long
enough to be a timeout. -/

namespace TweakTool.Wire.Rpmsg

open TweakTool.Lib

/-! ## One connection, both directions -/

/-- Two connections that are the same to a sender. -/
def SameSender (c d : Connection) : Prop := c.sendMsgId = d.sendMsgId ∧ c.sendBuff = d.sendBuff

theorem SameSender.trans {c d e : Connection} (h : SameSender c d) (h' : SameSender d e) :
    SameSender c e := ⟨h.1.trans h'.1, h.2.trans h'.2⟩

private theorem sendLoop_sameSender (transport : Nat → ErrorCode) (buffer : Bytes) (nChunks : Nat) :
    ∀ {todo nChunk : Nat} {c d : Connection}, SameSender c d →
      (sendLoop transport buffer nChunks todo nChunk c).2.1 =
        (sendLoop transport buffer nChunks todo nChunk d).2.1 ∧
      SameSender (sendLoop transport buffer nChunks todo nChunk c).2.2
        (sendLoop transport buffer nChunks todo nChunk d).2.2 := by
  intro todo
  induction todo with
  | zero => exact fun h => ⟨rfl, h⟩
  | succ todo ih =>
    intro nChunk c d h
    have hfilled : (fillChunk c buffer nChunks nChunk).2 = (fillChunk d buffer nChunks nChunk).2 ∧
        SameSender (fillChunk c buffer nChunks nChunk).1 (fillChunk d buffer nChunks nChunk).1 := by
      simp only [fillChunk, SameSender, h.1, h.2, and_self]
    simp only [sendLoop]
    cases transport nChunk with
    | success =>
      refine ⟨congrArg₂ List.cons hfilled.1 (ih ?_).1, (ih ?_).2⟩
      all_goals exact ⟨congrArg incGlobalId hfilled.2.1, hfilled.2.2⟩
    | error | timeout | finalizing => exact ⟨rfl, hfilled.2⟩

/-- What is sent does not depend on the receiving side of the connection. -/
theorem sendPartitioned_sameSender (transport : Nat → ErrorCode) {c d : Connection}
    (h : SameSender c d) (buffer : Bytes) :
    (sendPartitioned transport c buffer).2.1 = (sendPartitioned transport d buffer).2.1 ∧
      SameSender (sendPartitioned transport c buffer).2.2
        (sendPartitioned transport d buffer).2.2 := by
  simp only [sendPartitioned]
  split
  · exact ⟨rfl, h⟩
  · exact sendLoop_sameSender transport buffer _ h

private theorem sendLoop_recvMsgId (transport : Nat → ErrorCode) (buffer : Bytes) (nChunks : Nat) :
    ∀ {todo nChunk : Nat} {c : Connection},
      (sendLoop transport buffer nChunks todo nChunk c).2.2.recvMsgId = c.recvMsgId := by
  intro todo
  induction todo with
  | zero => exact rfl
  | succ todo ih =>
    intro nChunk c
    have hfilled : (fillChunk c buffer nChunks nChunk).1.recvMsgId = c.recvMsgId := by
      simp only [fillChunk]
    simp only [sendLoop]
    cases transport nChunk with
    | success => simp only [ih, hfilled]
    | error | timeout | finalizing => exact hfilled

/-- A sender leaves the running id of the receiver alone. -/
theorem sendPartitioned_recvMsgId (transport : Nat → ErrorCode) (c : Connection) (buffer : Bytes) :
    (sendPartitioned transport c buffer).2.2.recvMsgId = c.recvMsgId := by
  simp only [sendPartitioned]
  split
  · rfl
  · exact sendLoop_recvMsgId transport buffer _

variable {len : Nat}

private theorem receiveChunk_sameSender (c : Connection) (p : Partial len) (d : Bytes) :
    SameSender (receiveChunk c p d).1 c := by
  simp only [receiveChunk]
  generalize (if c.recvMsgId = 0 then _ else incGlobalId c.recvMsgId) = expected
  split
  · exact ⟨rfl, rfl⟩
  split
  · exact ⟨rfl, rfl⟩
  split
  · exact ⟨rfl, rfl⟩
  split <;> exact ⟨rfl, rfl⟩

private theorem receiveLoop_sameSender : ∀ {events : List Event} {c : Connection} {p : Partial len}
    {r : Received len}, receiveLoop c p events = some r → SameSender r.connection c := by
  intro events
  induction events with
  | nil => rintro _ _ _ ⟨⟩
  | cons event events ih =>
    intro c p r h
    cases event with
    | failure code =>
      cases h
      exact ⟨rfl, rfl⟩
    | datagram d =>
      have hchunk := receiveChunk_sameSender c p d
      rw [receiveLoop] at h
      cases hresult : receiveChunk c p d with
      | mk c' result =>
        rw [hresult] at h hchunk
        cases result with
        | fail | last =>
          cases h
          exact hchunk
        | more => exact (ih h).trans hchunk

/-- The receive thread leaves the sending side of its connection alone. -/
theorem Thread.turn_sameSender {hasStateListener : Bool} {t t' : Thread} {events rest : List Event}
    {code : ErrorCode} {notifications : List Notification}
    (h : t.turn hasStateListener events = some (code, .ok (notifications, t'), rest)) :
    SameSender t'.connection t.connection := by
  rw [Thread.turn, Option.map_eq_some_iff] at h
  obtain ⟨r, hr, hresult⟩ := h
  have hsame : SameSender r.connection t.connection := receiveLoop_sameSender hr
  simp only [Prod.mk.injEq, Thread.handle] at hresult
  obtain ⟨_, hhandled, _⟩ := hresult
  split at hhandled
  · split at hhandled <;> split at hhandled <;> cases hhandled <;> exact hsame
  · cases hhandled
    exact hsame

/-! ## One direction -/

/-- A payload that arrives, see `transparent_iff`. -/
def Transmittable (payload : Bytes) : Prop :=
  1 ≤ payload.length ∧ payload.length < maxPacketSize ∧ payload.head? ≠ some escape

instance (payload : Bytes) : Decidable (Transmittable payload) :=
  inferInstanceAs (Decidable (_ ∧ _ ∧ _))

/-- A reliable transport takes the chunks of every payload that is not too long. -/
theorem transmit_transmittable {payload : Bytes} (h : Transmittable payload) (c : Connection) :
    tweakWireRpmsgTransmit reliable true c payload = .ok (.success,
      (sendPartitioned reliable c payload).2.1, (sendPartitioned reliable c payload).2.2) := by
  obtain ⟨hpos, hmax, hplain⟩ := h
  have hcode : (sendPartitioned reliable c payload).1 = .success :=
    (receivePartitioned_sendPartitioned (r := { c with recvMsgId := 0 }) hpos (Nat.le_of_lt hmax)
      (.inl rfl) (.zero maxPacketSize)).1
  rw [transmit_plain hplain, ← hcode]

/-- The datagrams of all payloads, and the connection that has sent them. -/
def sentAll (c : Connection) : List Bytes → List Event × Connection
  | [] => ([], c)
  | payload :: payloads =>
    let (_, sent, d) := sendPartitioned reliable c payload
    let (later, e) := sentAll d payloads
    (sent.map .datagram ++ later, e)

private theorem sentAll_concat (c : Connection) (payloads : List Bytes) (payload : Bytes) :
    sentAll c (payloads ++ [payload]) =
      ((sentAll c payloads).1 ++
        (sendPartitioned reliable (sentAll c payloads).2 payload).2.1.map .datagram,
      (sendPartitioned reliable (sentAll c payloads).2 payload).2.2) := by
  induction payloads generalizing c with
  | nil => simp [sentAll]
  | cons first payloads ih => simp [sentAll, ih]

/-- What is in transit from the end `s` to the end `r` is a list of payloads, which `r` will
receive one by one. -/
def Carries (s r : Thread) (transit : List Event) (payloads : List Bytes) : Prop :=
  (∀ payload ∈ payloads, Transmittable payload) ∧ ∃ c, Synced c r.connection ∧
    transit = (sentAll c payloads).1 ∧ SameSender (sentAll c payloads).2 s.connection

namespace Carries

variable {s r s' r' : Thread} {transit : List Event} {payloads : List Bytes} {payload : Bytes}

theorem empty (h : Synced s.connection r.connection) : Carries s r [] [] :=
  ⟨fun _ hmem => absurd hmem List.not_mem_nil, s.connection, h, rfl, rfl, rfl⟩

/-- The receiver may transmit meanwhile. -/
theorem of_receiver (h : Carries s r transit payloads)
    (hsame : r'.connection.recvMsgId = r.connection.recvMsgId) : Carries s r' transit payloads := by
  obtain ⟨hpayloads, c, hsync, hsent⟩ := h
  refine ⟨hpayloads, c, ?_, hsent⟩
  rw [Synced, hsame]
  exact hsync

/-- The sender may receive meanwhile. -/
theorem of_sender (h : Carries s r transit payloads)
    (hsame : SameSender s'.connection s.connection) : Carries s' r transit payloads := by
  obtain ⟨hpayloads, c, hsync, htransit, hsender⟩ := h
  exact ⟨hpayloads, c, hsync, htransit, hsender.trans ⟨hsame.1.symm, hsame.2.symm⟩⟩

/-- One more payload is sent. -/
theorem transmit (h : Carries s r transit payloads) (hpayload : Transmittable payload) :
    Carries { s with connection := (sendPartitioned reliable s.connection payload).2.2 } r
      (transit ++ (sendPartitioned reliable s.connection payload).2.1.map .datagram)
      (payloads ++ [payload]) := by
  obtain ⟨hpayloads, c, hsync, htransit, hsender⟩ := h
  obtain ⟨hsent, hsame⟩ := sendPartitioned_sameSender reliable hsender payload
  refine ⟨List.forall_mem_append.mpr ⟨hpayloads, List.forall_mem_singleton.mpr hpayload⟩, c, hsync,
    ?_, ?_⟩
  · rw [sentAll_concat, htransit, hsent]
  · rw [sentAll_concat]
    exact hsame

/-- The receive thread takes the first payload and leaves the others. -/
theorem turn (h : Carries s r transit (payload :: payloads)) :
    ∃ notifications r' rest, r.turn true transit = some (.success, .ok (notifications, r'), rest) ∧
      notifications.filterMap Notification.payload? = [payload] ∧
      .state .disconnected ∉ notifications ∧ Carries s r' rest payloads := by
  obtain ⟨hpayloads, c, hsync, rfl, hsender⟩ := h
  have hfirst := hpayloads payload List.mem_cons_self
  obtain ⟨sent, d, notifications, r', htransmit, hturn, hsync', hreceived, hstays, _⟩ :=
    (transparent_iff true hfirst.1 hfirst.2.1 hsync).mpr ⟨hfirst.2.2, .inl rfl⟩
  rw [transmit_transmittable hfirst] at htransmit
  cases htransmit
  exact ⟨notifications, r', _, hturn _, hreceived, hstays,
    fun m hm => hpayloads m (List.mem_cons_of_mem _ hm), _, hsync', rfl, hsender⟩

/-- No payloads, no datagrams. -/
theorem transit_nil (h : Carries s r transit []) : transit = [] := by
  obtain ⟨_, _, _, rfl, _⟩ := h
  rfl

/-- A payload in transit is at least one datagram. -/
theorem payloads_nil (h : Carries s r [] payloads) : payloads = [] := by
  cases payloads with
  | nil => rfl
  | cons payload payloads =>
    obtain ⟨_, _, _, hturn, _⟩ := h.turn
    cases hturn

end Carries

end TweakTool.Wire.Rpmsg
