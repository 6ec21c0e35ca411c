import TweakTool.Gateway.Forwarding
import TweakTool.Pickle.RoundTrip

/-! # From the server to the client and back

A server on a rpmsg connection, the gateway, and a client on a nng connection. All of them take their
steps in any order, and peers of the nng connection come and go. The two ends send requests of the pickle
layer. The first byte of an encoded request is the tag of a oneof, which is never the escape byte; so the
pickle layer stays clear of what the escape layer cannot transmit.

The code of nng is not part of the repository. Which messages it takes and which it brings, and when, is
left open; the one thing that is assumed of it is `Brings`. On the rpmsg side the datagrams arrive in
their order. -/

namespace TweakTool.Gateway

open TweakTool.Lib TweakTool.Common TweakTool.Pickle
open TweakTool.Wire
open TweakTool.Wire.Rpmsg (Notification Thread Carries Transmittable tweakWireRpmsgTransmit
  transmit_transmittable reliable maxPacketSize escape ErrorCode)
open TweakTool.Wire.Nng (SendResult recvAsyncCallback recvAsyncCallback_header received
  filterMap_received datagramHeader tweakWireNngTransmit)

/-! ## Requests -/

abbrev Request := Message VariantString PVariant

/-- The payload carries the request. -/
def Encodes (m : Request) (payload : Bytes) : Prop :=
  m.Plain ∧ m.encode = some payload ∧ payload.length < maxPacketSize

private theorem head?_encodeDelimited {tag : Nat} (htag : 0 < tag ∧ tag ≤ 4) (data : Bytes) :
    (encodeDelimited tag data).head? = some (UInt8.ofNat (tag * 8 + 2)) := by
  have hbyte : pbEncodeTag wtString tag = [UInt8.ofNat (tag * 8 + 2)] := by
    rw [pbEncodeTag, pbEncodeVarint, varintBytes, wtString, if_pos (by omega)]
  rw [encodeDelimited, hbyte]
  rfl

variable {m : Request} {payload : Bytes}

/-- A request is small, and does not begin with the escape byte. -/
theorem Encodes.transmittable (h : Encodes m payload) : Transmittable payload := by
  obtain ⟨hplain, hencode, hsize⟩ := h
  obtain ⟨_, rfl, _⟩ := Message.encode_eq_some hplain hencode
  have htag := m.request_tag_le
  have hhead := head?_encodeDelimited htag m.request.2
  refine ⟨?_, hsize, ?_⟩
  · rw [Nat.one_le_iff_ne_zero, Ne, List.length_eq_zero_iff]
    intro hempty
    rw [hempty] at hhead
    cases hhead
  · rw [hhead, Ne, Option.some.injEq]
    -- the tags are 10, 18, 26 and 34, the escape byte is 27
    obtain ⟨hpos, hle⟩ := htag
    intro hescape
    have hvalue := congrArg UInt8.toNat hescape
    rw [UInt8.toNat_ofNat'] at hvalue
    have hescape : escape.toNat = 27 := rfl
    omega

/-- The peer decodes the payload to the request exactly if no type in it is confused. -/
theorem Encodes.decodes_iff (h : Encodes m payload) (libs : Nat → Nat → CLibrary) :
    m.Decodes libs payload ↔ m.Unconfused := by
  obtain ⟨hplain, hencode, hsize⟩ := h
  obtain ⟨_, rfl, _⟩ := Message.encode_eq_some hplain hencode
  have hle := length_le_delimited m.request.1 m.request.2
  rw [maxPacketSize] at hsize
  exact Message.decodes_iff libs hplain (by omega)

def FromServer (payload : Bytes) : Prop :=
  ∃ m : ServerMessage VariantString PVariant, Encodes (.fromServer m) payload

def FromClient (payload : Bytes) : Prop :=
  ∃ m : ClientMessage VariantString PVariant, Encodes (.fromClient m) payload

/-! ## Three parties -/

/-- The three parties, what the two ends have transmitted, and what their listeners were called
with. -/
structure Route where
  server : Thread
  gateway : Context
  serverTransmitted : List Bytes
  serverNotified : List Notification
  serverCrash : Option Rpmsg.Crash
  clientTransmitted : List Bytes
  clientReceived : List Bytes
  clientOut : List Bytes -- the messages that nng has taken from the client
  clientIn : List Bytes -- the messages that nng has brought to the client

namespace Route

inductive Action where
  | serverTransmit (transport : Nat → ErrorCode) (payload : Bytes)
  | serverTurn
  | clientTransmit (aioResult : SendResult) (payload : Bytes)
  | clientReceive (body : Bytes) -- nng calls the client back with a message
  | gateway (a : Context.Action)

/-- One step while the server has not crashed. -/
def move (r : Route) : Action → Option Route
  | .serverTransmit transport payload =>
    match tweakWireRpmsgTransmit transport true r.server.connection payload with
    | .error crash => some { r with serverCrash := some crash }
    | .ok (code, sent, c) =>
      some { r with
        server := { r.server with connection := c }
        gateway := { r.gateway with rpmsgIn := r.gateway.rpmsgIn ++ sent.map .datagram }
        serverTransmitted := r.serverTransmitted ++ if code = .success then [payload] else [] }
  | .serverTurn =>
    match r.server.turn true r.gateway.rpmsgOut with
    | none => none
    | some (_, .error crash, _) => some { r with serverCrash := some crash }
    | some (_, .ok (notifications, t), rest) =>
      some { r with
        server := t
        gateway := { r.gateway with rpmsgOut := rest }
        serverNotified := r.serverNotified ++ notifications }
  | .clientTransmit aioResult payload =>
    match tweakWireNngTransmit false true aioResult payload with
    | (_, none) => some r
    | (_, some message) =>
      some { r with
        clientOut := r.clientOut ++ [message]
        clientTransmitted := r.clientTransmitted ++ [payload] }
  | .clientReceive body =>
    some { r with
      clientIn := r.clientIn ++ [body]
      clientReceived := r.clientReceived ++ (recvAsyncCallback false (.message body)).1.toList }
  | .gateway a => (r.gateway.step a).map fun g => { r with gateway := g }

def step (r : Route) (a : Action) : Option Route := if r.serverCrash.isSome then none else r.move a

/-- The payloads that the receive listener of the server was called with. -/
def serverReceived (r : Route) : List Bytes := r.serverNotified.filterMap Notification.payload?

def start (server : Thread) (gateway : Context) : Route := ⟨server, gateway, [], [], none, [], [], [], []⟩

structure New (server : Thread) (gateway : Context) : Prop where
  started : gateway.Started
  rpmsgIn : gateway.rpmsgIn = []
  recvMsgId : server.connection.recvMsgId = 0

/-- What nng brings is among what it has taken: it can lose messages, but does not alter, reorder or
repeat them. -/
def Brings (taken brought : List Bytes) (body : Bytes) : Prop := (brought ++ [body]).Sublist taken

/-- The ends transmit requests, the rpmsg side does not fail, and the gateway is not told to end. -/
def Allowed (r : Route) : Action → Prop
  | .serverTransmit transport payload => transport = reliable ∧ FromServer payload
  | .clientTransmit _ payload => FromClient payload
  | .clientReceive body => Brings r.gateway.nngOut r.clientIn body
  | .serverTurn => True
  | .gateway .rpmsgTurn | .gateway (.rpmsgListener _) | .gateway (.nngState _) => True
  | .gateway (.nngReceive body transport) =>
    transport = reliable ∧ Brings r.clientOut r.gateway.nngIn body
  | .gateway .destroy | .gateway (.rpmsgThreadEnds _) | .gateway .joined | .gateway .nngDestroyed => False

/-! ## Accounts -/

/-- The list `xs` is `ys` without `lost` of its elements. -/
def Accounts (xs ys : List Bytes) (lost : Nat) : Prop :=
  xs.Sublist ys ∧ xs.length + lost = ys.length

variable {xs ys : List Bytes} {lost : Nat}

private theorem Accounts.append (h : Accounts xs ys lost) (x : Bytes) :
    Accounts (xs ++ [x]) (ys ++ [x]) lost := by
  obtain ⟨hsublist, hlength⟩ := h
  refine ⟨hsublist.append_right [x], ?_⟩
  rw [List.length_append, List.length_append, ← hlength]
  omega

/-- One more element is lost. -/
theorem Accounts.drop {xs' : List Bytes} {x : Bytes} (h : Accounts (xs ++ x :: xs') ys lost) :
    Accounts (xs ++ xs') ys (lost + 1) := by
  obtain ⟨hsublist, hlength⟩ := h
  refine ⟨List.Sublist.trans ((List.sublist_cons_self x xs').append_left xs) hsublist, ?_⟩
  rw [List.length_append, List.length_cons] at hlength
  rw [List.length_append]
  omega

/-- From the server to nng: what nng has taken from the gateway, what the receive thread of the gateway
is about to pass on, and what is on the rpmsg side, is all that the server has transmitted but for what
was dropped. -/
def Down (r : Route) : Prop :=
  ∃ inNng inRpmsg, r.gateway.nngOut = inNng.map (datagramHeader ++ ·) ∧
    Carries r.server r.gateway.thread r.gateway.rpmsgIn inRpmsg ∧
    Accounts (inNng ++ (r.gateway.calls.filterMap Notification.payload? ++ inRpmsg))
      r.serverTransmitted r.gateway.dropped

/-- From nng to the server nothing is dropped. -/
def Up (r : Route) : Prop :=
  ∃ inRpmsg, Carries r.gateway.thread r.server r.gateway.rpmsgOut inRpmsg ∧
    r.gateway.nngIn.filterMap received = r.serverReceived ++ inRpmsg

/-- What nng has taken and brought. -/
structure ThroughNng (r : Route) : Prop where
  clientOut : r.clientOut = r.clientTransmitted.map (datagramHeader ++ ·)
  gatewayIn : r.gateway.nngIn.Sublist r.clientOut
  clientIn : r.clientIn.Sublist r.gateway.nngOut
  clientReceived : r.clientReceived = r.clientIn.filterMap received

/-- Nobody has crashed or is told to end, and the ends have transmitted requests. -/
structure Safe (r : Route) : Prop where
  serverCrash : r.serverCrash = none
  crash : r.gateway.crash = none
  rpmsgConnection : r.gateway.rpmsgConnection = true
  destruction : r.gateway.destruction = .notYet
  connected : .state .disconnected ∉ r.serverNotified
  fromServer : ∀ payload ∈ r.serverTransmitted, FromServer payload
  fromClient : ∀ payload ∈ r.clientTransmitted, FromClient payload

structure Inv (r : Route) : Prop where
  safe : r.Safe
  nng : r.ThroughNng
  down : r.Down
  up : r.Up

/-- Nothing has been sent yet. -/
theorem New.inv {server : Thread} {gateway : Context} (h : New server gateway) :
    (start server gateway).Inv where
  safe := ⟨rfl, h.started.crash, h.started.rpmsgConnection, h.started.destruction, List.not_mem_nil,
    List.forall_mem_nil _, List.forall_mem_nil _⟩
  nng := ⟨rfl, by rw [start, h.started.nngIn], List.nil_sublist _, rfl⟩
  down := by
    refine ⟨[], [], h.started.nngOut, ?_, ?_⟩
    · rw [start, h.rpmsgIn]
      exact .empty (.inl h.started.recvMsgId)
    · rw [start, h.started.calls, h.started.dropped]
      exact ⟨List.Sublist.refl _, rfl⟩
  up := by
    refine ⟨[], ?_, ?_⟩
    · rw [start, h.started.rpmsgOut]
      exact .empty (.inl h.recvMsgId)
    · rw [start, h.started.nngIn]
      rfl

/-! ## Steps -/

variable {r r' : Route} {payload body : Bytes}

/-- The server sends a request. -/
theorem inv_serverTransmit (h : r.Inv) (hpayload : FromServer payload)
    (hmove : r.move (.serverTransmit reliable payload) = some r') : r'.Inv := by
  obtain ⟨hsafe, hnng, hdown, hup⟩ := h
  obtain ⟨m, hm⟩ := hpayload
  simp only [move, transmit_transmittable hm.transmittable, if_true, Option.some.injEq] at hmove
  subst hmove
  refine ⟨{ hsafe with fromServer := ?_ }, { hnng with }, ?_, ?_⟩
  · exact List.forall_mem_append.mpr ⟨hsafe.fromServer, List.forall_mem_singleton.mpr ⟨m, hm⟩⟩
  · obtain ⟨inNng, inRpmsg, hout, hcarries, haccounts⟩ := hdown
    refine ⟨inNng, inRpmsg ++ [payload], hout, hcarries.transmit hm.transmittable, ?_⟩
    have happend := haccounts.append payload
    simp only [List.append_assoc] at happend
    exact happend
  · obtain ⟨inRpmsg, hcarries, hreceived⟩ := hup
    exact ⟨inRpmsg, hcarries.of_receiver (Rpmsg.sendPartitioned_recvMsgId _ _ _), hreceived⟩

/-- The server gets a message. -/
theorem inv_serverTurn (h : r.Inv) (hmove : r.move .serverTurn = some r') : r'.Inv := by
  obtain ⟨hsafe, hnng, hdown, hup⟩ := h
  obtain ⟨inRpmsg, hcarries, haccounts⟩ := hup
  simp only [move] at hmove
  cases inRpmsg with
  | nil =>
    rw [hcarries.transit_nil] at hmove
    cases hmove
  | cons payload inRpmsg =>
    obtain ⟨notifications, t, rest, hturn, hreceived, hstays, hrest⟩ := hcarries.turn
    have hsame := Rpmsg.Thread.turn_sameSender hturn
    rw [hturn] at hmove
    cases hmove
    refine ⟨{ hsafe with connected := ?_ }, { hnng with }, ?_, ?_⟩
    · rw [List.mem_append, not_or]
      exact ⟨hsafe.connected, hstays⟩
    · obtain ⟨inNng, inRpmsg', hout, hcarries', haccounts'⟩ := hdown
      exact ⟨inNng, inRpmsg', hout, hcarries'.of_sender hsame, haccounts'⟩
    · refine ⟨inRpmsg, hrest, ?_⟩
      simp only [serverReceived, List.filterMap_append, hreceived]
      rw [haccounts, serverReceived, List.append_assoc]
      rfl

variable {aioResult : SendResult}

private theorem inv_clientTransmit (h : r.Inv) (hpayload : FromClient payload)
    (hmove : r.move (.clientTransmit aioResult payload) = some r') : r'.Inv := by
  cases aioResult with
  | timedOut | failure =>
    cases hmove
    exact h
  | success =>
    obtain ⟨hsafe, hnng, hdown, hup⟩ := h
    cases hmove
    refine ⟨{ hsafe with fromClient := ?_ }, { hnng with clientOut := ?_, gatewayIn := ?_ }, hdown, hup⟩
    · exact List.forall_mem_append.mpr ⟨hsafe.fromClient, List.forall_mem_singleton.mpr hpayload⟩
    · rw [List.map_append, ← hnng.clientOut]
      rfl
    · exact hnng.gatewayIn.trans (List.sublist_append_left _ _)

private theorem inv_clientReceive (h : r.Inv) (hbrings : Brings r.gateway.nngOut r.clientIn body)
    (hmove : r.move (.clientReceive body) = some r') : r'.Inv := by
  obtain ⟨hsafe, hnng, hdown, hup⟩ := h
  cases hmove
  refine ⟨{ hsafe with }, { hnng with clientIn := hbrings, clientReceived := ?_ }, hdown, hup⟩
  rw [List.filterMap_append, ← hnng.clientReceived]
  cases hbody : received body <;> simp_all [received]

variable {g : Context}

/-- The gateway gets a message of the server. -/
theorem inv_rpmsgTurn (h : r.Inv) (hmove : r.gateway.move .rpmsgTurn = some g) :
    Inv { r with gateway := g } := by
  obtain ⟨hsafe, hnng, hdown, hup⟩ := h
  have hdestruction := hsafe.destruction
  obtain ⟨inNng, inRpmsg, hout, hcarries, haccounts⟩ := hdown
  by_cases hcalls : r.gateway.calls = []
  · cases inRpmsg with
    | nil =>
      simp only [Context.move, hdestruction, hcalls, hcarries.transit_nil, ne_eq,
        not_true_eq_false, or_self, if_false] at hmove
      cases hmove
    | cons payload inRpmsg =>
      obtain ⟨notifications, t, rest, hturn, hreceived, hstays, hrest⟩ := hcarries.turn
      rw [Context.move_rpmsgTurn hdestruction hcalls hturn] at hmove
      cases hmove
      refine ⟨{ hsafe with }, { hnng with }, ?_, ?_⟩
      · refine ⟨inNng, inRpmsg, hout, hrest, ?_⟩
        rw [hcalls] at haccounts
        show Accounts (inNng ++ (notifications.filterMap Notification.payload? ++ inRpmsg)) _ _
        rw [hreceived]
        exact haccounts
      · obtain ⟨inRpmsg', hcarries', haccounts'⟩ := hup
        exact ⟨inRpmsg', hcarries'.of_sender (Rpmsg.Thread.turn_sameSender hturn), haccounts'⟩
  · simp only [Context.move, hcalls, ne_eq, not_false_eq_true, or_true, if_true] at hmove
    cases hmove

/-- The gateway passes it on to nng, or drops it. -/
theorem inv_rpmsgListener (h : r.Inv) (hmove : r.gateway.move (.rpmsgListener aioResult) = some g) :
    Inv { r with gateway := g } := by
  obtain ⟨hsafe, hnng, hdown, hup⟩ := h
  have hdestruction := hsafe.destruction
  obtain ⟨inNng, inRpmsg, hout, hcarries, haccounts⟩ := hdown
  simp only [Context.move] at hmove
  split at hmove
  · cases hmove
  · next state calls hcalls => -- a state is not passed on
      cases hmove
      rw [hcalls] at haccounts
      exact ⟨{ hsafe with }, { hnng with }, ⟨inNng, inRpmsg, hout, hcarries, haccounts⟩, hup⟩
  · next payload calls hcalls =>
      have halive : r.gateway.destruction ≠ .done := by
        rw [hdestruction]
        decide
      rw [hcalls, List.filterMap_cons_some (show Notification.payload? (.receive payload) = some payload
        from rfl), List.cons_append] at haccounts
      rw [if_neg (by rw [hdestruction]; decide), Option.some.injEq] at hmove
      subst hmove
      have hforward := Context.rpmsgToNngReceiveListener_alive (g := { r.gateway with calls := calls })
        halive aioResult payload
      dsimp only at hforward
      rcases hforward with hnext | hnext
      · rw [hnext] -- nng takes it
        refine ⟨{ hsafe with }, { hnng with clientIn := ?_ }, ⟨inNng ++ [payload], inRpmsg, ?_, hcarries, ?_⟩,
          hup⟩
        · exact hnng.clientIn.trans (List.sublist_append_left _ _)
        · rw [List.map_append, ← hout]
          rfl
        · rw [List.append_assoc]
          exact haccounts
      · rw [hnext] -- nng does not
        exact ⟨{ hsafe with }, { hnng with }, ⟨inNng, inRpmsg, hout, hcarries, haccounts.drop⟩, hup⟩

private theorem inv_nngReceive (h : r.Inv) (hbrings : Brings r.clientOut r.gateway.nngIn body)
    (hmove : r.gateway.move (.nngReceive body reliable) = some g) :
    Inv { r with gateway := g } := by
  obtain ⟨hsafe, hnng, hdown, hup⟩ := h
  obtain ⟨inRpmsg, hcarries, haccounts⟩ := hup
  -- the message is one of those that the client has transmitted
  obtain ⟨payload, hpayload, rfl⟩ : ∃ payload ∈ r.clientTransmitted, datagramHeader ++ payload = body := by
    rw [← List.mem_map, ← hnng.clientOut]
    exact hbrings.subset (List.mem_append_right _ (List.mem_singleton.mpr rfl))
  obtain ⟨m, hm⟩ := hsafe.fromClient payload hpayload
  have hfree : ¬ (r.gateway.destruction.locked = true ∨ r.gateway.destruction = .done) := by
    rw [hsafe.destruction]
    decide
  have hfreed : ¬ r.gateway.destruction.rpmsgFreed = true := by
    rw [hsafe.destruction]
    decide
  simp only [Context.move, if_neg hfree, recvAsyncCallback_header, Context.nngToRpmsgReceiveListener,
    if_pos hsafe.rpmsgConnection, if_neg hfreed, transmit_transmittable hm.transmittable,
    Option.some.injEq] at hmove
  subst hmove
  refine ⟨{ hsafe with }, { hnng with gatewayIn := hbrings }, ?_, ?_⟩
  · obtain ⟨inNng, inRpmsg', hout, hcarries', haccounts'⟩ := hdown
    exact ⟨inNng, inRpmsg', hout, hcarries'.of_receiver (Rpmsg.sendPartitioned_recvMsgId _ _ _),
      haccounts'⟩
  · refine ⟨inRpmsg ++ [payload], hcarries.transmit hm.transmittable, ?_⟩
    show (r.gateway.nngIn ++ [datagramHeader ++ payload]).filterMap received =
      r.serverReceived ++ (inRpmsg ++ [payload])
    rw [List.filterMap_append, haccounts, List.append_assoc]
    rfl

/-- Every allowed step keeps the invariant. -/
theorem inv_step {a : Action} (h : r.Inv) (hallowed : r.Allowed a) (hstep : r.step a = some r') :
    r'.Inv := by
  rw [step, if_neg (by rw [h.safe.serverCrash]; decide)] at hstep
  cases a with
  | serverTransmit transport payload =>
    obtain ⟨rfl, hpayload⟩ := hallowed
    exact inv_serverTransmit h hpayload hstep
  | serverTurn => exact inv_serverTurn h hstep
  | clientTransmit aioResult payload => exact inv_clientTransmit h hallowed hstep
  | clientReceive body => exact inv_clientReceive h hallowed hstep
  | gateway a =>
    obtain ⟨g, hg, rfl⟩ := Option.map_eq_some_iff.mp hstep
    obtain ⟨_, hmove⟩ := Context.step_eq_some.mp hg
    cases a with
    | rpmsgTurn => exact inv_rpmsgTurn h hmove
    | rpmsgListener aioResult => exact inv_rpmsgListener h hmove
    | nngState state =>
      simp only [Context.move] at hmove
      split at hmove <;> cases hmove
      exact ⟨{ h.safe with }, { h.nng with }, h.down, h.up⟩
    | nngReceive body transport =>
      obtain ⟨rfl, hbrings⟩ := hallowed
      exact inv_nngReceive h hbrings hmove
    | destroy | rpmsgThreadEnds transport | joined | nngDestroyed => exact hallowed.elim

/-! ## Runs -/

/-- Nothing is on its way from the server to the client, and nng has brought all that it has taken. -/
def DownQuiet (r : Route) : Prop :=
  r.gateway.rpmsgIn = [] ∧ r.gateway.calls = [] ∧ r.clientIn = r.gateway.nngOut

/-- Nothing is on its way from the client to the server, and nng has brought all that it has taken. -/
def UpQuiet (r : Route) : Prop := r.gateway.nngIn = r.clientOut ∧ r.gateway.rpmsgOut = []

/-- The client receives what the server has sent, in this order. -/
theorem Inv.clientReceived_sublist (h : r.Inv) : r.clientReceived.Sublist r.serverTransmitted := by
  obtain ⟨inNng, inRpmsg, hout, -, hsublist, -⟩ := h.down
  have hin : r.clientReceived.Sublist inNng := by
    rw [h.nng.clientReceived, ← filterMap_received inNng, ← hout]
    exact h.nng.clientIn.filterMap _
  exact (hin.trans (List.sublist_append_left _ _)).trans hsublist

theorem Inv.clientReceived_eq (h : r.Inv) (hkept : r.gateway.dropped = 0) (hquiet : r.DownQuiet) :
    r.clientReceived = r.serverTransmitted := by
  obtain ⟨hrpmsg, hcalls, hnng⟩ := hquiet
  obtain ⟨inNng, inRpmsg, hout, hcarries, hsublist, hlength⟩ := h.down
  rw [hrpmsg] at hcarries
  rw [hkept, Nat.add_zero] at hlength
  rw [h.nng.clientReceived, hnng, hout, filterMap_received, ← hsublist.eq_of_length hlength, hcalls,
    hcarries.payloads_nil]
  exact (List.append_nil _).symm

/-- The server receives what the client has sent, in this order. -/
theorem Inv.serverReceived_sublist (h : r.Inv) : r.serverReceived.Sublist r.clientTransmitted := by
  obtain ⟨inRpmsg, -, hreceived⟩ := h.up
  have hin := h.nng.gatewayIn.filterMap received
  rw [hreceived, h.nng.clientOut, filterMap_received] at hin
  exact (List.sublist_append_left _ _).trans hin

private theorem Inv.serverReceived_eq (h : r.Inv) (hquiet : r.UpQuiet) :
    r.serverReceived = r.clientTransmitted := by
  obtain ⟨hnng, hrpmsg⟩ := hquiet
  obtain ⟨inRpmsg, hcarries, hreceived⟩ := h.up
  rw [hrpmsg] at hcarries
  rw [hnng, h.nng.clientOut, filterMap_received, hcarries.payloads_nil, List.append_nil] at hreceived
  exact hreceived.symm

/-- The server takes an item back and the client switches one on, after a request that nng has lost;
this one is on its way to the server. -/
def firstRequests : List Action :=
  [.serverTransmit reliable [26, 2, 8, 5], .clientTransmit .success [18, 6, 8, 4, 18, 2, 16, 1],
    .clientTransmit .success [18, 6, 8, 3, 18, 2, 16, 1], .gateway (.nngState .connected),
    .gateway (.nngReceive (datagramHeader ++ [18, 6, 8, 3, 18, 2, 16, 1]) reliable)]

private theorem fromClient_switch (id : BitVec 64) {payload : Bytes}
    (hencode : Message.encode (.fromClient (.changeItem ⟨id, .bool true⟩)) = some payload)
    (hsize : payload.length < maxPacketSize) : FromClient payload := by
  refine ⟨.changeItem ⟨id, .bool true⟩, ⟨List.forall_mem_nil _, fun v hv => ?_⟩, hencode, hsize⟩
  rw [List.mem_singleton.mp hv]
  exact .inl trivial

theorem firstRequests_allowed :
    Along step Allowed (start Rpmsg.newThread Context.newContext) firstRequests := by
  have hserver : FromServer [26, 2, 8, 5] :=
    ⟨.removeItem 5, ⟨List.forall_mem_nil _, List.forall_mem_nil _⟩, by decide, by decide⟩
  refine ⟨⟨rfl, hserver⟩, fromClient_switch 4 (by decide) (by decide),
    fromClient_switch 3 (by decide) (by decide), trivial, ⟨rfl, ?_⟩, trivial⟩
  exact List.sublist_cons_self _ _

theorem newContext_new : New Rpmsg.newThread Context.newContext :=
  ⟨⟨rfl, rfl, rfl, rfl, rfl, rfl, rfl, rfl, rfl⟩, rfl, rfl⟩

/-- The server takes its turn after that. -/
theorem firstRequests_serverTurn :
    ∃ r, run step (start Rpmsg.newThread Context.newContext) (firstRequests ++ [.serverTurn]) = some r ∧
      r.serverReceived = [[18, 6, 8, 3, 18, 2, 16, 1]] := by
  obtain ⟨r, hrun, hcrash, hnotified, hnng⟩ :
      ∃ r, run step (start Rpmsg.newThread Context.newContext) firstRequests = some r ∧
        r.serverCrash = none ∧ r.serverNotified = [] ∧
        r.gateway.nngIn = [[18, 6, 8, 3, 18, 2, 16, 1]].map (datagramHeader ++ ·) :=
    ⟨_, rfl, rfl, rfl, rfl⟩
  have hinv : r.Inv := run_invariant_along inv_step newContext_new.inv firstRequests_allowed hrun
  obtain ⟨inRpmsg, hcarries, hreceived⟩ := hinv.up
  rw [hnng, filterMap_received, serverReceived, hnotified, List.filterMap_nil, List.nil_append]
    at hreceived
  subst hreceived
  obtain ⟨notifications, t, rest, hturn, hpayloads, -, -⟩ := hcarries.turn
  refine ⟨{ r with server := t, gateway := { r.gateway with rpmsgOut := rest }
                   serverNotified := r.serverNotified ++ notifications }, ?_, ?_⟩
  · rw [run_append, hrun, Option.bind_some, run_cons_of, run_nil]
    rw [step, if_neg (by rw [hcrash]; decide), move, hturn]
  · rw [serverReceived, hnotified, List.nil_append, hpayloads]

end Route

end TweakTool.Gateway
