import TweakTool.Wire.Transit
import TweakTool.Wire.NngTransfer
import TweakTool.Lib.Run

/-! # The gateway

`tweak-gw` connects a server behind a rpmsg connection with clients behind a nng connection: what
one receives is transmitted on the other. The listeners run on threads of the two transports and
exclude each other with a lock, which `destroy_tweak_gw_context` takes as well; it keeps it until the
receive thread of the rpmsg connection has ended.

The model begins when `main` has made both connections and waits for a signal. A listener is one
step, as it does nothing outside of its critical section; only the receive thread of the rpmsg
connection, which is joined, is followed to the point where it waits for the lock. -/

namespace TweakTool.Gateway

open TweakTool.Lib
open TweakTool.Wire
open TweakTool.Wire.Rpmsg (Event Notification Thread ErrorCode tweakWireRpmsgTransmit sendPartitioned
  sendDisconnected)
open TweakTool.Wire.Nng (SendResult recvAsyncCallback tweakWireNngTransmit)

inductive Crash where
  | rpmsg (crash : Rpmsg.Crash) -- in the rpmsg connection
  | freedConnection -- a connection is used after its destruction
  deriving DecidableEq

/-- Where `destroy_tweak_gw_context` stands. -/
inductive Destruction where
  | notYet
  /-- It holds the lock, has made `rpmsg_connection` invalid and waits for the receive thread. -/
  | joining
  | ended -- it holds the lock, and the receive thread has ended
  | unlocked -- the rpmsg connection is destroyed, and the lock released
  | done
  deriving DecidableEq

namespace Destruction

def locked (d : Destruction) : Bool := d = joining || d = ended

/-- The receive thread of the rpmsg connection has ended. -/
def threadEnded (d : Destruction) : Bool := d = ended || d = unlocked || d = done

/-- The rpmsg connection has been freed. -/
def rpmsgFreed (d : Destruction) : Bool := d = unlocked || d = done

end Destruction

/-- `tweak_gw_context` with its two connections. What is on its way on the rpmsg side is part of the
state; of nng, which is another library, only what it has brought and taken. -/
structure Context where
  rpmsgConnection : Bool -- `rpmsg_connection` is not `TWEAK_WIRE_INVALID_CONNECTION`
  thread : Thread -- the rpmsg connection and its receive thread
  /-- what the receive thread has still to tell its listeners before it takes its next turn -/
  calls : List Notification
  nngConnectionState : Nng.State
  destruction : Destruction
  rpmsgIn : List Event
  rpmsgOut : List Event
  nngIn : List Bytes -- the messages that nng has brought
  nngOut : List Bytes -- the messages that nng has taken
  dropped : Nat -- the messages from the rpmsg side that were not transmitted on the nng side
  crash : Option Crash

namespace Context

def rpmsgToNngReceiveListener (g : Context) (aioResult : SendResult) (buffer : Bytes) : Context :=
  if g.nngConnectionState = .connected then
    if g.destruction = .done then { g with crash := some .freedConnection }
    else
      match tweakWireNngTransmit false true aioResult buffer with
      | (_, some message) => { g with nngOut := g.nngOut ++ [message] }
      | (_, none) => { g with dropped := g.dropped + 1 }
  else { g with dropped := g.dropped + 1 }

def nngToRpmsgReceiveListener (g : Context) (transport : Nat → ErrorCode) (buffer : Bytes) : Context :=
  if g.rpmsgConnection then
    if g.destruction.rpmsgFreed then { g with crash := some .freedConnection }
    else
      match tweakWireRpmsgTransmit transport true g.thread.connection buffer with
      | .error crash => { g with crash := some (.rpmsg crash) }
      | .ok (_, sent, c) =>
        { g with thread := { g.thread with connection := c }
                 rpmsgOut := g.rpmsgOut ++ sent.map .datagram }
  else g

inductive Action where
  | rpmsgTurn -- the receive thread of the rpmsg connection gets a message
  | rpmsgListener (aioResult : SendResult) -- it calls the next listener
  | nngState (state : Nng.State) -- `nng_connection_state_listener`
  | nngReceive (body : Bytes) (transport : Nat → ErrorCode) -- nng calls back with a message
  | destroy -- `destroy_tweak_gw_context` takes the lock and aborts the receive thread
  /-- the receive thread says goodbye to its peer, and ends -/
  | rpmsgThreadEnds (transport : Nat → ErrorCode)
  | joined -- `destroy_tweak_gw_context` has joined the thread and releases the lock
  | nngDestroyed

/-- One step of a gateway that has not crashed; `none` where the thread it belongs to does not stand
there, or waits for the lock. -/
def move (g : Context) : Action → Option Context
  | .rpmsgTurn =>
    if g.destruction ≠ .notYet ∨ g.calls ≠ [] then none
    else
      match g.thread.turn true g.rpmsgIn with
      | none => none
      | some (_, .error crash, _) => some { g with crash := some (.rpmsg crash) }
      | some (_, .ok (notifications, t), rest) =>
        some { g with thread := t, calls := notifications, rpmsgIn := rest }
  | .rpmsgListener aioResult =>
    match g.calls with
    | [] => none
    -- `rpmsg_connection_state_listener` only writes to the log
    | .state _ :: calls => some { g with calls := calls }
    | .receive payload :: calls =>
      if g.destruction.locked then none
      else some ({ g with calls := calls }.rpmsgToNngReceiveListener aioResult payload)
  | .nngState state =>
    if g.destruction.locked ∨ g.destruction = .done then none
    else some { g with nngConnectionState := state }
  | .nngReceive body transport =>
    if g.destruction.locked ∨ g.destruction = .done then none
    else
      let g := { g with nngIn := g.nngIn ++ [body] }
      match (recvAsyncCallback false (.message body)).1 with
      | none => some g
      | some payload => some (g.nngToRpmsgReceiveListener transport payload)
  | .destroy =>
    if g.destruction = .notYet then some { g with rpmsgConnection := false, destruction := .joining }
    else none
  | .rpmsgThreadEnds transport =>
    if g.destruction = .joining ∧ g.calls = [] then
      let (_, sent, c) := sendPartitioned transport g.thread.connection sendDisconnected
      some { g with
        thread := { g.thread with connection := c }
        destruction := .ended
        rpmsgOut := g.rpmsgOut ++ sent.map .datagram }
    else none
  | .joined => if g.destruction = .ended then some { g with destruction := .unlocked } else none
  | .nngDestroyed => if g.destruction = .unlocked then some { g with destruction := .done } else none

def step (g : Context) (a : Action) : Option Context := if g.crash.isSome then none else g.move a

/-- Both connections are made, and nothing has been received or sent. -/
structure Started (g : Context) : Prop where
  rpmsgConnection : g.rpmsgConnection = true
  recvMsgId : g.thread.connection.recvMsgId = 0
  calls : g.calls = []
  destruction : g.destruction = .notYet
  rpmsgOut : g.rpmsgOut = []
  nngIn : g.nngIn = []
  nngOut : g.nngOut = []
  dropped : g.dropped = 0
  crash : g.crash = none

variable {g g' : Context} {a : Action}

/-- After a crash there are no steps. -/
theorem step_eq_some : g.step a = some g' ↔ g.crash = none ∧ g.move a = some g' := by
  rw [step]
  cases g.crash <;> simp

/-- The receive thread gets a message and is going to tell its listeners. -/
theorem move_rpmsgTurn {t : Thread} {code : ErrorCode} {rest : List Event}
    {notifications : List Notification} (hdestruction : g.destruction = .notYet) (hcalls : g.calls = [])
    (hturn : g.thread.turn true g.rpmsgIn = some (code, .ok (notifications, t), rest)) :
    g.move .rpmsgTurn = some { g with thread := t, calls := notifications, rpmsgIn := rest } := by
  simp only [move, hdestruction, hcalls, hturn, ne_eq, not_true_eq_false, or_self, if_false]

private theorem move_destroy (h : g.destruction = .notYet) :
    g.move .destroy = some { g with rpmsgConnection := false, destruction := .joining } := if_pos h

/-- A message is forwarded or dropped. -/
theorem rpmsgToNngReceiveListener_alive (h : g.destruction ≠ .done) (aioResult : SendResult)
    (buffer : Bytes) : g.rpmsgToNngReceiveListener aioResult buffer =
        { g with nngOut := g.nngOut ++ [Nng.datagramHeader ++ buffer] } ∨
      g.rpmsgToNngReceiveListener aioResult buffer = { g with dropped := g.dropped + 1 } := by
  rw [rpmsgToNngReceiveListener, if_neg h]
  split
  · cases aioResult with
    | success => exact .inl rfl
    | timedOut | failure => exact .inr rfl
  · exact .inr rfl

/-! ## Destruction -/

/-- The receive thread has nothing to tell any more when it has ended; the rpmsg connection is not
reachable once its destruction has begun; and no connection has been used after its destruction. -/
structure Quiet (g : Context) : Prop where
  idle : g.destruction.threadEnded = true → g.calls = []
  valid : g.rpmsgConnection = true → g.destruction = .notYet
  safe : g.crash ≠ some .freedConnection

/-- What a step does to the receive thread and the destruction. -/
inductive Effect (g g' : Context) : Prop where
  | other (destruction : g'.destruction = g.destruction) (valid : g'.rpmsgConnection = g.rpmsgConnection)
      (calls : g'.calls = g.calls ∨ g.destruction = .notYet)
      (crash : g'.crash = some .freedConnection →
        g.rpmsgConnection = true ∧ g.destruction.rpmsgFreed = true)
  | told (notification : Notification) (calls : g.calls = notification :: g'.calls)
      (lock : g.destruction.locked = true → ∃ state, notification = .state state)
      (destruction : g'.destruction = g.destruction) (valid : g'.rpmsgConnection = g.rpmsgConnection)
      (crash : g.destruction ≠ .done → g'.crash ≠ some .freedConnection)
  | locked (before : g.destruction = .notYet) (after : g'.destruction = .joining)
      (valid : g'.rpmsgConnection = false) (crash : g'.crash ≠ some .freedConnection)
  | ended (before : g.destruction = .joining) (valid : g'.rpmsgConnection = g.rpmsgConnection)
      (calls : g'.calls = []) (idle : g.calls = []) (crash : g'.crash ≠ some .freedConnection)
  | later (before : g.destruction.threadEnded = true) (valid : g'.rpmsgConnection = g.rpmsgConnection)
      (calls : g'.calls = g.calls) (crash : g'.crash ≠ some .freedConnection)

private theorem effect_nngReceive {body : Bytes} {transport : Nat → ErrorCode}
    (hsafe : g.crash ≠ some .freedConnection)
    (h : g.move (.nngReceive body transport) = some g') : Effect g g' := by
  simp only [move] at h
  split at h
  · cases h
  split at h
  · cases h
    exact .other rfl rfl (.inl rfl) (absurd · hsafe)
  cases h
  simp only [nngToRpmsgReceiveListener]
  split
  · next hvalid =>
      split
      · next hfreed => exact .other rfl rfl (.inl rfl) fun _ => ⟨hvalid, hfreed⟩
      · split
        · exact .other rfl rfl (.inl rfl) (by rintro ⟨⟩)
        · exact .other rfl rfl (.inl rfl) (absurd · hsafe)
  · exact .other rfl rfl (.inl rfl) (absurd · hsafe)

/-- A listener is called. -/
theorem effect_rpmsgListener {aioResult : SendResult} (hsafe : g.crash ≠ some .freedConnection)
    (h : g.move (.rpmsgListener aioResult) = some g') : Effect g g' := by
  simp only [move] at h
  split at h
  · cases h
  · next state calls hcalls =>
      cases h
      exact .told _ hcalls (fun _ => ⟨state, rfl⟩) rfl rfl fun _ => hsafe
  · next payload calls hcalls =>
      split at h
      · cases h
      next hfree =>
      cases h
      simp only [rpmsgToNngReceiveListener]
      split
      · split
        · next hdone => exact .told _ hcalls (absurd · hfree) rfl rfl (absurd hdone)
        · split <;> exact .told _ hcalls (absurd · hfree) rfl rfl fun _ => hsafe
      · exact .told _ hcalls (absurd · hfree) rfl rfl fun _ => hsafe

private theorem step_effect (h : g.step a = some g') : Effect g g' := by
  obtain ⟨hcrash, h⟩ := step_eq_some.mp h
  have hsafe : g.crash ≠ some .freedConnection := by
    rw [hcrash]
    decide
  cases a with
  | rpmsgListener aioResult => exact effect_rpmsgListener hsafe h
  | nngReceive body transport => exact effect_nngReceive hsafe h
  | rpmsgTurn =>
    simp only [move] at h
    split at h
    · cases h
    next hready =>
    rw [not_or, not_not] at hready
    split at h
    · cases h
    · cases h
      exact .other rfl rfl (.inr hready.1) (by rintro ⟨⟩)
    · cases h
      exact .other rfl rfl (.inr hready.1) (absurd · hsafe)
  | nngState state =>
    simp only [move] at h
    split at h <;> cases h
    exact .other rfl rfl (.inl rfl) (absurd · hsafe)
  | destroy =>
    simp only [move] at h
    split at h <;> cases h
    next hnotYet => exact .locked hnotYet rfl rfl hsafe
  | rpmsgThreadEnds transport =>
    simp only [move] at h
    split at h <;> cases h
    next hidle => exact .ended hidle.1 rfl hidle.2 hidle.2 hsafe
  | joined | nngDestroyed =>
    simp only [move] at h
    split at h <;> cases h
    next hbefore => exact .later (by rw [hbefore]; rfl) rfl rfl hsafe

private theorem Quiet.step (h : g.Quiet) (hstep : g.step a = some g') : g'.Quiet := by
  obtain ⟨hended, hvalid, _⟩ := h
  -- a destruction that has begun has left no connection to use
  have hinvalid (hbegun : g.destruction ≠ .notYet) (hsame : g'.rpmsgConnection = g.rpmsgConnection) :
      g'.rpmsgConnection = true → g'.destruction = .notYet :=
    fun h => absurd (hvalid (hsame ▸ h)) hbegun
  cases step_effect hstep with
  | other destruction valid calls crash =>
    refine ⟨fun h => ?_, fun h => destruction.trans (hvalid (valid ▸ h)), fun h => ?_⟩
    · rw [destruction] at h
      rcases calls with calls | hnotYet
      · rw [calls, hended h]
      · rw [hnotYet] at h
        cases h
    · obtain ⟨hconnection, hfreed⟩ := crash h
      rw [hvalid hconnection] at hfreed
      cases hfreed
  | told notification calls lock destruction valid crash =>
    -- the thread that calls a listener has not ended, so the nng connection is still there
    have hrunning : g.destruction.threadEnded ≠ true := by
      intro h
      rw [hended h] at calls
      cases calls
    refine ⟨fun h => absurd (destruction ▸ h) hrunning,
      fun h => destruction.trans (hvalid (valid ▸ h)), crash fun hdone => hrunning ?_⟩
    rw [hdone]
    rfl
  | locked before after valid crash =>
    refine ⟨fun h => ?_, fun h => ?_, crash⟩
    · rw [after] at h
      cases h
    · rw [valid] at h
      cases h
  | ended before valid calls idle crash =>
    exact ⟨fun _ => calls, hinvalid (by rw [before]; decide) valid, crash⟩
  | later before valid calls crash =>
    refine ⟨fun _ => calls.trans (hended before), hinvalid (fun h => ?_) valid, crash⟩
    rw [h] at before
    cases before

/-- The receive thread waits for the lock that `destroy_tweak_gw_context` holds. -/
def Deadlocked (g : Context) : Prop :=
  g.destruction = .joining ∧ ∃ payload, .receive payload ∈ g.calls

/-- Nobody can end the deadlock. -/
theorem Deadlocked.step (h : g.Deadlocked) (hstep : g.step a = some g') : g'.Deadlocked := by
  obtain ⟨hjoining, payload, hwaits⟩ := h
  cases step_effect hstep with
  | other destruction valid calls crash =>
    refine ⟨destruction.trans hjoining, payload, ?_⟩
    rcases calls with calls | hnotYet
    · rw [calls]
      exact hwaits
    · rw [hjoining] at hnotYet
      cases hnotYet
  | told notification calls lock destruction valid crash =>
    refine ⟨destruction.trans hjoining, payload, ?_⟩
    obtain ⟨state, rfl⟩ := lock (by rw [hjoining]; rfl)
    rw [calls, List.mem_cons] at hwaits
    exact hwaits.resolve_left (by rintro ⟨⟩)
  | locked before after valid crash =>
    rw [hjoining] at before
    cases before
  | ended before valid calls idle crash =>
    rw [idle] at hwaits
    cases hwaits
  | later before valid calls crash =>
    rw [hjoining] at before
    cases before

/-- Without a message that waits, the thread ends and the destruction comes to its end. -/
theorem destruction_completes : ∀ {calls : List Notification} {g : Context}, g.calls = calls →
    g.crash = none → g.destruction = .joining → (∀ payload, .receive payload ∉ calls) →
    ∃ actions g', run Context.step g actions = some g' ∧ g'.destruction = .done
  | [], g, hcalls, hcrash, hjoining, _ => by
    refine ⟨[.rpmsgThreadEnds Rpmsg.reliable, .joined, .nngDestroyed], ?_⟩
    simp only [run, Context.step, move, hcrash, hcalls, hjoining, Option.isSome_none,
      Bool.false_eq_true, if_false, and_self, if_true]
    exact ⟨_, rfl, rfl⟩
  | .state state :: calls, g, hcalls, hcrash, hjoining, hstates => by
    obtain ⟨actions, g', hrun, hdone⟩ := destruction_completes (g := { g with calls := calls }) rfl
      hcrash hjoining fun payload h => hstates payload (List.mem_cons_of_mem _ h)
    refine ⟨.rpmsgListener .success :: actions, g', ?_, hdone⟩
    rw [run_cons_of (t := { g with calls := calls })]
    · exact hrun
    · exact step_eq_some.mpr ⟨hcrash, by simp only [move, hcalls]⟩
  | .receive payload :: calls, _, _, _, _, hstates => absurd List.mem_cons_self (hstates payload)

/-- **The end of the gateway.** No connection is used after its destruction, in whatever order the
threads take their steps. Once `destroy_tweak_gw_context` has taken the lock it can come to its end
exactly if no message from the rpmsg side waits for the lock: the receive thread is joined under it. -/
theorem destroy_safe_and_completes_iff {g₀ : Context} {actions : List Action} (hstarted : g₀.Started)
    (hrun : run Context.step g₀ actions = some g) :
    g.crash ≠ some .freedConnection ∧
      (g.crash = none → g.destruction = .joining →
        ((∃ later g', run Context.step g later = some g' ∧ g'.destruction = .done) ↔
          ∀ payload, .receive payload ∉ g.calls)) := by
  have hquiet₀ : g₀.Quiet := by
    refine ⟨fun _ => hstarted.calls, fun _ => hstarted.destruction, ?_⟩
    rw [hstarted.crash]
    decide
  have hquiet : g.Quiet := run_invariant Quiet.step hquiet₀ hrun
  refine ⟨hquiet.safe, fun hcrash hjoining => ⟨?_, destruction_completes rfl hcrash hjoining⟩⟩
  rintro ⟨later, g', hlater, hdone⟩ payload hwaits
  have hstuck : g'.Deadlocked := run_invariant Deadlocked.step ⟨hjoining, payload, hwaits⟩ hlater
  exact absurd (hdone.symm.trans hstuck.1) (by decide)

def newContext : Context :=
  ⟨true, Rpmsg.newThread, [], .disconnected, .notYet, [], [], [], [], 0, none⟩

def busyContext : Context :=
  { newContext with
    rpmsgIn := (sendPartitioned Rpmsg.reliable Rpmsg.newThread.connection [7]).2.1.map .datagram }

theorem busyContext_turn : ∃ notifications t rest, busyContext.thread.turn true busyContext.rpmsgIn =
    some (.success, .ok (notifications, t), rest) ∧ .receive [7] ∈ notifications := by
  have hcarries := (Rpmsg.Carries.empty (s := Rpmsg.newThread) (r := Rpmsg.newThread)
    (.inl rfl)).transmit (show Rpmsg.Transmittable [7] by decide)
  obtain ⟨notifications, t, rest, hturn, hreceived, _⟩ := hcarries.turn
  refine ⟨notifications, t, rest, hturn, ?_⟩
  have hmem : [7] ∈ notifications.filterMap Notification.payload? := by
    rw [hreceived]
    exact List.mem_singleton.mpr rfl
  obtain ⟨notification, hmem, hpayload⟩ := List.mem_filterMap.mp hmem
  cases notification with
  | state state => cases hpayload
  | receive payload =>
    cases hpayload
    exact hmem

/-- A message of a client comes when the rpmsg connection has just been freed. -/
def lateMessage : List Action :=
  [.nngReceive (Nng.datagramHeader ++ [7]) Rpmsg.reliable, .destroy, .rpmsgThreadEnds Rpmsg.reliable,
    .joined, .nngReceive (Nng.datagramHeader ++ [8]) Rpmsg.reliable]

/-- The message of the server arrives just before the signal to end, or one of a client after it. -/
theorem destroy_safe_and_completes_iff_busyContext :
    (∃ g, run Context.step busyContext [.rpmsgTurn, .destroy] = some g ∧
      ¬ ∃ later g', run Context.step g later = some g' ∧ g'.destruction = .done) ∧
    ∃ g, run Context.step newContext lateMessage = some g ∧ g.nngIn.length = 2 ∧
      g.crash ≠ some .freedConnection := by
  have hnew : newContext.Started := ⟨rfl, rfl, rfl, rfl, rfl, rfl, rfl, rfl, rfl⟩
  obtain ⟨g, hlate⟩ : ∃ g, run Context.step newContext lateMessage = some g := ⟨_, rfl⟩
  have hlength : (run Context.step newContext lateMessage).map (·.nngIn.length) = some 2 := rfl
  rw [hlate] at hlength
  refine ⟨?_, g, hlate, Option.some.inj hlength, (destroy_safe_and_completes_iff hnew hlate).1⟩
  obtain ⟨notifications, t, rest, hturn, hwaits⟩ := busyContext_turn
  have hrun : run Context.step busyContext [.rpmsgTurn, .destroy] = some { busyContext with
      rpmsgConnection := false, thread := t, calls := notifications, rpmsgIn := rest
      destruction := .joining } := by
    rw [run_cons_of (step_eq_some.mpr ⟨rfl, move_rpmsgTurn (g := busyContext) rfl rfl hturn⟩),
      run_cons_of (step_eq_some.mpr ⟨rfl, move_destroy rfl⟩), run_nil]
  have hstarted : busyContext.Started := ⟨rfl, rfl, rfl, rfl, rfl, rfl, rfl, rfl, rfl⟩
  exact ⟨_, hrun, fun h => ((destroy_safe_and_completes_iff hstarted hrun).2 rfl rfl).mp h [7] hwaits⟩

end Context

end TweakTool.Gateway
