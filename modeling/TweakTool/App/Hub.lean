import TweakTool.App.Process
import TweakTool.App.View
import TweakTool.Lib.Run
import Mathlib.Data.Fintype.Basic
import Mathlib.Data.Fintype.Sets

/-! # The hub

One server and any number of clients. What the server sends reaches every client that is attached at
that time. Clients attach, detach and attach again; the server is told of a connection when the
first one attaches and of its loss when the last one detaches (`tweakwire_nng.c`), by threads of the
transport that may be late. A client that attaches resets its model. -/

namespace TweakTool.App

open TweakTool.Lib

structure Peer (ι : Type) where
  process : ClientProcess ι
  attached : Bool
  toClient : List ServerMessage
  toServer : List ClientMessage
  aborted : Option Fatal -- how the client has ended

/-- A server and the clients `γ`, whose applications have the threads `ι`. -/
structure Hub (ι γ : Type) where
  server : ServerProcess ι
  peers : γ → Peer ι
  peersCount : Nat
  notices : List Bool -- the connection states that are still to be reported to the server

namespace Peer

variable {ι : Type}

def init : Peer ι := ⟨.init, false, [], [], none⟩

/-- The connection is there, and `client_connection_state_pickle_impl` has reset the model. -/
def attach (peer : Peer ι) : Peer ι :=
  { peer with
    process := { peer.process with
      impl := { peer.process.impl with remotePeerFeatures := .initMinimal, modelImpl := .empty }
      connection := .connecting }
    attached := true
    toClient := [] }

/-- The connection is lost. What the client has sent may still arrive. -/
def detach (peer : Peer ι) : Peer ι :=
  { peer with
    process := { peer.process with
      impl := { peer.process.impl with connected := false }
      connection := .disconnected }
    attached := false
    toClient := [] }

def receive (peer : Peer ι) : Option (Peer ι) :=
  match peer.toClient with
  | [] => none
  | message :: toClient =>
    match peer.process.receive message with
    | .ok process => some { peer with process := process, toClient := toClient }
    | .error fatal => some { peer with toClient := toClient, aborted := some fatal }

def send (peer : Peer ι) (message : Option ServerMessage) : Peer ι :=
  if peer.attached then { peer with toClient := peer.toClient ++ message.toList } else peer

end Peer

namespace Hub

variable {ι γ : Type}

def init : Hub ι γ := ⟨.init, fun _ => .init, 0, []⟩

inductive Action (ι γ : Type) where
  | attach (client : γ)
  | detach (client : γ)
  | notify (isConnected : Bool)
  | addItem (thread : ι) (alloc : Allocations) (new : NewItem)
  | removeItem (thread : ι) (id : TweakId)
  | replaceCurrentValue (thread : ι) (id : TweakId) (value : Variant)
  | application (thread : ι) (drop : Bool)
  | serverReceive (client : γ)
  | serverReceiver (drop : Bool)
  | serverWorker
  | clientConnection (client : γ) (drop : Bool)
  | clientReceive (client : γ)
  | clientWorker (client : γ)
  | clientReplace (client : γ) (thread : ι) (id : TweakId) (value : Variant)
  | clientCall (client : γ) (thread : ι) (drop : Bool)

section Step

variable [DecidableEq ι] [DecidableEq γ]

def setPeer (h : Hub ι γ) (client : γ) (peer : Peer ι) : Hub ι γ :=
  { h with peers := Function.update h.peers client peer }

def stepPeer (h : Hub ι γ) (client : γ) (next : Peer ι → Option (Peer ι)) : Option (Hub ι γ) :=
  if (h.peers client).aborted.isSome then none
  else (next (h.peers client)).map (h.setPeer client)

def step (h : Hub ι γ) : Action ι γ → Option (Hub ι γ)
  | .attach client =>
    (h.stepPeer client fun peer => if peer.attached then none else some peer.attach).map
      fun h' =>
        { h' with
          peersCount := h.peersCount + 1
          notices := if h.peersCount = 0 then h.notices ++ [true] else h.notices }
  | .detach client =>
    (h.stepPeer client fun peer => if peer.attached then some peer.detach else none).map
      fun h' =>
        { h' with
          peersCount := h.peersCount - 1
          notices := if h.peersCount = 1 then h.notices ++ [false] else h.notices }
  | .notify isConnected =>
    if isConnected ∈ h.notices then
      some { h with
        server := h.server.connectionState isConnected
        notices := h.notices.erase isConnected }
    else none
  | .addItem thread alloc new => (h.server.addItem thread alloc new).map fun p => { h with server := p }
  | .removeItem thread id => (h.server.removeItem thread id).map fun p => { h with server := p }
  | .replaceCurrentValue thread id value =>
    (h.server.replaceCurrentValue thread id value).map fun p => { h with server := p }
  | .application thread drop => (h.server.proceed thread drop).map fun p => { h with server := p }
  | .serverReceive client =>
    match (h.peers client).toServer with
    | [] => none
    | message :: toServer =>
      (h.server.receive message).map fun p =>
        ({ h with server := p }).setPeer client { h.peers client with toServer := toServer }
  | .serverReceiver drop => (h.server.receiverPush drop).map fun p => { h with server := p }
  | .serverWorker =>
    h.server.work.map fun (message, p) =>
      { h with server := p, peers := fun client => (h.peers client).send message }
  | .clientConnection client drop =>
    h.stepPeer client fun peer =>
      if peer.attached then (peer.process.connect drop).map fun c => { peer with process := c }
      else none
  | .clientReceive client => h.stepPeer client Peer.receive
  | .clientWorker client =>
    h.stepPeer client fun peer =>
      peer.process.work.map fun (message, c) =>
        { peer with
          process := c
          toServer := if peer.attached then peer.toServer ++ message.toList else peer.toServer }
  | .clientReplace client thread id value =>
    h.stepPeer client fun peer =>
      (peer.process.replaceCurrentValue thread id value).map fun c => { peer with process := c }
  | .clientCall client thread drop =>
    h.stepPeer client fun peer =>
      (peer.process.proceed thread drop).map fun c => { peer with process := c }

end Step

end Hub

/-! ## Declarations on their way -/

def ModelImpl.declarations (m : ModelImpl) : List Declaration :=
  m.model.entries.map fun (_, item) => item.toAddItem.declaration

def ServerMessage.declaration? : ServerMessage → Option Declaration
  | .addItem a => some a.declaration
  | .announceFeatures _ | .changeItem _ _ | .removeItem _ => none

/-- The declaration that the worker is about to send. -/
def ServerWorker.declarations : ServerWorker → List Declaration
  | .sending message => message.declaration?.toList
  | .idle | .running _ | .announced | .subscribing | .walking _ => []

/-- The declarations that an attached client has been sent, unless it has removed the items. -/
def Peer.declarations {ι : Type} (peer : Peer ι) : List Declaration :=
  if peer.attached then
    peer.process.impl.modelImpl.declarations ++ peer.toClient.filterMap ServerMessage.declaration?
  else []

namespace Hub

variable {ι γ : Type}

/-- No attached client has an item with the uri or is about to be sent one. -/
def Forgotten (h : Hub ι γ) (uri : Text) : Prop :=
  (∀ d ∈ h.server.worker.declarations, d.uri ≠ uri) ∧
    ∀ client, ∀ d ∈ (h.peers client).declarations, d.uri ≠ uri

instance [Fintype γ] (h : Hub ι γ) (uri : Text) : Decidable (h.Forgotten uri) :=
  inferInstanceAs (Decidable (_ ∧ _))

/-- When `tweak_app_server_add_item` finds the uri free, the clients have forgotten it as well, and
the initial value is equal to itself. -/
def Careful (h : Hub ι γ) : Action ι γ → Prop
  | .application thread _ =>
    match h.server.calls thread with
    | .adding _ new _ =>
      h.server.impl.modelImpl.index.find? new.uri = none →
        tweakVariantIsEqual new.initialValue new.initialValue = true ∧ h.Forgotten new.uri
    | .idle | .pushing _ => True
  | _ => True

instance [Fintype γ] (h : Hub ι γ) : ∀ action, Decidable (Careful h action)
  | .application thread _ => by
    unfold Careful
    dsimp only
    split <;> infer_instance
  | .attach _ | .detach _ | .notify _ | .addItem _ _ _ | .removeItem _ _ | .replaceCurrentValue _ _ _
  | .serverReceive _ | .serverReceiver _ | .serverWorker | .clientConnection _ _ | .clientReceive _
  | .clientWorker _ | .clientReplace _ _ _ _ | .clientCall _ _ _ => .isTrue trivial

end Hub

end TweakTool.App
