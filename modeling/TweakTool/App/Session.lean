import TweakTool.App.Process
import TweakTool.Lib.Run

/-! # A session

One server and one client, both freshly created, within one connection: two channels that lose
nothing and keep the order. The application of the server makes its calls one at a time, that of the
client makes them from any number of threads. -/

namespace TweakTool.App

open TweakTool.Lib

structure Session where
  server : ServerProcess Unit
  client : ClientProcess Nat
  toClient : List ServerMessage
  toServer : List ClientMessage
  taken : Option ServerJob -- the job that the worker of the server has taken last
  subscribed : Bool -- the server has executed a subscribe job
  aborted : Option Fatal -- how the client has ended

namespace Session

def init : Session := ⟨.init, .init, [], [], none, false, none⟩

inductive Action where
  | addItem (alloc : Allocations) (new : NewItem)
  | removeItem (id : TweakId)
  | replaceCurrentValue (id : TweakId) (value : Variant)
  | application (drop : Bool)
  | serverConnected
  | serverReceive
  | serverReceiver (drop : Bool)
  | serverWorker
  | clientConnection (drop : Bool)
  | clientReceive
  | clientWorker
  | clientReplace (thread : Nat) (id : TweakId) (value : Variant)
  | clientCall (thread : Nat) (drop : Bool)

/-- The next state; `none` if the step cannot be taken, or if the server crashes. -/
def step (s : Session) (action : Action) : Option Session :=
  if s.aborted.isSome then none
  else
    match action with
    | .addItem alloc new => (s.server.addItem () alloc new).map fun p => { s with server := p }
    | .removeItem id => (s.server.removeItem () id).map fun p => { s with server := p }
    | .replaceCurrentValue id value =>
      (s.server.replaceCurrentValue () id value).map fun p => { s with server := p }
    | .application drop => (s.server.proceed () drop).map fun p => { s with server := p }
    | .serverConnected => some { s with server := s.server.connectionState true }
    | .serverReceive =>
      match s.toServer with
      | [] => none
      | message :: toServer =>
        (s.server.receive message).map fun p => { s with server := p, toServer := toServer }
    | .serverReceiver drop => (s.server.receiverPush drop).map fun p => { s with server := p }
    | .serverWorker =>
      s.server.work.map fun (message, p) =>
        { s with
          server := p
          toClient := s.toClient ++ message.toList
          taken := s.server.taking s.taken
          subscribed := s.subscribed || s.server.endsSubscribe p s.taken }
    | .clientConnection drop => (s.client.connect drop).map fun c => { s with client := c }
    | .clientReceive =>
      match s.toClient with
      | [] => none
      | message :: toClient =>
        match s.client.receive message with
        | .ok c => some { s with client := c, toClient := toClient }
        | .error fatal => some { s with toClient := toClient, aborted := some fatal }
    | .clientWorker =>
      s.client.work.map fun (message, c) =>
        { s with client := c, toServer := s.toServer ++ message.toList }
    | .clientReplace thread id value =>
      (s.client.replaceCurrentValue thread id value).map fun c => { s with client := c }
    | .clientCall thread drop => (s.client.proceed thread drop).map fun c => { s with client := c }

/-- The application of the server adds items with bool or integer values, and replaces values by
values of the same type. -/
def Scalar (s : Session) : Action → Prop
  | .addItem _ new => new.initialValue.type.isBoolOrInteger = true
  | .replaceCurrentValue id value =>
    ∀ item, s.server.impl.find? id = some item → value.type = item.currentValue.type
  | _ => True

instance (s : Session) : ∀ action, Decidable (Scalar s action)
  | .addItem _ _ => inferInstanceAs (Decidable (_ = _))
  | .replaceCurrentValue id value =>
    inferInstanceAs (Decidable (∀ item ∈ s.server.impl.find? id, value.type = item.currentValue.type))
  | .removeItem _ | .application _ | .serverConnected | .serverReceive | .serverReceiver _
  | .serverWorker | .clientConnection _ | .clientReceive | .clientWorker | .clientReplace _ _ _
  | .clientCall _ _ => .isTrue trivial

/-- No item is added with an empty uri. -/
def Named : Action → Prop
  | .addItem _ new => new.uri ≠ []
  | _ => True

instance : ∀ action, Decidable (Named action)
  | .addItem _ _ => inferInstanceAs (Decidable (_ ≠ _))
  | .removeItem _ | .replaceCurrentValue _ _ | .application _ | .serverConnected | .serverReceive
  | .serverReceiver _ | .serverWorker | .clientConnection _ | .clientReceive | .clientWorker
  | .clientReplace _ _ _ | .clientCall _ _ => .isTrue trivial

/-- Both queues are empty, no job or call is in progress and no message is in flight. -/
structure Quiescent (s : Session) : Prop where
  serverQueue : s.server.impl.queue = []
  serverWorker : s.server.worker = .idle
  serverReceiver : s.server.receiver = .idle
  serverCall : s.server.calls () = .idle
  clientQueue : s.client.impl.queue = []
  clientWorker : s.client.worker = .idle
  clientCalls : ∀ thread, s.client.calls thread = .idle
  toClient : s.toClient = []
  toServer : s.toServer = []

end Session

end TweakTool.App
