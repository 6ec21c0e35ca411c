import TweakTool.App.Client
import TweakTool.App.Server
import Mathlib.Logic.Function.Basic

/-! # Threads

`Server` and `Client` do each call in one go. In a running process the threads of the application,
the worker thread and the thread that receives messages interleave: what happens between the lock
and the unlock of the model is one step, and so are a push to the queue and a sent message. Between
these steps a thread remembers what it is going to do next.

Encoding and decoding are taken to be faithful, so messages are what the listeners are given. The
application's callbacks are calls of the application like any others. -/

namespace TweakTool.App

/-! ## Messages -/

inductive ServerMessage where
  | announceFeatures (features : Features)
  | addItem (a : AddItem)
  | changeItem (id : TweakId) (value : Variant)
  | removeItem (id : TweakId)

/-- The checks of `tweak_pickle_server_add_item` and `tweak_pickle_server_change_item`. -/
def ServerMessage.accepted : ServerMessage → Bool
  | .addItem a => a.id != tweakInvalidId && a.uri != [] && a.currentValue.type != .null
  | .changeItem _ value => value.type != .null
  | .announceFeatures _ | .removeItem _ => true

inductive ClientMessage where
  | announceFeatures (features : Features)
  | subscribe
  | changeItem (id : TweakId) (value : Variant)

/-- The check of `tweak_pickle_client_change_item`. -/
def ClientMessage.accepted : ClientMessage → Bool
  | .changeItem _ value => value.type != .null
  | .announceFeatures _ | .subscribe => true

/-! ## Queues -/

section Enqueue

variable {α : Type} [DecidableEq α]

/-- A push to a queue, which may drop a job that is still pending. -/
def enqueue (drop : Bool) (job : α) (queue : List α) : List α :=
  if drop = true ∧ job ∈ queue then queue else queue ++ [job]

/-- A dropped job is in the queue already. -/
theorem mem_enqueue (drop : Bool) (job : α) (queue : List α) {x : α} :
    x ∈ enqueue drop job queue ↔ x ∈ queue ∨ x = job := by
  unfold enqueue
  split
  · next h =>
      constructor
      · exact .inl
      · rintro (hx | rfl)
        · exact hx
        · exact h.2
  · rw [List.mem_append, List.mem_singleton]

theorem count_enqueue_le (drop : Bool) (job : α) (queue : List α) (x : α) :
    (enqueue drop job queue).count x ≤ queue.count x + [job].count x := by
  unfold enqueue
  split
  · exact Nat.le_add_right _ _
  · exact Nat.le_of_eq List.count_append

/-- A job that is dropped was there, and is not missed if it was not there twice. -/
theorem filterMap_enqueue {β : Type} (drop : Bool) (job : α) (queue : List α)
    (f : α → Option β) (h : ∀ y, f job = some y → y ∉ queue.filterMap f) :
    (enqueue drop job queue).filterMap f = queue.filterMap f ++ [job].filterMap f := by
  unfold enqueue
  split
  · next hdrop =>
      have hnone : f job = none := by
        rw [Option.eq_none_iff_forall_ne_some]
        intro y hy
        exact h y hy (List.mem_filterMap.mpr ⟨job, hdrop.2, hy⟩)
      rw [List.filterMap_cons_none hnone, List.filterMap_nil, List.append_nil]
  · exact List.filterMap_append

end Enqueue

/-! ## Servers -/

inductive ServerCall where
  | idle
  /-- `tweak_app_server_add_item` has looked at the features and waits for the lock. -/
  | adding (alloc : Allocations) (new : NewItem) (itemIsCompatible : Bool)
  | pushing (job : ServerJob)

inductive ServerWorker where
  | idle
  | running (job : ServerJob)
  | announced -- `io_loop_subscribe` has announced the features
  | subscribing -- `io_loop_subscribe` waits for the lock
  /-- `io_loop_subscribe` walks over the index and has the lock. -/
  | walking (rest : List (Text × TweakId))
  | sending (message : ServerMessage)

inductive ServerReceiver where
  | idle
  | pushing (job : ServerJob)

structure ServerProcess (ι : Type) where
  impl : Server
  calls : ι → ServerCall
  worker : ServerWorker
  receiver : ServerReceiver

namespace ServerProcess

variable {ι : Type}

def init : ServerProcess ι := ⟨.init, fun _ => .idle, .idle, .idle⟩

/-- The worker holds the lock of the model. -/
def locked (p : ServerProcess ι) : Bool :=
  match p.worker with
  | .walking _ => true
  | _ => false

section Calls

variable [DecidableEq ι]

/-- The start of `tweak_app_server_add_item`. -/
def addItem (p : ServerProcess ι) (i : ι) (alloc : Allocations) (new : NewItem) :
    Option (ServerProcess ι) :=
  match p.calls i with
  | .idle =>
    let itemIsCompatible := p.impl.remotePeerFeatures.checkTypeCompatibility new.initialValue.type
    some { p with calls := Function.update p.calls i (.adding alloc new itemIsCompatible) }
  | _ => none

/-- The call has changed the model, and goes on to push a job or returns. -/
def unlock (p : ServerProcess ι) (i : ι) (impl : Server) (shouldPushChange : Bool) (job : ServerJob) :
    ServerProcess ι :=
  { p with
    impl := impl
    calls := Function.update p.calls i (if shouldPushChange then .pushing job else .idle) }

/-- `tweak_app_server_remove_item` up to the unlock. -/
def removeItem (p : ServerProcess ι) (i : ι) (id : TweakId) : Option (ServerProcess ι) :=
  match p.calls i, p.locked with
  | .idle, false =>
    let (_, shouldPushChange, impl) := p.impl.removeItemLocked id
    some (p.unlock i impl shouldPushChange (.remove id))
  | _, _ => none

/-- `tweak_app_item_replace_current_value` up to the unlock. -/
def replaceCurrentValue (p : ServerProcess ι) (i : ι) (id : TweakId) (value : Variant) :
    Option (ServerProcess ι) :=
  match p.calls i, p.locked with
  | .idle, false =>
    let (_, shouldPushChange, impl) := p.impl.replaceLocked id value
    some (p.unlock i impl shouldPushChange (.change id))
  | _, _ => none

/-- A call goes on: `tweak_app_server_add_item` up to the unlock, or a push. -/
def proceed (p : ServerProcess ι) (i : ι) (drop : Bool) : Option (ServerProcess ι) :=
  match p.calls i with
  | .idle => none
  | .adding alloc new itemIsCompatible =>
    if p.locked then none
    else
      let (id, shouldPushChange, impl) := p.impl.addItemLocked alloc itemIsCompatible new
      some (p.unlock i impl shouldPushChange (.append id))
  | .pushing job =>
    some { p with
      impl := { p.impl with queue := enqueue drop job p.impl.queue }
      calls := Function.update p.calls i .idle }

end Calls

/-- A message is handled; `none` also if the process crashes. -/
def receive (p : ServerProcess ι) (message : ClientMessage) : Option (ServerProcess ι) :=
  match p.receiver, message with
  | .idle, .announceFeatures features =>
    some { p with impl := p.impl.announceFeaturesImpl (some features) }
  | .idle, .subscribe => some { p with receiver := .pushing .subscribe }
  | .idle, .changeItem id value =>
    if p.locked then none
    else
      (p.impl.changeItemLocked id value).map fun (id, _, impl) =>
        { p with impl := impl, receiver := .pushing (.change id) }
  | .pushing _, _ => none

/-- The receiving thread pushes the job of the message it has handled. -/
def receiverPush (p : ServerProcess ι) (drop : Bool) : Option (ServerProcess ι) :=
  match p.receiver with
  | .idle => none
  | .pushing job =>
    some { p with
      impl := { p.impl with queue := enqueue drop job p.impl.queue }
      receiver := .idle }

def connectionState (p : ServerProcess ι) (isConnected : Bool) : ServerProcess ι :=
  { p with impl := p.impl.connectionStatePickleImpl isConnected }

/-- A step of the worker thread, with the message it sends. A walk that meets an id without an item
looks at its value through the null pointer. -/
def work (p : ServerProcess ι) : Option (Option ServerMessage × ServerProcess ι) :=
  match p.worker with
  | .idle =>
    match p.impl.queue with
    | [] => none
    | job :: queue =>
      some (none, { p with impl := { p.impl with queue := queue }, worker := .running job })
  | .running .subscribe =>
    if p.impl.featuresAnnounced then
      some (some (.announceFeatures .initDefault), { p with worker := .announced })
    else some (none, { p with worker := .subscribing })
  | .announced =>
    some (none,
      { p with impl := { p.impl with featuresAnnounced := false }, worker := .subscribing })
  | .subscribing => some (none, { p with worker := .walking p.impl.modelImpl.index.entries })
  | .walking [] => some (none, { p with impl := { p.impl with connected := true }, worker := .idle })
  | .walking ((_, id) :: rest) =>
    match p.impl.find? id with
    | none => none
    | some item =>
      if p.impl.remotePeerFeatures.checkTypeCompatibility item.variantType then
        if (ServerMessage.addItem item.toAddItem).accepted then
          some (some (.addItem item.toAddItem), { p with worker := .walking rest })
        else some (none, { p with worker := .idle })
      else some (none, { p with worker := .walking rest })
  | .running (.append id) =>
    match p.impl.find? id with
    | some item => some (none, { p with worker := .sending (.addItem item.toAddItem) })
    | none => some (none, { p with worker := .idle })
  | .running (.change id) =>
    match p.impl.find? id with
    | some item =>
      let message := ServerMessage.changeItem id item.currentValue
      some (none, { p with worker := if p.impl.connected then .sending message else .idle })
    | none => some (none, { p with worker := .idle })
  | .running (.remove id) => some (none, { p with worker := .sending (.removeItem id) })
  | .sending message =>
    some (if message.accepted then some message else none, { p with worker := .idle })

/-- The job that the worker has taken from the queue last, its next step included; it had `taken` one
before. -/
def taking (p : ServerProcess ι) (taken : Option ServerJob) : Option ServerJob :=
  match p.worker with
  | .idle => p.impl.queue.head?
  | _ => taken

/-- The step of the worker to `p'` ends a subscribe job. -/
def endsSubscribe (p p' : ServerProcess ι) (taken : Option ServerJob) : Bool :=
  match p'.worker with
  | .idle => p.taking taken = some .subscribe
  | _ => false

end ServerProcess

/-! ## Clients -/

inductive ClientCall where
  | idle
  | allowed (id : TweakId) (value : Variant) -- the value has been checked
  | replacing (id : TweakId) (value : Variant) -- the client was connected
  | pushing (id : TweakId)

inductive ClientWorker where
  | idle
  | running (job : ClientJob)
  | announced -- `io_loop_subscribe` has announced the features
  | sending (id : TweakId) (value : Variant)

/-- How far `client_connection_state_pickle_impl` has come. -/
inductive Connection where
  | disconnected
  | resetting
  | connecting
  | pushing
  | done
  deriving DecidableEq

structure ClientProcess (ι : Type) where
  impl : Client
  calls : ι → ClientCall
  worker : ClientWorker
  connection : Connection

namespace ClientProcess

variable {ι : Type}

def init : ClientProcess ι := ⟨.init, fun _ => .idle, .idle, .disconnected⟩

/-- A step of `client_connection_state_pickle_impl` for a new connection. -/
def connect (c : ClientProcess ι) (drop : Bool) : Option (ClientProcess ι) :=
  match c.connection with
  | .disconnected =>
    some { c with
      impl := { c.impl with remotePeerFeatures := .initMinimal }
      connection := .resetting }
  | .resetting => some { c with impl := { c.impl with modelImpl := .empty }, connection := .connecting }
  | .connecting => some { c with impl := { c.impl with connected := true }, connection := .pushing }
  | .pushing =>
    some { c with
      impl := { c.impl with queue := enqueue drop .subscribe c.impl.queue }
      connection := .done }
  | .done => none

def receive (c : ClientProcess ι) : ServerMessage → Except Fatal (ClientProcess ι)
  | .announceFeatures features => .ok { c with impl := c.impl.announceFeaturesImpl (some features) }
  | .addItem a =>
    (c.impl.modelImpl.clientAddItem ⟨true, true, true, true⟩ a).map fun modelImpl =>
      { c with impl := { c.impl with modelImpl := modelImpl } }
  | .changeItem id value =>
    .ok { c with impl := { c.impl with modelImpl := c.impl.modelImpl.clientChangeItem id value } }
  | .removeItem id =>
    .ok { c with impl := { c.impl with modelImpl := c.impl.modelImpl.clientRemoveItem id } }

/-- A step of the worker thread, with the message it sends. -/
def work (c : ClientProcess ι) : Option (Option ClientMessage × ClientProcess ι) :=
  match c.worker with
  | .idle =>
    match c.impl.queue with
    | [] => none
    | job :: queue =>
      some (none, { c with impl := { c.impl with queue := queue }, worker := .running job })
  | .running .subscribe => some (some (.announceFeatures .initDefault), { c with worker := .announced })
  | .announced => some (some .subscribe, { c with worker := .idle })
  | .running (.change id) =>
    match c.impl.find? id with
    | some item =>
      let worker := if c.impl.connected then .sending id item.currentValue else .idle
      some (none, { c with worker := worker })
    | none => some (none, { c with worker := .idle })
  | .sending id value =>
    let message := ClientMessage.changeItem id value
    some (if message.accepted then some message else none, { c with worker := .idle })

section Calls

variable [DecidableEq ι]

/-- The start of `replace_current_value`, under the read lock. -/
def replaceCurrentValue (c : ClientProcess ι) (i : ι) (id : TweakId) (value : Variant) :
    Option (ClientProcess ι) :=
  match c.calls i, c.impl.find? id with
  | .idle, some item =>
    if checkValueCompatibility item.currentValue value then
      some { c with calls := Function.update c.calls i (.allowed id value) }
    else some c
  | .idle, none => some c
  | _, _ => none

def proceed (c : ClientProcess ι) (i : ι) (drop : Bool) : Option (ClientProcess ι) :=
  match c.calls i with
  | .idle => none
  | .allowed id value =>
    let call := if c.impl.connected then .replacing id value else .idle
    some { c with calls := Function.update c.calls i call }
  | .replacing id value =>
    let (_, shouldPushChange, modelImpl) := c.impl.itemReplaceCurrentValue id value
    let call := if shouldPushChange then .pushing id else .idle
    some { c with
      impl := { c.impl with modelImpl := modelImpl }
      calls := Function.update c.calls i call }
  | .pushing id =>
    some { c with
      impl := { c.impl with queue := enqueue drop (.change id) c.impl.queue }
      calls := Function.update c.calls i .idle }

end Calls

end ClientProcess

end TweakTool.App
