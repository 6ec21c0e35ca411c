import TweakTool.App.Context
import TweakTool.Lib.Run

/-! # The server context

`tweakappserver.c`, and the setters of `tweak2.c` that are calls of it: the requests of the
application, the messages of the client and the jobs of the worker thread, as far as they change the
state of the context. What is sent to the client is the subject of `Session` and `Hub`. -/

namespace TweakTool.App

open TweakTool.Lib

inductive ServerJob where
  | subscribe
  | append (id : TweakId)
  | change (id : TweakId)
  | remove (id : TweakId)
  deriving DecidableEq

structure NewItem where
  uri : Text
  description : Text
  «meta» : Text
  initialValue : Variant
  deriving DecidableEq

/-- The item with its id; the initial value is its default and its current value. -/
def NewItem.withId (new : NewItem) (id : TweakId) : AddItem where
  id := id
  uri := new.uri
  description := new.description
  «meta» := new.meta
  defaultValue := new.initialValue
  currentValue := new.initialValue

/-! ## Sections -/

namespace Context

/-- The locked part of `tweak_app_server_add_item`, with the decision to push the item. The peer's
features were looked at before the lock was taken. -/
def addItemSection (alloc : Allocations) (itemIsCompatible : Bool) (c : Context) (a : AddItem) :
    TweakId × Bool × ModelImpl :=
  if tweakModelUriToTweakIdIndexLookup c.modelImpl.index a.uri ≠ tweakInvalidId then
    (tweakInvalidId, false, c.modelImpl)
  else
    let (id, modelImpl) := c.modelImpl.addItemToModel alloc a
    (id, id != tweakInvalidId && itemIsCompatible && c.connected, modelImpl)

/-- The locked part of `tweak_app_server_remove_item`, with the decision to push the removal. -/
def removeItemSection (c : Context) (id : TweakId) : Bool × Bool × ModelImpl :=
  match c.find? id with
  | some item =>
    (true, c.remotePeerFeatures.checkTypeCompatibility item.variantType && c.connected,
      c.modelImpl.removeItem item id)
  | none => (false, false, c.modelImpl)

/-- The locked part of `change_item_pickle_impl`: the id to push, whether the value has changed, and
the model. The warning about a value that is not taken prints `item->id`, and the arguments of the
log macros are evaluated at every log level: without an item that is an access through the null
pointer, and the result is `none`. -/
def changeItemSection (c : Context) (id : TweakId) (value : Variant) :
    Option (TweakId × Bool × ModelImpl) :=
  match c.find? id with
  | some item =>
    if checkValueCompatibility item.currentValue value then
      some (item.id, !tweakVariantIsEqual value item.currentValue,
        c.modelImpl.setCurrentValue id value)
    else some (tweakInvalidId, false, c.modelImpl)
  | none => none

end Context

/-! ## Calls -/

/-- `struct tweak_app_context_server_impl`, with the counter of `tweak_common_genid`. -/
structure Server extends Context where
  featuresAnnounced : Bool
  queue : List ServerJob
  seed : TweakId
  deriving DecidableEq

namespace Server

def init : Server := ⟨Context.init, false, [], 1⟩

def push (s : Server) (job : ServerJob) : Server :=
  { s with queue := if job ∈ s.queue then s.queue else s.queue ++ [job] }

/-- `tweak_app_server_add_item` up to the unlock, with the id and the decision to push the item. The
id is generated once the uri is known to be new. -/
def addItemLocked (alloc : Allocations) (itemIsCompatible : Bool) (s : Server) (new : NewItem) :
    TweakId × Bool × Server :=
  let isNew := tweakModelUriToTweakIdIndexLookup s.modelImpl.index new.uri = tweakInvalidId
  let (id, shouldPushChange, modelImpl) :=
    s.addItemSection alloc itemIsCompatible (new.withId s.seed)
  (id, shouldPushChange,
    { s with modelImpl := modelImpl, seed := if isNew then s.seed + 1 else s.seed })

def tweakAppServerAddItem (alloc : Allocations) (s : Server) (new : NewItem) : TweakId × Server :=
  let itemIsCompatible := s.remotePeerFeatures.checkTypeCompatibility new.initialValue.type
  let (id, shouldPushChange, s) := s.addItemLocked alloc itemIsCompatible new
  (id, if shouldPushChange then s.push (.append id) else s)

def removeItemLocked (s : Server) (id : TweakId) : Bool × Bool × Server :=
  let (result, shouldPushChange, modelImpl) := s.removeItemSection id
  (result, shouldPushChange, { s with modelImpl := modelImpl })

def tweakAppServerRemoveItem (s : Server) (id : TweakId) : Bool × Server :=
  let (result, shouldPushChange, s) := s.removeItemLocked id
  (result, if shouldPushChange then s.push (.remove id) else s)

def replaceLocked (s : Server) (id : TweakId) (value : Variant) : AppErrorCode × Bool × Server :=
  let (result, shouldPushChange, modelImpl) := s.itemReplaceCurrentValue id value
  (result, shouldPushChange, { s with modelImpl := modelImpl })

def tweakAppItemReplaceCurrentValue (s : Server) (id : TweakId) (value : Variant) :
    AppErrorCode × Server :=
  let (result, shouldPushChange, s) := s.replaceLocked id value
  (result, if shouldPushChange then s.push (.change id) else s)

def tweakSetScalarBool (s : Server) (id : TweakId) (value : Bool) : Server :=
  (s.tweakAppItemReplaceCurrentValue id (.bool value)).2

/-- The other functions `tweak_set_scalar_*`. -/
def tweakSetScalar (s : Server) (t : NumType) (id : TweakId) (value : BitVec t.width) : Server :=
  (s.tweakAppItemReplaceCurrentValue id (.num t value)).2

def tweakSetString (s : Server) (id : TweakId) (string : Text) : Server :=
  (s.tweakAppItemReplaceCurrentValue id (.string string)).2

/-- The functions `tweak_set_vector_*`, which take from `buffer` as many bytes as the item has. -/
def tweakSetVector (s : Server) (t : NumType) (id : TweakId) (buffer : Nat → UInt8) : Server :=
  match s.itemCloneCurrentValue id with
  | none => s
  | some value =>
    if value.type ≠ .vector t then s
    else
      (s.tweakAppItemReplaceCurrentValue id
        (.vector t ((List.range value.bufferSize).map buffer))).2

def changeItemLocked (s : Server) (id : TweakId) (value : Variant) :
    Option (TweakId × Bool × Server) :=
  (s.changeItemSection id value).map fun (id, changed, modelImpl) =>
    (id, changed, { s with modelImpl := modelImpl })

/-- `change_item_pickle_impl`: the call of `on_current_value_changed`, if there is one, and the new
state. -/
def changeItemPickleImpl (hasCallback : Bool) (s : Server) (id : TweakId) (value : Variant) :
    Option (Option (TweakId × Variant) × Server) :=
  (s.changeItemLocked id value).map fun (id, changed, s) =>
    (if changed && hasCallback then some (id, value) else none, s.push (.change id))

def announceFeaturesImpl (s : Server) (features : Option Features) : Server :=
  { s with
    remotePeerFeatures := s.remotePeerFeatures.combine (features.getD .initDefault)
    featuresAnnounced := features.isSome }

def connectionStatePickleImpl (s : Server) (isConnected : Bool) : Server :=
  if isConnected then { s with remotePeerFeatures := .initDefault } else { s with connected := false }

/-- `io_loop_subscribe`, by the outcomes of the announcement and of the walk over the items. -/
def ioLoopSubscribe (s : Server) (announced walkSuccess : Bool) : Server :=
  if s.featuresAnnounced && !announced then s
  else { s with featuresAnnounced := false, connected := s.connected || walkSuccess }

inductive Call where
  | addItem (alloc : Allocations) (new : NewItem)
  | removeItem (id : TweakId)
  | replaceCurrentValue (id : TweakId) (value : Variant)
  | setScalarBool (id : TweakId) (value : Bool)
  | setScalar (t : NumType) (id : TweakId) (value : BitVec t.width)
  | setString (id : TweakId) (string : Text)
  | setVector (t : NumType) (id : TweakId) (buffer : Nat → UInt8)
  | changeItem (id : TweakId) (value : Variant) -- from a client, as the next two
  | announceFeatures (features : Option Features)
  | subscribe
  | connectionState (isConnected : Bool)
  /-- The worker takes a job; the outcomes are those of the calls a subscribe job makes. -/
  | ioLoop (announced walkSuccess : Bool)

inductive Response where
  | void
  | id (id : TweakId)
  | removed (result : Bool)
  | code (result : AppErrorCode)
  | currentValueChanged (event : Option (TweakId × Variant))
  deriving DecidableEq

/-- A call with its response; `none` if the process crashes, or if there is no job to take. -/
def perform (hasCallback : Bool) (s : Server) : Call → Option (Response × Server)
  | .addItem alloc new =>
    let (id, s) := s.tweakAppServerAddItem alloc new
    some (.id id, s)
  | .removeItem id =>
    let (result, s) := s.tweakAppServerRemoveItem id
    some (.removed result, s)
  | .replaceCurrentValue id value =>
    let (result, s) := s.tweakAppItemReplaceCurrentValue id value
    some (.code result, s)
  | .setScalarBool id value => some (.void, s.tweakSetScalarBool id value)
  | .setScalar t id value => some (.void, s.tweakSetScalar t id value)
  | .setString id string => some (.void, s.tweakSetString id string)
  | .setVector t id buffer => some (.void, s.tweakSetVector t id buffer)
  | .changeItem id value =>
    (s.changeItemPickleImpl hasCallback id value).map fun (event, s) =>
      (.currentValueChanged event, s)
  | .announceFeatures features => some (.void, s.announceFeaturesImpl features)
  | .subscribe => some (.void, s.push .subscribe)
  | .connectionState isConnected => some (.void, s.connectionStatePickleImpl isConnected)
  | .ioLoop announced walkSuccess =>
    match s.queue with
    | [] => none
    | .subscribe :: queue =>
      some (.void, ({ s with queue := queue }).ioLoopSubscribe announced walkSuccess)
    | _ :: queue => some (.void, { s with queue := queue })

def step (hasCallback : Bool) (s : Server) (call : Call) : Option Server :=
  (s.perform hasCallback call).map (·.2)

end Server

end TweakTool.App
