import TweakTool.App.Context
import TweakTool.Lib.Run

/-! # The client context

`tweakappclient.c`: the messages of the server, the requests of the application and the jobs of the
worker thread. The client builds its model from what the server tells it, and gives up where that
contradicts what it knows. -/

namespace TweakTool.App

open TweakTool.Lib

inductive ClientJob where
  | subscribe
  | change (id : TweakId)
  deriving DecidableEq

/-- How the process ends in `client_add_item_pickle_impl`: by one of the two `TWEAK_FATAL`, or by
an access through the null pointer when the index has an id that the model does not have. -/
inductive Fatal where
  | modelIsInconsistent
  | unableToAddItem
  | nullPointer
  deriving DecidableEq

def isAddItemCorrect (a : AddItem) (item : Item) : Bool :=
  item.id == a.id && item.uri == a.uri && item.description == a.description &&
    item.meta == a.meta && tweakVariantIsEqual item.defaultValue a.defaultValue

namespace ModelImpl

/-- The locked part of `client_add_item_pickle_impl`. -/
def clientAddItem (alloc : Allocations) (m : ModelImpl) (a : AddItem) : Except Fatal ModelImpl :=
  let id := tweakModelUriToTweakIdIndexLookup m.index a.uri
  if id ≠ tweakInvalidId then
    match m.model.find? id with
    | none => .error .nullPointer
    | some item =>
      if isAddItemCorrect a item = false then .error .modelIsInconsistent
      else if tweakVariantIsEqual item.currentValue a.currentValue then .ok m
      else .ok (m.setCurrentValue id a.currentValue)
  else
    match m.addItemToModel alloc a with
    | (id, modelImpl) =>
      if id = tweakInvalidId then .error .unableToAddItem else .ok modelImpl

/-- The locked part of `client_change_item_pickle_impl`. -/
def clientChangeItem (m : ModelImpl) (id : TweakId) (value : Variant) : ModelImpl :=
  match m.model.find? id with
  | some _ => m.setCurrentValue id value
  | none => m

/-- The locked part of `client_remove_item_pickle_impl`. -/
def clientRemoveItem (m : ModelImpl) (id : TweakId) : ModelImpl :=
  match m.model.find? id with
  | some item => m.removeItem item id
  | none => m

end ModelImpl

/-! ## Calls -/

/-- `struct tweak_app_context_client_impl`. -/
structure Client extends Context where
  queue : List ClientJob
  deriving DecidableEq

namespace Client

/-- `tweak_app_create_client_context`. -/
def init : Client := ⟨Context.init, []⟩

def push (c : Client) (job : ClientJob) : Client :=
  { c with queue := if job ∈ c.queue then c.queue else c.queue ++ [job] }

/-- `client_connection_state_pickle_impl`. A new connection starts with an empty model. -/
def connectionStatePickleImpl (c : Client) (isConnected : Bool) : Client :=
  if isConnected then
    ({ c with remotePeerFeatures := .initMinimal, modelImpl := .empty, connected := true }).push
      .subscribe
  else { c with connected := false }

/-- `announce_features_impl`, for features that could be parsed or not. -/
def announceFeaturesImpl (c : Client) (features : Option Features) : Client :=
  match features with
  | none => c
  | some features => { c with remotePeerFeatures := features }

def replaceCurrentValue (c : Client) (id : TweakId) (value : Variant) : AppErrorCode × Client :=
  match c.find? id with
  | none => (.itemNotFound, c)
  | some item =>
    if checkValueCompatibility item.currentValue value then
      if c.connected then
        let (result, shouldPushChange, modelImpl) := c.itemReplaceCurrentValue id value
        let c := { c with modelImpl := modelImpl }
        (result, if shouldPushChange then c.push (.change id) else c)
      else (.peerDisconnected, c)
    else (.typeMismatch, c)

inductive Call where
  | connectionState (isConnected : Bool)
  | addItem (alloc : Allocations) (a : AddItem)
  | changeItem (id : TweakId) (value : Variant)
  | removeItem (id : TweakId)
  | announceFeatures (features : Option Features)
  | replaceCurrentValue (id : TweakId) (value : Variant)
  | ioLoop -- the worker takes a job

/-- `none` if the process ends, or if there is no job to take. -/
def step (c : Client) : Call → Option Client
  | .connectionState isConnected => some (c.connectionStatePickleImpl isConnected)
  | .addItem alloc a =>
    match c.modelImpl.clientAddItem alloc a with
    | .error _ => none
    | .ok modelImpl => some { c with modelImpl := modelImpl }
  | .changeItem id value => some { c with modelImpl := c.modelImpl.clientChangeItem id value }
  | .removeItem id => some { c with modelImpl := c.modelImpl.clientRemoveItem id }
  | .announceFeatures features => some (c.announceFeaturesImpl features)
  | .replaceCurrentValue id value => some (c.replaceCurrentValue id value).2
  | .ioLoop =>
    match c.queue with
    | [] => none
    | _ :: queue => some { c with queue := queue }

end Client

end TweakTool.App
