import TweakTool.App.Tables

/-! # What a client tells its application

The callbacks of a client, all of them set. A handler does its work in the section of the model and
calls back after the unlock; a new connection and the destruction of the context report every item of
the index as removed. The handlers of a client run one after another, and between any two of their
steps the application may replace values. -/

namespace TweakTool.App

open TweakTool.Lib

/-! ## Callbacks -/

/-- A call of one of the `tweak_app_client_callbacks`. -/
inductive Callback where
  | onConnectionStatusChanged (isConnected : Bool)
  | onNewItem (id : TweakId)
  | onCurrentValueChanged (id : TweakId) (value : Variant)
  | onItemRemoved (id : TweakId)
  deriving DecidableEq

/-- `on_new_item` was called for the id, and `on_item_removed` was not called later. -/
def Shown (calls : List Callback) (id : TweakId) : Prop :=
  ∃ before after, calls = before ++ .onNewItem id :: after ∧ .onItemRemoved id ∉ after

namespace Callback

/-- An item is reported as new if it is not shown, and as removed if it is. -/
def Fits (shown : TweakId → Prop) : Callback → Prop
  | .onNewItem id => ¬ shown id
  | .onItemRemoved id => shown id
  | .onConnectionStatusChanged _ | .onCurrentValueChanged _ _ => True

def apply (shown : TweakId → Prop) : Callback → TweakId → Prop
  | .onNewItem id => fun k => shown k ∨ k = id
  | .onItemRemoved id => fun k => shown k ∧ k ≠ id
  | .onConnectionStatusChanged _ | .onCurrentValueChanged _ _ => shown

def change? : Callback → Option (TweakId × Variant)
  | .onCurrentValueChanged id value => some (id, value)
  | .onConnectionStatusChanged _ | .onNewItem _ | .onItemRemoved _ => none

end Callback

/-- Every call fits what has been shown before it. -/
def Orderly (calls : List Callback) : Prop :=
  ∀ before callback after, calls = before ++ callback :: after → callback.Fits (Shown before)

theorem not_shown_nil (id : TweakId) : ¬ Shown [] id := by
  rintro ⟨before, after, h, _⟩
  cases before <;> cases h

theorem orderly_nil : Orderly [] := by
  rintro before callback after h
  cases before <;> cases h

/-- Where the last element of a list is. -/
theorem concat_eq_append_cons {α : Type} {xs before after : List α} {x y : α} :
    xs ++ [x] = before ++ y :: after ↔
      (xs = before ∧ x = y ∧ after = []) ∨ ∃ init, after = init ++ [x] ∧ xs = before ++ y :: init := by
  rcases List.eq_nil_or_concat after with rfl | ⟨init, z, rfl⟩
  · constructor
    · intro h
      obtain ⟨hxs, hx⟩ := List.append_inj' h rfl
      exact .inl ⟨hxs, List.head_eq_of_cons_eq hx, rfl⟩
    · rintro (⟨rfl, rfl, _⟩ | ⟨init, hinit, _⟩)
      · rfl
      · cases init <;> cases hinit
  · rw [List.concat_eq_append, ← List.cons_append, ← List.append_assoc]
    constructor
    · intro h
      obtain ⟨hxs, hx⟩ := List.append_inj' h rfl
      cases hx
      exact .inr ⟨init, rfl, hxs⟩
    · rintro (⟨_, _, hnil⟩ | ⟨init', hinit, rfl⟩)
      · cases init <;> cases hnil
      · obtain ⟨rfl, hx⟩ := List.append_inj' hinit rfl
        cases hx
        rfl

/-- One more call changes what is shown as it says. -/
theorem shown_concat (calls : List Callback) (callback : Callback) :
    Shown (calls ++ [callback]) = callback.apply (Shown calls) := by
  funext k
  apply propext
  have hlast : Shown (calls ++ [callback]) k ↔
      callback = .onNewItem k ∨ Shown calls k ∧ callback ≠ .onItemRemoved k := by
    constructor
    · rintro ⟨before, after, hcalls, hafter⟩
      rcases concat_eq_append_cons.mp hcalls with ⟨_, hcallback, _⟩ | ⟨init, rfl, hinit⟩
      · exact .inl hcallback
      · rw [List.mem_append, List.mem_singleton, not_or] at hafter
        exact .inr ⟨⟨before, init, hinit, hafter.1⟩, Ne.symm hafter.2⟩
    · rintro (rfl | ⟨⟨before, init, rfl, hinit⟩, hcallback⟩)
      · exact ⟨calls, [], rfl, List.not_mem_nil⟩
      · refine ⟨before, init ++ [callback], by simp, ?_⟩
        rw [List.mem_append, List.mem_singleton, not_or]
        exact ⟨hinit, Ne.symm hcallback⟩
  rw [hlast]
  cases callback with
  | onNewItem id => simp [Callback.apply, or_comm, eq_comm]
  | onItemRemoved id => simp [Callback.apply, eq_comm]
  | onConnectionStatusChanged | onCurrentValueChanged => simp [Callback.apply]

private theorem Orderly.concat {calls : List Callback} {callback : Callback} (h : Orderly calls)
    (hfits : callback.Fits (Shown calls)) : Orderly (calls ++ [callback]) := by
  intro before callback' after hcalls
  rcases concat_eq_append_cons.mp hcalls with ⟨rfl, rfl, _⟩ | ⟨init, _, hinit⟩
  · exact hfits
  · exact h before callback' init hinit

/-! ## Sections -/

/-- `enum change_item_status`; with the value that an update has replaced. -/
inductive ChangeItemStatus where
  | noChange
  | created
  | valueUpdated (previous : Variant)

namespace ModelImpl

/-- The locked part of `client_add_item_pickle_impl`, with the status and the id of the item. -/
def clientAddItemSection (alloc : Allocations) (m : ModelImpl) (a : AddItem) :
    Except Fatal (ChangeItemStatus × TweakId × ModelImpl) :=
  let id := tweakModelUriToTweakIdIndexLookup m.index a.uri
  if id ≠ tweakInvalidId then
    match m.model.find? id with
    | none => .error .nullPointer
    | some item =>
      if isAddItemCorrect a item = false then .error .modelIsInconsistent
      else if tweakVariantIsEqual item.currentValue a.currentValue then .ok (.noChange, id, m)
      else .ok (.valueUpdated item.currentValue, id, m.setCurrentValue id a.currentValue)
  else
    match m.addItemToModel alloc a with
    | (id, modelImpl) =>
      if id = tweakInvalidId then .error .unableToAddItem else .ok (.created, id, modelImpl)

variable {m m' : ModelImpl} {id : TweakId}

/-- The section of the handler is that of the faithful model. -/
theorem clientAddItem_eq_section (alloc : Allocations) (m : ModelImpl) (a : AddItem) :
    m.clientAddItem alloc a = (m.clientAddItemSection alloc a).map fun result => result.2.2 := by
  rw [clientAddItem, clientAddItemSection]
  split
  · cases m.model.find? (tweakModelUriToTweakIdIndexLookup m.index a.uri) with
    | none => rfl
    | some item =>
      dsimp only
      split
      · rfl
      · split <;> rfl
  · obtain ⟨id, modelImpl⟩ := m.addItemToModel alloc a
    dsimp only
    split <;> rfl

/-- What the section does, by the status. -/
theorem clientAddItemSection_cases {alloc : Allocations} {a : AddItem} {status : ChangeItemStatus}
    (h : m.clientAddItemSection alloc a = .ok (status, id, m')) :
    match status with
    | .noChange => m' = m
    | .created => m.model.find? id = none ∧
        ∀ k, m'.model.find? k = if k = id then some (.create a) else m.model.find? k
    | .valueUpdated previous => m' = m.setCurrentValue id a.currentValue ∧
        tweakVariantIsEqual previous a.currentValue = false ∧
        ∃ item, m.model.find? id = some item ∧ item.currentValue = previous := by
  rw [clientAddItemSection] at h
  split at h
  · split at h
    · cases h
    · next item hitem =>
        split at h
        · cases h
        · split at h
          · cases h
            rfl
          · next hequal =>
              cases h
              exact ⟨rfl, Bool.not_eq_true _ ▸ hequal, item, hitem, rfl⟩
  · rw [addItemToModel_eq] at h
    by_cases hadd : Addable alloc m a
    · simp only [hadd, if_true] at h
      split at h
      · cases h
      · cases h
        exact ⟨hadd.1, fun k => Table.find?_insert hadd.1 _ k⟩
    · simp only [hadd, if_false, if_true] at h
      cases h

end ModelImpl

/-! ## Handlers -/

inductive Task where
  | call (callback : Callback)
  | setFeatures (features : Features)
  | setConnected (isConnected : Bool)
  | pushSubscribe
  | resetModel
  /-- `call_remove_callback_for_all_items`, for the index of the context. -/
  | callRemoveCallbackForAllItems
  | destroyBase -- `tweak_app_context_private_destroy_base`

/-- The value of an existing item has been replaced by a handler. -/
structure Replacement where
  id : TweakId
  previous : Variant
  current : Variant

/-- The new value, if `tweak_variant_is_equal` distinguishes it. -/
def Replacement.change? (r : Replacement) : Option (TweakId × Variant) :=
  if tweakVariantIsEqual r.previous r.current then none else some (r.id, r.current)

structure Observed where
  client : Client
  rest : List Task -- what the handler that is running has still to do
  calls : List Callback
  replaced : List Replacement -- what handlers have replaced
  destroyed : Bool

namespace Observed

def init : Observed := ⟨.init, [], [], [], false⟩

/-- What a handler is called for, or the destructor. -/
inductive Event where
  | connectionState (isConnected : Bool)
  | announceFeatures (features : Option Features)
  | addItem (alloc : Allocations) (a : AddItem)
  | changeItem (id : TweakId) (value : Variant)
  | removeItem (id : TweakId)
  | destroy

inductive Action where
  | handle (event : Event)
  | proceed -- the next step of the handler
  /-- `tweak_app_context_private_item_replace_current_value`, called by the application. -/
  | replaceCurrentValue (id : TweakId) (value : Variant)

def setModel (s : Observed) (m : ModelImpl) : Observed :=
  { s with client := { s.client with modelImpl := m } }

def connectionState : Bool → List Task
  | true => [.setFeatures .initMinimal, .resetModel, .setConnected true,
      .call (.onConnectionStatusChanged true), .pushSubscribe]
  | false => [.call (.onConnectionStatusChanged false), .setConnected false]

def addItem (s : Observed) (alloc : Allocations) (a : AddItem) : Option Observed :=
  match s.client.modelImpl.clientAddItemSection alloc a with
  | .error _ => none
  | .ok (.noChange, _, m) => some (s.setModel m)
  | .ok (.created, id, m) => some { s.setModel m with rest := [.call (.onNewItem id)] }
  | .ok (.valueUpdated previous, id, m) =>
    some { s.setModel m with
      rest := [.call (.onCurrentValueChanged id a.currentValue)]
      replaced := s.replaced ++ [⟨id, previous, a.currentValue⟩] }

/-- `client_change_item_pickle_impl`. After the swap the message has the previous value. -/
def changeItem (s : Observed) (id : TweakId) (value : Variant) : Observed :=
  match s.client.find? id with
  | none => s
  | some item =>
    { s.setModel (s.client.modelImpl.setCurrentValue id value) with
      rest :=
        if tweakVariantIsEqual value item.currentValue then []
        else [.call (.onCurrentValueChanged item.id value)]
      replaced := s.replaced ++ [⟨id, item.currentValue, value⟩] }

def removeItem (s : Observed) (id : TweakId) : Observed :=
  match s.client.find? id with
  | none => s
  | some item =>
    { s.setModel (s.client.modelImpl.removeItem item id) with
      rest := [.call (.onItemRemoved id)] }

/-- A handler calls `on_item_removed` for all entries of the index. -/
def removals (m : ModelImpl) : List Task :=
  (m.index.entries.map Prod.snd).map fun id => .call (.onItemRemoved id)

/-- A step of the handler, when `rest` comes after it. -/
def perform (s : Observed) (rest : List Task) : Task → Observed
  | .call callback => { s with rest := rest, calls := s.calls ++ [callback] }
  | .setFeatures features =>
    { s with rest := rest, client := { s.client with remotePeerFeatures := features } }
  | .setConnected isConnected =>
    { s with rest := rest, client := { s.client with connected := isConnected } }
  | .pushSubscribe => { s with rest := rest, client := s.client.push .subscribe }
  -- the items of the previous model are reported after the section
  | .resetModel => { s.setModel .empty with rest := removals s.client.modelImpl ++ rest }
  | .callRemoveCallbackForAllItems => { s with rest := removals s.client.modelImpl ++ rest }
  | .destroyBase => { s.setModel .empty with rest := rest, destroyed := true }

/-- The section of the replacement, and the push after it. -/
def replaceCurrentValue (s : Observed) (id : TweakId) (value : Variant) : Observed :=
  let (_, shouldPushChange, m) := s.client.itemReplaceCurrentValue id value
  let client := { s.client with modelImpl := m }
  { s with client := if shouldPushChange then client.push (.change id) else client }

/-- The first section of a handler; `none` if the client ends. -/
def handle (s : Observed) : Event → Option Observed
  | .connectionState isConnected => some { s with rest := connectionState isConnected }
  | .announceFeatures features => some { s with client := s.client.announceFeaturesImpl features }
  | .addItem alloc a => s.addItem alloc a
  | .changeItem id value => some (s.changeItem id value)
  | .removeItem id => some (s.removeItem id)
  -- the endpoint's destructor reports that the connection is lost
  | .destroy =>
    some { s with rest := connectionState false ++ [.callRemoveCallbackForAllItems, .destroyBase] }

def step (s : Observed) : Action → Option Observed
  | .handle event => if s.rest.isEmpty && !s.destroyed then s.handle event else none
  | .proceed =>
    match s.rest with
    | [] => none
    | task :: rest => some (s.perform rest task)
  | .replaceCurrentValue id value =>
    if s.destroyed then none else some (s.replaceCurrentValue id value)

/-- The callbacks tell the application what is in the model. -/
structure Mirrors (s : Observed) : Prop where
  orderly : Orderly s.calls
  shown : s.rest = [] → ∀ id, Shown s.calls id ↔ ∃ item, s.client.find? id = some item
  changed : s.rest = [] →
    s.calls.filterMap Callback.change? = s.replaced.filterMap Replacement.change?
  destroyed : s.rest = [] → s.destroyed = true → ∀ id, ¬ Shown s.calls id

/-- What a handler has recorded is what it has done to the values of items that were there. -/
def Recorded (s s' : Observed) : Prop :=
  (s'.replaced = s.replaced ∧
    ∀ k item item', s.client.find? k = some item → s'.client.find? k = some item' →
      item'.currentValue = item.currentValue) ∨
  ∃ r item, s'.replaced = s.replaced ++ [r] ∧ s.client.find? r.id = some item ∧
    item.currentValue = r.previous ∧
    s'.client.modelImpl = s.client.modelImpl.setCurrentValue r.id r.current

/-! ## Handlers that are not interrupted

When no replacement comes between its steps, a handler does to the client what `Client.step` says. -/

def Event.call? : Event → Option Client.Call
  | .connectionState isConnected => some (.connectionState isConnected)
  | .announceFeatures features => some (.announceFeatures features)
  | .addItem alloc a => some (.addItem alloc a)
  | .changeItem id value => some (.changeItem id value)
  | .removeItem id => some (.removeItem id)
  | .destroy => none

/-- The handler goes on until the state is `s'`. -/
def Finishes (s s' : Observed) : Prop := ∃ n, run step s (List.replicate n .proceed) = some s'

variable {s s' : Observed}

theorem Finishes.refl (s : Observed) : s.Finishes s := ⟨0, rfl⟩

variable {rest : List Task}

theorem Finishes.perform {task : Task} (hrest : s.rest = task :: rest)
    (h : (s.perform rest task).Finishes s') : s.Finishes s' := by
  obtain ⟨n, hrun⟩ := h
  refine ⟨n + 1, ?_⟩
  rw [List.replicate_succ]
  refine run_cons_eq_some.mpr ⟨s.perform rest task, ?_, hrun⟩
  rw [step, hrest]

/-- A handler makes the calls that are left to it one after another. -/
theorem Finishes.calls {callbacks : List Callback} (hrest : s.rest = callbacks.map .call ++ rest)
    (h : Finishes { s with rest := rest, calls := s.calls ++ callbacks } s') : s.Finishes s' := by
  -- the state is generalised because every call is a step
  induction callbacks generalizing s with
  | nil =>
    rw [List.append_nil] at h
    obtain ⟨client, _, calls, replaced, destroyed⟩ := s
    cases hrest
    exact h
  | cons callback callbacks ih =>
    apply Finishes.perform hrest
    apply ih rfl
    rw [List.append_cons] at h
    exact h

/-- A handler for a connection has no section of its own at its start. -/
theorem finishes_connectionState (s : Observed) (isConnected : Bool) :
    ∃ s', Finishes { s with rest := connectionState isConnected } s' ∧ s'.rest = [] ∧
      s'.client = s.client.connectionStatePickleImpl isConnected := by
  cases isConnected with
  | false =>
    refine ⟨_, .perform rfl (.perform rfl (.refl _)), rfl, rfl⟩
  | true =>
    have hremovals : removals s.client.modelImpl =
        ((s.client.modelImpl.index.entries.map Prod.snd).map .onItemRemoved).map .call := by
      rw [removals, List.map_map (f := Callback.onItemRemoved)]
      rfl
    refine ⟨_, .perform rfl (.perform rfl (.calls (congrArg (· ++ _) hremovals)
      (.perform rfl (.perform rfl (.perform rfl (.refl _)))))), rfl, rfl⟩

variable {alloc : Allocations} {a : AddItem}

/-- The handler of a new item comes to its end. -/
theorem finishes_addItem (hrest : s.rest = []) {m : ModelImpl}
    (hadd : s.client.modelImpl.clientAddItem alloc a = .ok m) :
    ∃ started s', s.addItem alloc a = some started ∧ started.Finishes s' ∧ s'.rest = [] ∧
      s'.client = { s.client with modelImpl := m } := by
  rw [ModelImpl.clientAddItem_eq_section] at hadd
  cases hsection : s.client.modelImpl.clientAddItemSection alloc a with
  | error fatal =>
    rw [hsection] at hadd
    cases hadd
  | ok result =>
    obtain ⟨status, id, m'⟩ := result
    rw [hsection] at hadd
    cases hadd
    rw [addItem, hsection]
    cases status with
    | noChange => exact ⟨_, _, rfl, .refl _, hrest, rfl⟩
    | created => exact ⟨_, _, rfl, .perform rfl (.refl _), rfl, rfl⟩
    | valueUpdated previous => exact ⟨_, _, rfl, .perform rfl (.refl _), rfl, rfl⟩

/-- Every handler comes to its end, with the client that the atomic model has then. -/
theorem handler_finishes (hrest : s.rest = []) {event : Event} {call : Client.Call}
    (hcall : event.call? = some call) {c' : Client} (hclient : s.client.step call = some c') :
    ∃ started s', s.handle event = some started ∧ started.Finishes s' ∧ s'.rest = [] ∧
      s'.client = c' := by
  cases event with
  | connectionState isConnected =>
    cases hcall
    cases hclient
    obtain ⟨s', hfinishes, hdone, heq⟩ := s.finishes_connectionState isConnected
    exact ⟨_, s', rfl, hfinishes, hdone, heq⟩
  | announceFeatures features =>
    cases hcall
    cases hclient
    exact ⟨_, _, rfl, .refl _, hrest, rfl⟩
  | addItem alloc a =>
    cases hcall
    rw [Client.step] at hclient
    split at hclient
    · cases hclient
    · next m hadd =>
        cases hclient
        exact finishes_addItem hrest hadd
  | changeItem id value =>
    cases hcall
    cases hclient
    rw [handle, changeItem, ModelImpl.clientChangeItem, ← Context.find?]
    cases s.client.find? id with
    | none => exact ⟨_, _, rfl, .refl _, hrest, rfl⟩
    | some item =>
      dsimp only
      split
      · exact ⟨_, _, rfl, .refl _, rfl, rfl⟩
      · exact ⟨_, _, rfl, .perform rfl (.refl _), rfl, rfl⟩
  | removeItem id =>
    cases hcall
    cases hclient
    rw [handle, removeItem, ModelImpl.clientRemoveItem, ← Context.find?]
    cases s.client.find? id with
    | none => exact ⟨_, _, rfl, .refl _, hrest, rfl⟩
    | some item => exact ⟨_, _, rfl, .perform rfl (.refl _), rfl, rfl⟩
  | destroy => cases hcall

/-! ## They do -/

/-- What is going to be shown when the tasks are done, if `has` are the ids of the model now. -/
def Completes (shown has : TweakId → Prop) : List Task → Prop
  | [] => ∀ id, shown id ↔ has id
  | .call callback :: rest => callback.Fits shown ∧ Completes (callback.apply shown) has rest
  | .resetModel :: rest =>
    (∀ id, shown id ↔ has id) ∧ Completes (fun _ => False) (fun _ => False) rest
  | .callRemoveCallbackForAllItems :: rest =>
    (∀ id, shown id ↔ has id) ∧ Completes (fun _ => False) has rest
  | .destroyBase :: rest => Completes shown (fun _ => False) rest
  | .setFeatures _ :: rest | .setConnected _ :: rest | .pushSubscribe :: rest =>
    Completes shown has rest

/-- The new values that are still to be reported. -/
def Task.change? : Task → Option (TweakId × Variant)
  | .call callback => callback.change?
  | .setFeatures _ | .setConnected _ | .pushSubscribe | .resetModel
  | .callRemoveCallbackForAllItems | .destroyBase => none

def has (s : Observed) (id : TweakId) : Prop := (s.client.find? id).isSome = true

structure Inv (s : Observed) : Prop where
  bijective : s.client.modelImpl.Bijective
  orderly : Orderly s.calls
  completes : Completes (Shown s.calls) s.has s.rest
  changed : s.calls.filterMap Callback.change? ++ s.rest.filterMap Task.change? =
    s.replaced.filterMap Replacement.change?
  destroyed : s.destroyed = true → s.client.modelImpl = .empty

theorem inv_init : init.Inv where
  bijective := .empty
  orderly := orderly_nil
  completes id := iff_of_false (not_shown_nil id) (by rintro ⟨⟩)
  changed := rfl
  destroyed := by rintro ⟨⟩

variable {s s' : Observed}

private theorem Inv.mirrors (h : s.Inv) : s.Mirrors := by
  have hshown (hrest : s.rest = []) (id : TweakId) :
      Shown s.calls id ↔ ∃ item, s.client.find? id = some item := by
    have hcompletes := h.completes
    rw [hrest] at hcompletes
    exact (hcompletes id).trans Option.isSome_iff_exists
  refine ⟨h.orderly, hshown, fun hrest => ?_, fun hrest hdestroyed id hid => ?_⟩
  · have hchanged := h.changed
    rw [hrest, List.filterMap_nil, List.append_nil] at hchanged
    exact hchanged
  · obtain ⟨item, hitem⟩ := (hshown hrest id).mp hid
    rw [Context.find?, h.destroyed hdestroyed] at hitem
    cases hitem

/-- Reporting every item as removed leaves nothing shown. -/
theorem completes_removals {ids : List TweakId} (hids : ids.Nodup) {shown has : TweakId → Prop}
    (hshown : ∀ id, shown id ↔ id ∈ ids) (hrest : Completes (fun _ => False) has rest) :
    Completes shown has ((ids.map fun id => .call (.onItemRemoved id)) ++ rest) := by
  induction ids generalizing shown with
  | nil =>
    have hnone : shown = fun _ => False := by
      funext id
      exact propext ((hshown id).trans (iff_of_false List.not_mem_nil not_false))
    rw [hnone]
    exact hrest
  | cons id ids ih =>
    rw [List.nodup_cons] at hids
    refine ⟨(hshown id).mpr List.mem_cons_self, ih hids.2 fun k => ?_⟩
    show shown k ∧ k ≠ id ↔ k ∈ ids
    rw [hshown, List.mem_cons]
    constructor
    · rintro ⟨hk | hk, hne⟩
      · exact absurd hk hne
      · exact hk
    · intro hk
      exact ⟨.inr hk, fun hne => hids.1 (hne ▸ hk)⟩

/-- None of these calls is about a value. -/
theorem changes_removals (m : ModelImpl) : (removals m).filterMap Task.change? = [] := by
  rw [List.filterMap_eq_nil_iff]
  intro task htask
  obtain ⟨id, _, rfl⟩ := List.mem_map.mp htask
  rfl

theorem has_setModel_empty (s : Observed) : (s.setModel .empty).has = fun _ => False := by
  funext id
  exact propext (iff_of_false (by rintro ⟨⟩) not_false)

/-- After the removal of everything nothing is shown. -/
theorem completes_all_removals (h : s.client.modelImpl.Bijective) {shown has : TweakId → Prop}
    (hshown : ∀ id, shown id ↔ s.has id) (hrest : Completes (fun _ => False) has rest) :
    Completes shown has (removals s.client.modelImpl ++ rest) :=
  completes_removals h.nodup_ids (fun id => (hshown id).trans h.mem_ids.symm) hrest

private theorem Inv.perform {task : Task} (h : s.Inv) (hrest : s.rest = task :: rest) :
    (s.perform rest task).Inv := by
  obtain ⟨hbijective, horderly, hcompletes, hchanged, hdestroyed⟩ := h
  rw [hrest] at hcompletes hchanged
  cases task with
  | call callback =>
    refine ⟨hbijective, horderly.concat hcompletes.1, ?_, ?_, hdestroyed⟩
    · show Completes (Shown (s.calls ++ [callback])) s.has rest
      rw [shown_concat]
      exact hcompletes.2
    · show (s.calls ++ [callback]).filterMap _ ++ rest.filterMap _ = s.replaced.filterMap _
      rw [List.filterMap_append, List.append_assoc, ← hchanged]
      cases hchange : callback.change? with
      | none => simp [Task.change?, hchange]
      | some change => simp [Task.change?, hchange]
  | setFeatures | setConnected | pushSubscribe =>
    exact ⟨hbijective, horderly, hcompletes, hchanged, hdestroyed⟩
  | resetModel =>
    refine ⟨.empty, horderly, ?_, ?_, fun _ => rfl⟩
    · show Completes (Shown s.calls) (s.setModel .empty).has _
      rw [has_setModel_empty]
      exact completes_all_removals hbijective hcompletes.1 hcompletes.2
    · show _ ++ (removals s.client.modelImpl ++ rest).filterMap _ = _
      rw [List.filterMap_append, changes_removals]
      exact hchanged
  | callRemoveCallbackForAllItems =>
    refine ⟨hbijective, horderly, completes_all_removals hbijective hcompletes.1 hcompletes.2, ?_,
      hdestroyed⟩
    show _ ++ (removals s.client.modelImpl ++ rest).filterMap _ = _
    rw [List.filterMap_append, changes_removals]
    exact hchanged
  | destroyBase =>
    refine ⟨.empty, horderly, ?_, hchanged, fun _ => rfl⟩
    show Completes (Shown s.calls) (s.setModel .empty).has rest
    rw [has_setModel_empty]
    exact hcompletes

/-! ### Handlers that start -/

/-- Between two handlers everything has been told. -/
theorem Inv.told (h : s.Inv) (hrest : s.rest = []) :
    (∀ id, Shown s.calls id ↔ s.has id) ∧
      s.calls.filterMap Callback.change? = s.replaced.filterMap Replacement.change? := by
  have hcompletes := h.completes
  have hchanged := h.changed
  rw [hrest] at hcompletes hchanged
  rw [List.filterMap_nil, List.append_nil] at hchanged
  exact ⟨hcompletes, hchanged⟩

private theorem Inv.connectionState (h : s.Inv) (hrest : s.rest = []) (isConnected : Bool) :
    Inv { s with rest := connectionState isConnected } := by
  obtain ⟨hshown, hchanged⟩ := h.told hrest
  cases isConnected with
  | true =>
    refine ⟨h.bijective, h.orderly, ⟨hshown, trivial, fun id => Iff.rfl⟩, ?_, h.destroyed⟩
    exact (List.append_nil _).trans hchanged
  | false =>
    refine ⟨h.bijective, h.orderly, ⟨trivial, hshown⟩, ?_, h.destroyed⟩
    exact (List.append_nil _).trans hchanged

private theorem Inv.destroy (h : s.Inv) (hrest : s.rest = []) :
    Inv { s with
      rest := Observed.connectionState false ++ [.callRemoveCallbackForAllItems, .destroyBase] } := by
  obtain ⟨hshown, hchanged⟩ := h.told hrest
  refine ⟨h.bijective, h.orderly, ⟨trivial, hshown, fun id => Iff.rfl⟩, ?_, h.destroyed⟩
  exact (List.append_nil _).trans hchanged

private theorem Inv.addItem (h : s.Inv) (hrest : s.rest = []) (hrunning : s.destroyed = false)
    (hstep : s.addItem alloc a = some s') : s'.Inv := by
  obtain ⟨hshown, hchanged⟩ := h.told hrest
  have hdestroyed (m : ModelImpl) : s.destroyed = true → m = .empty := by
    rw [hrunning]
    rintro ⟨⟩
  rw [Observed.addItem] at hstep
  split at hstep
  · cases hstep -- the client ends
  · next id m hsection => -- the item has this value already
      have hsame : m = s.client.modelImpl := ModelImpl.clientAddItemSection_cases hsection
      cases hstep
      rw [hsame]
      exact h
  · next id m hsection => -- a new item
      obtain ⟨hnew, hfind⟩ := ModelImpl.clientAddItemSection_cases hsection
      have hadd : s.client.modelImpl.clientAddItem alloc a = .ok m := by
        rw [ModelImpl.clientAddItem_eq_section, hsection]
        rfl
      cases hstep
      refine ⟨Client.clientAddItem_bijective h.bijective hadd, h.orderly, ⟨?_, fun k => ?_⟩,
        (List.append_nil _).trans hchanged, hdestroyed m⟩
      · show ¬ Shown s.calls id
        rw [hshown, has, Context.find?, hnew]
        rintro ⟨⟩
      · show Shown s.calls k ∨ k = id ↔ (m.model.find? k).isSome = true
        rw [hshown, hfind]
        by_cases hk : k = id
        · simp [hk]
        · simp [hk, has, Context.find?]
  · next previous id m hsection => -- a value to be reported
      obtain ⟨rfl, hdiffers, item, hitem, rfl⟩ := ModelImpl.clientAddItemSection_cases hsection
      cases hstep
      refine ⟨h.bijective.setCurrentValue _ _, h.orderly, ⟨trivial, fun k => ?_⟩, ?_, hdestroyed _⟩
      · show Shown s.calls k ↔ _
        rw [hshown, has, has, Context.find?, Context.find?, setModel,
          ModelImpl.isSome_setCurrentValue]
      · show s.calls.filterMap _ ++ [(id, a.currentValue)] = _
        rw [List.filterMap_append, ← hchanged]
        simp [Replacement.change?, hdiffers]

private theorem Inv.changeItem (h : s.Inv) (hrest : s.rest = []) (hrunning : s.destroyed = false)
    (id : TweakId) (value : Variant) : (s.changeItem id value).Inv := by
  obtain ⟨hshown, hchanged⟩ := h.told hrest
  rw [Observed.changeItem]
  split
  · exact h
  · next item hitem =>
      have hid : item.id = id := (h.bijective.ids id item hitem).1
      have hhas (k : TweakId) : Shown s.calls k ↔
          ((s.client.modelImpl.setCurrentValue id value).model.find? k).isSome = true := by
        rw [hshown, has, Context.find?, ModelImpl.isSome_setCurrentValue]
      have hdestroyed (m : ModelImpl) : s.destroyed = true → m = .empty := by
        rw [hrunning]
        rintro ⟨⟩
      -- the handler compares the new value with the previous one, not the other way round
      have hcomm := tweakVariantIsEqual_comm value item.currentValue
      split
      · next hequal =>
          refine ⟨h.bijective.setCurrentValue _ _, h.orderly, hhas, ?_, hdestroyed _⟩
          show s.calls.filterMap _ ++ [] = _
          rw [List.filterMap_append, ← hchanged]
          simp [Replacement.change?, ← hcomm, hequal]
      · next hdiffers =>
          refine ⟨h.bijective.setCurrentValue _ _, h.orderly, ⟨trivial, hhas⟩, ?_, hdestroyed _⟩
          show s.calls.filterMap _ ++ [(item.id, value)] = _
          rw [List.filterMap_append, ← hchanged, hid]
          simp [Replacement.change?, ← hcomm, hdiffers]

private theorem Inv.removeItem (h : s.Inv) (hrest : s.rest = []) (hrunning : s.destroyed = false)
    (id : TweakId) : (s.removeItem id).Inv := by
  obtain ⟨hshown, hchanged⟩ := h.told hrest
  rw [Observed.removeItem]
  split
  · exact h
  · next item hitem =>
      refine ⟨h.bijective.remove hitem, h.orderly, ⟨?_, fun k => ?_⟩,
        (List.append_nil _).trans hchanged, ?_⟩
      · show Shown s.calls id
        rw [hshown, has, hitem]
        rfl
      · show Shown s.calls k ∧ k ≠ id ↔
          ((s.client.modelImpl.removeItem item id).model.find? k).isSome = true
        rw [hshown, ModelImpl.removeItem_model]
        by_cases hk : k = id
        · simp [hk]
        · simp [hk, has, Context.find?]
      · show s.destroyed = true → _
        rw [hrunning]
        rintro ⟨⟩

private theorem Inv.replaceCurrentValue (h : s.Inv) (hrunning : s.destroyed = false) (id : TweakId)
    (value : Variant) : (s.replaceCurrentValue id value).Inv := by
  have hclient : (s.replaceCurrentValue id value).client.modelImpl =
      (s.client.itemReplaceCurrentValue id value).2.2 := by
    rw [Observed.replaceCurrentValue]
    dsimp only
    split <;> rfl
  have hhas : (s.replaceCurrentValue id value).has = s.has := by
    funext k
    rw [has, has, Context.find?, hclient, Context.isSome_itemReplaceCurrentValue]
  refine ⟨?_, h.orderly, hhas ▸ h.completes, h.changed, ?_⟩
  · rw [hclient]
    exact (s.client.itemReplaceCurrentValue_updates id value).bijective h.bijective
  · show s.destroyed = true → _
    rw [hrunning]
    rintro ⟨⟩

/-- Each step of a handler keeps what is going to be shown. -/
theorem inv_step {action : Action} (h : s.Inv) (hstep : s.step action = some s') : s'.Inv := by
  cases action with
  | handle event =>
    rw [step] at hstep
    split at hstep
    · next hready =>
        rw [Bool.and_eq_true, List.isEmpty_iff, Bool.not_eq_true'] at hready
        obtain ⟨hrest, hrunning⟩ := hready
        cases event with
        | connectionState isConnected =>
          cases hstep
          exact h.connectionState hrest isConnected
        | announceFeatures features =>
          cases hstep
          cases features <;>
            exact ⟨h.bijective, h.orderly, h.completes, h.changed, h.destroyed⟩
        | addItem alloc a => exact h.addItem hrest hrunning hstep
        | changeItem id value =>
          cases hstep
          exact h.changeItem hrest hrunning id value
        | removeItem id =>
          cases hstep
          exact h.removeItem hrest hrunning id
        | destroy =>
          cases hstep
          exact h.destroy hrest
    · cases hstep
  | proceed =>
    rw [step] at hstep
    split at hstep
    · cases hstep
    · next task rest hrest =>
        cases hstep
        exact h.perform hrest
  | replaceCurrentValue id value =>
    rw [step] at hstep
    split at hstep
    · cases hstep
    · next hrunning =>
        cases hstep
        exact h.replaceCurrentValue (Bool.not_eq_true _ ▸ hrunning) id value

theorem recorded_same {s s' : Observed} (hreplaced : s'.replaced = s.replaced)
    (hmodel : s'.client.modelImpl = s.client.modelImpl) : s.Recorded s' := by
  refine .inl ⟨hreplaced, fun k item item' hitem hitem' => ?_⟩
  rw [Context.find?, hmodel] at hitem'
  cases hitem.symm.trans hitem'
  rfl

theorem recorded_addItem (h : s.addItem alloc a = some s') : s.Recorded s' := by
  rw [addItem] at h
  split at h
  · cases h
  · next id m hsection =>
      cases h
      exact recorded_same rfl (ModelImpl.clientAddItemSection_cases hsection)
  · next id m hsection =>
      obtain ⟨hnew, hfind⟩ := ModelImpl.clientAddItemSection_cases hsection
      cases h
      refine .inl ⟨rfl, fun k item item' hitem hitem' => ?_⟩
      have hk : k ≠ id := by
        rintro rfl
        cases hnew.symm.trans hitem
      have hkept := (hfind k).symm.trans hitem'
      rw [if_neg hk] at hkept
      cases hitem.symm.trans hkept
      rfl
  · next previous id m hsection =>
      obtain ⟨hm, _, item, hitem, hprevious⟩ := ModelImpl.clientAddItemSection_cases hsection
      cases h
      exact .inr ⟨_, item, rfl, hitem, hprevious, hm⟩

/-- The first section of a handler records what it replaces. -/
theorem recorded_handle {event : Event} (h : s.handle event = some s') : s.Recorded s' := by
  cases event with
  | connectionState isConnected =>
    cases h
    exact recorded_same rfl rfl
  | announceFeatures features =>
    cases h
    cases features <;> exact recorded_same rfl rfl
  | addItem alloc a => exact recorded_addItem h
  | changeItem id value =>
    cases h
    rw [changeItem]
    split
    · exact recorded_same rfl rfl
    · next item hitem => exact .inr ⟨_, item, rfl, hitem, rfl, rfl⟩
  | removeItem id =>
    cases h
    rw [removeItem]
    split
    · exact recorded_same rfl rfl
    · next removed hremoved =>
        refine .inl ⟨rfl, fun k item item' hitem hitem' => ?_⟩
        replace hitem' :
            (s.client.modelImpl.removeItem removed id).model.find? k = some item' := hitem'
        rw [ModelImpl.removeItem_model] at hitem'
        split at hitem'
        · cases hitem'
        · cases hitem.symm.trans hitem'
          rfl
  | destroy =>
    cases h
    exact recorded_same rfl rfl

/-- Between two handlers the application has been shown exactly the items of the model; items are
reported as new when they are not shown and as removed when they are; new values are reported exactly
for the replacements that `tweak_variant_is_equal` distinguishes, in order; and when the context is
destroyed nothing is shown any more. -/
theorem callbacks_mirror_model (actions : List Action) :
    Throughout step Mirrors init actions ∧
      ∀ (s s' : Observed) (event : Event), s.handle event = some s' → s.Recorded s' :=
  ⟨throughout_invariant (P := Inv) inv_step Inv.mirrors inv_init, fun _ _ _ => recorded_handle⟩

/-- A client is connected and told of an item, whose value is changed while the application replaces
it; after a reconnection the item comes back, and the context is destroyed. -/
def twoVisits : List Action :=
  [.handle (.connectionState true), .proceed, .proceed, .proceed, .proceed, .proceed,
    .handle (.addItem ⟨true, true, true, true⟩ ⟨1, [65], [], [], .bool false, .bool false⟩), .proceed,
    .handle (.changeItem 1 (.bool true)), .replaceCurrentValue 1 (.bool false), .proceed,
    .handle (.connectionState true), .proceed, .proceed, .proceed, .proceed, .proceed, .proceed,
    .handle (.addItem ⟨true, true, true, true⟩ ⟨1, [65], [], [], .bool false, .bool true⟩), .proceed,
    .handle .destroy, .proceed, .proceed, .proceed, .proceed, .proceed]

theorem callbacks_mirror_model_twoVisits :
    Throughout step Mirrors init twoVisits ∧
      ∃ s, run step init twoVisits = some s ∧ s.destroyed = true ∧
        s.calls =
          [.onConnectionStatusChanged true, .onNewItem 1, .onCurrentValueChanged 1 (.bool true),
            .onItemRemoved 1, .onConnectionStatusChanged true, .onNewItem 1,
            .onConnectionStatusChanged false, .onItemRemoved 1] :=
  ⟨(callbacks_mirror_model twoVisits).1, _, rfl, rfl, rfl⟩

end Observed

end TweakTool.App
