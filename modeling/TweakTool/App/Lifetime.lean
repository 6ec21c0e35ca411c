import TweakTool.App.Tables
import TweakTool.Lib.Heap
import TweakTool.Lib.Run
import Mathlib.Data.Fintype.Basic
import Mathlib.Logic.Function.Basic

/-! # The lifetime of items

Items are records on the heap. The lock of the model protects the tables, and a function that is done
with its section may still have a pointer to a record: `io_loop_append` and `io_loop_change` print its
id, `tweak_app_item_get_metadata` goes through three sections, and `reset_model` destroys all records
of the model that it has replaced. Here any thread calls any function of a context, and what it does
in one section, or between two, is one step. -/

namespace TweakTool.App

open TweakTool.Lib

/-! ## What sections do to the ids -/

/-- At most the item with the id is created or removed. -/
def ModelImpl.Only (id : TweakId) (m m' : ModelImpl) : Prop :=
  ∀ k, k ≠ id → (m'.model.find? k).isSome = (m.model.find? k).isSome

/-- At most the item with the id is created, and none is removed. -/
structure ModelImpl.Grows (id : TweakId) (m m' : ModelImpl) : Prop where
  only : m.Only id m'
  keeps : ∀ k, m'.model.find? k = none → m.model.find? k = none

namespace ModelImpl

variable {m m' : ModelImpl} {id : TweakId}

theorem Grows.of_isSome (id : TweakId)
    (h : ∀ k, (m'.model.find? k).isSome = (m.model.find? k).isSome) : m.Grows id m' where
  only k _ := h k
  keeps k hk := by
    rw [← Option.not_isSome_iff_eq_none, h] at hk
    exact Option.not_isSome_iff_eq_none.mp hk

theorem Grows.refl (m : ModelImpl) (id : TweakId) : m.Grows id m := .of_isSome id fun _ => rfl

theorem grows_setCurrentValue (m : ModelImpl) (id id' : TweakId) (value : Variant) :
    m.Grows id (m.setCurrentValue id' value) :=
  .of_isSome id (m.isSome_setCurrentValue id' value)

theorem only_removeItem (m : ModelImpl) (item : Item) (id : TweakId) :
    m.Only id (m.removeItem item id) := by
  intro k hk
  rw [removeItem_model, if_neg hk]

theorem addItemToModel_grows (alloc : Allocations) (m : ModelImpl) (a : AddItem) :
    m.Grows a.id (m.addItemToModel alloc a).2 := by
  rw [addItemToModel_eq]
  split
  · next hadd =>
      have hfind (k : TweakId) := Table.find?_insert hadd.1 (Item.create a) k
      constructor
      · intro k hk
        show ((m.model.insert a.id (.create a)).find? k).isSome = _
        rw [hfind, if_neg hk]
      · intro k hk
        replace hk : (m.model.insert a.id (.create a)).find? k = none := hk
        rw [hfind] at hk
        split at hk
        · cases hk
        · exact hk
  · exact .refl m a.id

end ModelImpl

namespace Context

private theorem addItemSection_grows (c : Context) (alloc : Allocations) (itemIsCompatible : Bool)
    (a : AddItem) :
    c.modelImpl.Grows a.id (c.addItemSection alloc itemIsCompatible a).2.2 := by
  rw [addItemSection]
  split
  · exact .refl _ _
  · exact c.modelImpl.addItemToModel_grows alloc a

/-- A new value removes no record. -/
theorem itemReplaceCurrentValue_grows (c : Context) (id : TweakId) (value : Variant) :
    c.modelImpl.Grows id (c.itemReplaceCurrentValue id value).2.2 :=
  .of_isSome id (c.isSome_itemReplaceCurrentValue id value)

/-- The server removes the item it is told to. -/
theorem removeItemSection_only (c : Context) (id : TweakId) :
    c.modelImpl.Only id (c.removeItemSection id).2.2 := by
  rw [removeItemSection]
  split
  · next item hitem => exact c.modelImpl.only_removeItem item id
  · exact fun _ _ => rfl

/-- A change message removes no record. -/
theorem changeItemSection_grows {c : Context} {id id' : TweakId} {value : Variant} {changed : Bool}
    {m : ModelImpl} (h : c.changeItemSection id value = some (id', changed, m)) :
    c.modelImpl.Grows id m := by
  rw [changeItemSection] at h
  split at h
  · split at h
    · cases h
      exact c.modelImpl.grows_setCurrentValue _ _ _
    · cases h
      exact .refl _ _
  · cases h

end Context

namespace ModelImpl

variable {m m' : ModelImpl}

private theorem clientAddItem_grows {alloc : Allocations} {a : AddItem}
    (h : m.clientAddItem alloc a = .ok m') : m.Grows a.id m' := by
  rw [clientAddItem] at h
  split at h
  · split at h
    · cases h
    · split at h
      · cases h
      · split at h
        · cases h
          exact .refl _ _
        · cases h
          exact m.grows_setCurrentValue _ _ _
  · have hgrows := m.addItemToModel_grows alloc a
    split at h
    next id modelImpl hadd =>
      rw [hadd] at hgrows
      split at h
      · cases h
      · cases h
        exact hgrows

private theorem clientChangeItem_grows (m : ModelImpl) (id : TweakId) (value : Variant) :
    m.Grows id (m.clientChangeItem id value) := by
  rw [clientChangeItem]
  split
  · exact m.grows_setCurrentValue _ _ _
  · exact .refl _ _

/-- The client removes the item it is told to. -/
theorem clientRemoveItem_only (m : ModelImpl) (id : TweakId) : m.Only id (m.clientRemoveItem id) := by
  rw [clientRemoveItem]
  split
  · next item hitem => exact m.only_removeItem item id
  · exact fun _ _ => rfl

end ModelImpl

/-! ## Records -/

inductive Role where
  | server
  | client
  deriving DecidableEq

/-- The functions that look at one item and leave everything as it is. The first section of
`replace_current_value` is that of `tweakappclient.c`. -/
inductive Reader where
  | tweakAppItemGetSnapshot
  | tweakAppItemGetType
  | tweakAppContextPrivateItemCloneCurrentValue
  | tweakAppItemGetCookie
  | replaceCurrentValue
  deriving DecidableEq

inductive AppCall where
  | tweakAppServerAddItem (alloc : Allocations) (itemIsCompatible : Bool) (new : NewItem)
  | tweakAppServerRemoveItem (id : TweakId)
  | ioLoopSubscribe
  | ioLoopAppend (id : TweakId)
  | ioLoopChange (id : TweakId)
  | changeItemPickleImpl (id : TweakId) (value : Variant)
  | clientAddItemPickleImpl (alloc : Allocations) (a : AddItem)
  | clientChangeItemPickleImpl (id : TweakId) (value : Variant)
  | clientRemoveItemPickleImpl (id : TweakId)
  | resetModel
  | itemReplaceCurrentValue (id : TweakId) (value : Variant)
  | tweakAppItemGetMetadata (id : TweakId)
  | tweakAppTraverseItems
  | read (reader : Reader) (id : TweakId)

def AppCall.fits : AppCall → Role → Bool
  | .tweakAppServerAddItem _ _ _, role | .tweakAppServerRemoveItem _, role | .ioLoopSubscribe, role
  | .ioLoopAppend _, role | .changeItemPickleImpl _ _, role
  | .read .tweakAppItemGetCookie _, role => role == .server
  | .clientAddItemPickleImpl _ _, role | .clientChangeItemPickleImpl _ _, role
  | .clientRemoveItemPickleImpl _, role | .resetModel, role
  | .read .replaceCurrentValue _, role => role == .client
  | .ioLoopChange _, _ | .itemReplaceCurrentValue _ _, _ | .tweakAppItemGetMetadata _, _
  | .tweakAppTraverseItems, _ | .read _ _, _ => true

/-- What a thread keeps while it does not have the lock. -/
inductive Holding where
  | nothing
  | appending (item : Nat) -- `io_loop_append` is going to print `item->id`
  | changing (item : Nat) -- `io_loop_change` of the server is going to print `item->id`
  | initializing (item : Nat) -- `tweak_app_item_get_metadata` is going to take the lock for writing
  /-- `tweak_app_item_get_metadata` is going to take the lock for reading again. -/
  | copying (item : Nat)
  | swapping (model : Nat) -- `reset_model` has read `model->model`
  | destroying (model : Nat) -- `reset_model` has replaced the model
  deriving DecidableEq

/-- The record that the thread is going to access. -/
def Holding.item? : Holding → Option Nat
  | .appending item | .changing item | .initializing item | .copying item => some item
  | .nothing | .swapping _ | .destroying _ => none

def Holding.isSwapping : Holding → Bool
  | .swapping _ => true
  | .nothing | .appending _ | .changing _ | .initializing _ | .copying _ | .destroying _ => false

/-- A context in memory, with the threads `τ`. -/
structure Memory (τ : Type) where
  role : Role
  context : Context
  seed : TweakId
  heap : Heap TweakId τ -- the records of the items
  metadataInitialized : Nat → Bool -- `metadata_initialized`
  model : Nat -- models are numbered; this is the one that the context has
  contents : Nat → List Nat -- the records of the models that have been replaced
  threads : τ → Holding

namespace Memory

variable {τ : Type} [DecidableEq τ]

def init (role : Role) : Memory τ :=
  ⟨role, .init, 1, .empty, fun _ => false, 0, fun _ => [], fun _ => .nothing⟩

def hold (s : Memory τ) (t : τ) (holding : Holding) : Memory τ :=
  { s with threads := Function.update s.threads t holding }

/-- A section has changed the tables; `id` is the item that may have been created or removed. -/
def commit (s : Memory τ) (t : τ) (id : TweakId) (m : ModelImpl) : Memory τ :=
  { s with
    context := { s.context with modelImpl := m }
    heap :=
      match s.context.find? id, m.model.find? id with
      | none, some _ => s.heap.alloc id
      | some _, none => s.heap.free t id
      | _, _ => s.heap }

/-- The first section of a call, and what the thread keeps of it. -/
def call (s : Memory τ) (t : τ) : AppCall → Option (Memory τ)
  | .tweakAppServerAddItem alloc itemIsCompatible new =>
    let isNew := tweakModelUriToTweakIdIndexLookup s.context.modelImpl.index new.uri = tweakInvalidId
    let modelImpl := (s.context.addItemSection alloc itemIsCompatible (new.withId s.seed)).2.2
    some { s.commit t s.seed modelImpl with seed := if isNew then s.seed + 1 else s.seed }
  | .tweakAppServerRemoveItem id => some (s.commit t id (s.context.removeItemSection id).2.2)
  | .ioLoopSubscribe | .tweakAppTraverseItems | .read _ _ => some s
  | .ioLoopAppend id =>
    match s.heap.cells.find? id with
    | some item => some (s.hold t (.appending item))
    | none => some s
  | .ioLoopChange id =>
    match s.heap.cells.find? id with
    | some item =>
      -- the worker of a client prints the id that it was given
      if s.role = .server ∧ s.context.connected = true then some (s.hold t (.changing item))
      else some s
    | none => some s
  | .changeItemPickleImpl id value =>
    (s.context.changeItemSection id value).map fun (_, _, modelImpl) => s.commit t id modelImpl
  | .clientAddItemPickleImpl alloc a =>
    match s.context.modelImpl.clientAddItem alloc a with
    | .ok modelImpl => some (s.commit t a.id modelImpl)
    | .error _ => none
  | .clientChangeItemPickleImpl id value =>
    some (s.commit t id (s.context.modelImpl.clientChangeItem id value))
  | .clientRemoveItemPickleImpl id => some (s.commit t id (s.context.modelImpl.clientRemoveItem id))
  | .resetModel => some (s.hold t (.swapping s.model))
  | .itemReplaceCurrentValue id value =>
    some (s.commit t id (s.context.itemReplaceCurrentValue id value).2.2)
  | .tweakAppItemGetMetadata id =>
    match s.heap.cells.find? id with
    | some item =>
      if s.metadataInitialized item then some s else some (s.hold t (.initializing item))
    | none => some s

def swap (s : Memory τ) (t : τ) (old : Nat) : Memory τ :=
  { s with
    context := { s.context with modelImpl := .empty }
    heap := s.heap.clear t
    model := s.model + 1
    contents := Function.update s.contents s.model s.heap.addresses
    threads := Function.update s.threads t (.destroying old) }

def proceed (s : Memory τ) (t : τ) : Option (Memory τ) :=
  match s.threads t with
  | .nothing => none
  | .appending _ | .changing _ | .copying _ | .destroying _ => some (s.hold t .nothing)
  | .initializing item =>
    some { s.hold t (.copying item) with
      metadataInitialized := Function.update s.metadataInitialized item true }
  | .swapping old => some (s.swap t old)

inductive Action (τ : Type) where
  | call (thread : τ) (function : AppCall)
  | proceed (thread : τ)
  /-- The connection state or the features of the peer change. -/
  | connection (connected : Bool) (features : Features)

def step (s : Memory τ) : Action τ → Option (Memory τ)
  | .call thread function =>
    if s.threads thread = .nothing ∧ function.fits s.role = true then s.call thread function
    else none
  | .proceed thread => s.proceed thread
  | .connection connected features =>
    some { s with
      context := { s.context with connected := connected, remotePeerFeatures := features } }

/-- The records that the step accesses and has not created itself. -/
def accessed (s : Memory τ) : Action τ → List Nat
  | .call _ function =>
    match function with
    | .tweakAppServerAddItem _ _ _ | .resetModel => []
    | .tweakAppServerRemoveItem id | .ioLoopAppend id | .ioLoopChange id | .changeItemPickleImpl id _
    | .clientChangeItemPickleImpl id _ | .clientRemoveItemPickleImpl id
    | .itemReplaceCurrentValue id _ | .tweakAppItemGetMetadata id | .read _ id =>
      (s.heap.cells.find? id).toList
    | .clientAddItemPickleImpl _ a =>
      (s.heap.cells.find?
        (tweakModelUriToTweakIdIndexLookup s.context.modelImpl.index a.uri)).toList
    | .ioLoopSubscribe | .tweakAppTraverseItems => s.heap.addresses
  | .proceed thread =>
    match s.threads thread with
    | .appending item | .changing item | .initializing item | .copying item => [item]
    | .destroying old => s.contents old
    | .nothing | .swapping _ => []
  | .connection _ _ => []

/-- The step does not access a record that another thread has removed. -/
def Sound (s : Memory τ) (action : Action τ) : Prop :=
  ∀ item ∈ s.accessed action, ∀ t, s.heap.freedBy item = some t →
    match action with
    | .call thread _ | .proceed thread => t = thread
    | .connection _ _ => False

/-- No other thread keeps a pointer to a record that is removed, and no other thread is about to
replace the model that is replaced. -/
def Careful (s : Memory τ) : Action τ → Prop
  | .call thread (.tweakAppServerRemoveItem id) | .call thread (.clientRemoveItemPickleImpl id) =>
    ∀ item ∈ s.heap.cells.find? id, ∀ t, t ≠ thread → (s.threads t).item? ≠ some item
  | .proceed thread =>
    (s.threads thread).isSwapping = true → ∀ t, t ≠ thread →
      (s.threads t).isSwapping = false ∧ ∀ item ∈ s.heap.addresses, (s.threads t).item? ≠ some item
  | .call _ _ | .connection _ _ => True

instance [Fintype τ] (s : Memory τ) : ∀ action, Decidable (s.Careful action)
  | .call thread (.tweakAppServerRemoveItem id) | .call thread (.clientRemoveItemPickleImpl id) =>
    inferInstanceAs (Decidable (∀ item ∈ s.heap.cells.find? id, ∀ t, t ≠ thread →
      (s.threads t).item? ≠ some item))
  | .proceed thread =>
    inferInstanceAs (Decidable (_ → ∀ t, t ≠ thread →
      (s.threads t).isSwapping = false ∧ ∀ item ∈ s.heap.addresses, (s.threads t).item? ≠ some item))
  | .call _ (.tweakAppServerAddItem _ _ _) | .call _ .ioLoopSubscribe | .call _ (.ioLoopAppend _)
  | .call _ (.ioLoopChange _) | .call _ (.changeItemPickleImpl _ _)
  | .call _ (.clientAddItemPickleImpl _ _) | .call _ (.clientChangeItemPickleImpl _ _)
  | .call _ .resetModel | .call _ (.itemReplaceCurrentValue _ _)
  | .call _ (.tweakAppItemGetMetadata _) | .call _ .tweakAppTraverseItems | .call _ (.read _ _)
  | .connection _ _ => .isTrue trivial

end Memory

/-! ## Nothing is accessed that is gone -/

namespace Memory

variable {τ : Type}

structure Inv (s : Memory τ) : Prop where
  synced : ∀ id, (s.heap.cells.find? id).isSome = (s.context.find? id).isSome
  held : ∀ t item, (s.threads t).item? = some item → s.heap.freedBy item = none
  swapping : ∀ t old, s.threads t = .swapping old → old = s.model
  destroying : ∀ t old, s.threads t = .destroying old →
    old < s.model ∧ ∀ item ∈ s.contents old, s.heap.freedBy item = some t

private theorem inv_init (role : Role) : (init role : Memory τ).Inv where
  synced _ := rfl
  held _ _ h := by cases h
  swapping _ _ h := by cases h
  destroying _ _ h := by cases h

variable {s s' : Memory τ} {t : τ}

/-- What a call finds has not been freed. -/
theorem accessed_call (s : Memory τ) (t : τ) (function : AppCall) {item : Nat}
    (hitem : item ∈ s.accessed (.call t function)) : s.heap.freedBy item = none := by
  have hfound {id : TweakId} (hmem : item ∈ (s.heap.cells.find? id).toList) :
      s.heap.freedBy item = none :=
    (s.heap.live (Option.mem_toList.mp hmem)).2
  have hwalked (hmem : item ∈ s.heap.addresses) : s.heap.freedBy item = none := by
    obtain ⟨id, hid⟩ := Heap.mem_addresses.mp hmem
    exact (s.heap.live hid).2
  cases function with
  | tweakAppServerAddItem | resetModel => cases hitem
  | tweakAppServerRemoveItem | ioLoopAppend | ioLoopChange | changeItemPickleImpl
  | clientAddItemPickleImpl | clientChangeItemPickleImpl | clientRemoveItemPickleImpl
  | itemReplaceCurrentValue | tweakAppItemGetMetadata | read => exact hfound hitem
  | ioLoopSubscribe | tweakAppTraverseItems => exact hwalked hitem

private theorem Inv.sound (h : s.Inv) (action : Action τ) : s.Sound action := by
  intro item hitem t hfreed
  cases action with
  | call thread function =>
    rw [s.accessed_call thread function hitem] at hfreed
    cases hfreed
  | proceed thread =>
    have hheld (hkept : (s.threads thread).item? = some item) : t = thread := by
      rw [h.held thread item hkept] at hfreed
      cases hfreed
    simp only [accessed] at hitem
    split at hitem
    -- only the destruction of a model uses records that are gone, and its own thread removed them
    case h_5 old hthread =>
      rw [(h.destroying thread old hthread).2 item hitem] at hfreed
      exact (Option.some.inj hfreed).symm
    case h_6 => cases hitem
    case h_7 => cases hitem
    all_goals
      next hthread =>
        cases List.mem_singleton.mp hitem
        exact hheld (by rw [hthread]; rfl)
  | connection connected features => cases hitem

variable {id : TweakId} {m : ModelImpl}

/-- The section of another thread removes nothing that is kept. -/
theorem Inv.commit (h : s.Inv) (honly : s.context.modelImpl.Only id m)
    (hfree : ∀ item, s.heap.cells.find? id = some item → m.model.find? id = none →
      ∀ t', (s.threads t').item? ≠ some item) : (s.commit t id m).Inv := by
  have hother (k : TweakId) (hk : k ≠ id) :
      (s.heap.cells.find? k).isSome = (m.model.find? k).isSome :=
    (h.synced k).trans (honly k hk).symm
  rw [Memory.commit]
  -- the section has created the item, removed it, or neither
  split
  · next item hold hnew =>
      have hcell : s.heap.cells.find? id = none := by
        rw [← Option.not_isSome_iff_eq_none, h.synced, hold]
        simp
      refine ⟨fun k => ?_, ?_, h.swapping, ?_⟩
      · show ((s.heap.alloc id).cells.find? k).isSome = (m.model.find? k).isSome
        rw [Heap.find?_alloc hcell]
        split
        · next hk => rw [hk, hnew, Option.isSome_some, Option.isSome_some]
        · next hk => exact hother k hk
      · simp only [Heap.freedBy_alloc]
        exact h.held
      · simp only [Heap.freedBy_alloc]
        exact h.destroying
  · next item hold hnew =>
      refine ⟨fun k => ?_, fun t' item hitem => ?_, h.swapping, fun t' old hdestroy => ?_⟩
      · show ((s.heap.free t id).cells.find? k).isSome = (m.model.find? k).isSome
        rw [Heap.find?_free]
        split
        · next hk =>
            rw [hk, hnew]
            rfl
        · next hk => exact hother k hk
      · show (s.heap.free t id).freedBy item = none
        rw [Heap.freedBy_free_of_ne]
        · exact h.held t' item hitem
        · intro hcell
          exact hfree item hcell hnew t' hitem
      · obtain ⟨hlt, hgone⟩ := h.destroying t' old hdestroy
        exact ⟨hlt, fun item hitem => Heap.freedBy_free_of_some (hgone item hitem)⟩
  · next hcreated hremoved =>
      refine ⟨fun k => ?_, h.held, h.swapping, h.destroying⟩
      show (s.heap.cells.find? k).isSome = (m.model.find? k).isSome
      by_cases hk : k = id
      · rw [hk, h.synced]
        cases hold : s.context.find? id with
        | none =>
          cases hnew : m.model.find? id with
          | none => rfl
          | some item => exact absurd hnew (hcreated item hold)
        | some item =>
          cases hnew : m.model.find? id with
          | none => exact absurd hnew (hremoved item hold)
          | some item' => rfl
      · exact hother k hk

/-- A section that removes nothing keeps the invariant. -/
theorem Inv.grow (h : s.Inv) (hgrows : s.context.modelImpl.Grows id m) : (s.commit t id m).Inv := by
  apply h.commit hgrows.only
  -- an item of the heap was in the model, and still is
  intro item hcell hnone
  have hold : s.context.find? id = none := hgrows.keeps id hnone
  have hsynced := h.synced id
  rw [hcell, hold] at hsynced
  cases hsynced

variable [DecidableEq τ]

/-- What a thread starts to keep is there. -/
theorem Inv.hold (h : s.Inv) {holding : Holding}
    (hheld : ∀ item, holding.item? = some item → s.heap.freedBy item = none)
    (hswapping : ∀ old, holding = .swapping old → old = s.model)
    (hdestroying : ∀ old, holding ≠ .destroying old) : (s.hold t holding).Inv := by
  have hthreads (t' : τ) :
      (s.hold t holding).threads t' = if t' = t then holding else s.threads t' :=
    Function.update_apply s.threads t holding t'
  refine ⟨h.synced, fun t' item hitem => ?_, fun t' old hold => ?_, fun t' old hold => ?_⟩
  · rw [hthreads] at hitem
    split at hitem
    · exact hheld item hitem
    · exact h.held t' item hitem
  · rw [hthreads] at hold
    split at hold
    · exact hswapping old hold
    · exact h.swapping t' old hold
  · rw [hthreads] at hold
    split at hold
    · exact absurd hold (hdestroying old)
    · exact h.destroying t' old hold

private theorem Inv.drop (h : s.Inv) : (s.hold t .nothing).Inv :=
  h.hold (by rintro _ ⟨⟩) (by rintro _ ⟨⟩) (by rintro _ ⟨⟩)

/-- A pointer that was just looked up may be kept. -/
theorem Inv.keep (h : s.Inv) {item : Nat} {holding : Holding}
    (hcell : s.heap.cells.find? id = some item) (hitem : holding.item? = some item) :
    (s.hold t holding).Inv := by
  apply h.hold
  · intro item' hitem'
    rw [hitem] at hitem'
    cases hitem'
    exact (s.heap.live hcell).2
  · rintro old rfl
    cases hitem
  · rintro old rfl
    cases hitem

/-- The item that is removed is kept by no other thread, nor by the one that removes it. -/
theorem Inv.remove (h : s.Inv) (honly : s.context.modelImpl.Only id m)
    (hidle : s.threads t = .nothing)
    (hcareful : ∀ item ∈ s.heap.cells.find? id, ∀ t', t' ≠ t → (s.threads t').item? ≠ some item) :
    (s.commit t id m).Inv := by
  apply h.commit honly
  intro item hcell _ t' hitem
  by_cases ht : t' = t
  · rw [ht, hidle] at hitem
    cases hitem
  · exact hcareful item hcell t' ht hitem

private theorem Inv.call (h : s.Inv) {function : AppCall} (hidle : s.threads t = .nothing)
    (hcareful : s.Careful (.call t function)) (hstep : s.call t function = some s') : s'.Inv := by
  cases function with
  | tweakAppServerAddItem alloc itemIsCompatible new => -- the record is new, so nobody has it
    cases hstep
    have hgrown := h.grow (t := t)
      (s.context.addItemSection_grows alloc itemIsCompatible (new.withId s.seed))
    exact ⟨hgrown.synced, hgrown.held, hgrown.swapping, hgrown.destroying⟩
  | tweakAppServerRemoveItem id => -- nobody else has a pointer to the record
    cases hstep
    exact h.remove (s.context.removeItemSection_only id) hidle hcareful
  | ioLoopSubscribe | tweakAppTraverseItems | read reader id =>
    cases hstep
    exact h
  | ioLoopAppend id => -- the worker keeps the pointer after the section
    rw [Memory.call] at hstep
    split at hstep
    · next hcell =>
        cases hstep
        exact h.keep hcell rfl
    · cases hstep
      exact h
  | ioLoopChange id =>
    rw [Memory.call] at hstep
    split at hstep
    · next hcell =>
        split at hstep
        · cases hstep
          exact h.keep hcell rfl
        · cases hstep
          exact h
    · cases hstep
      exact h
  | changeItemPickleImpl id value =>
    obtain ⟨⟨_, _, modelImpl⟩, hsection, rfl⟩ := Option.map_eq_some_iff.mp hstep
    exact h.grow (Context.changeItemSection_grows hsection)
  | clientAddItemPickleImpl alloc a =>
    rw [Memory.call] at hstep
    split at hstep
    · next hadd =>
        cases hstep
        exact h.grow (ModelImpl.clientAddItem_grows hadd)
    · cases hstep
  | clientChangeItemPickleImpl id value =>
    cases hstep
    exact h.grow (s.context.modelImpl.clientChangeItem_grows id value)
  | clientRemoveItemPickleImpl id =>
    cases hstep
    exact h.remove (s.context.modelImpl.clientRemoveItem_only id) hidle hcareful
  | resetModel => -- the model is read, and replaced in a later step
    cases hstep
    exact h.hold (by rintro _ ⟨⟩) (by rintro _ ⟨⟩; rfl) (by rintro _ ⟨⟩)
  | itemReplaceCurrentValue id value =>
    cases hstep
    exact h.grow (s.context.itemReplaceCurrentValue_grows id value)
  | tweakAppItemGetMetadata id =>
    rw [Memory.call] at hstep
    split at hstep
    · next hcell =>
        split at hstep
        · cases hstep
          exact h
        · cases hstep
          exact h.keep hcell rfl
    · cases hstep
      exact h

/-- The model is replaced while nobody else has a pointer into it, or is about to replace it. -/
theorem Inv.swap (h : s.Inv) {old : Nat} (hthread : s.threads t = .swapping old)
    (hcareful : s.Careful (.proceed t)) : (s.swap t old).Inv := by
  have hothers := hcareful (by rw [hthread]; rfl)
  obtain rfl : old = s.model := h.swapping t old hthread
  have hthreads (t' : τ) : (s.swap t s.model).threads t' =
      if t' = t then .destroying s.model else s.threads t' :=
    Function.update_apply s.threads t _ t'
  refine ⟨fun _ => rfl, fun t' item hitem => ?_, fun t' old' hold => ?_, fun t' old' hold => ?_⟩
  · rw [hthreads] at hitem
    split at hitem
    · cases hitem
    · next ht =>
        show (s.heap.clear t).freedBy item = none
        rw [Heap.freedBy_clear_of_not_mem fun hmem => (hothers t' ht).2 item hmem hitem]
        exact h.held t' item hitem
  · rw [hthreads] at hold
    split at hold
    · cases hold
    · next ht =>
        have hnot := (hothers t' ht).1
        rw [hold] at hnot
        cases hnot
  · rw [hthreads] at hold
    split at hold
    · next ht =>
        -- the records that are going to be destroyed are those of the model that was there
        cases hold
        refine ⟨Nat.lt_succ_self _, fun item hitem => ?_⟩
        replace hitem : item ∈ Function.update s.contents s.model s.heap.addresses s.model := hitem
        rw [Function.update_self] at hitem
        rw [ht]
        exact Heap.freedBy_clear_of_mem hitem
    · obtain ⟨hlt, hgone⟩ := h.destroying t' old' hold
      refine ⟨Nat.lt_succ_of_lt hlt, fun item hitem => ?_⟩
      replace hitem : item ∈ Function.update s.contents s.model s.heap.addresses old' := hitem
      rw [Function.update_of_ne (Nat.ne_of_lt hlt)] at hitem
      exact Heap.freedBy_clear_of_some (hgone item hitem)

private theorem Inv.proceed (h : s.Inv) (hcareful : s.Careful (.proceed t))
    (hstep : s.proceed t = some s') : s'.Inv := by
  rw [Memory.proceed] at hstep
  split at hstep
  · cases hstep
  · cases hstep
    exact h.drop
  · cases hstep
    exact h.drop
  · cases hstep
    exact h.drop
  · cases hstep
    exact h.drop
  · next item hthread =>
      cases hstep
      have hheld : s.heap.freedBy item = none := h.held t item (by rw [hthread]; rfl)
      have hcopying : (s.hold t (.copying item)).Inv :=
        h.hold (by rintro _ ⟨⟩; exact hheld) (by rintro _ ⟨⟩) (by rintro _ ⟨⟩)
      exact ⟨hcopying.synced, hcopying.held, hcopying.swapping, hcopying.destroying⟩
  · next old hthread =>
      cases hstep
      exact h.swap hthread hcareful

/-- Every careful step keeps the invariant. -/
theorem inv_step {action : Action τ} (h : s.Inv) (hcareful : s.Careful action)
    (hstep : s.step action = some s') : s'.Inv := by
  cases action with
  | call thread function =>
    rw [step] at hstep
    split at hstep
    · next hready => exact h.call hready.1 hcareful hstep
    · cases hstep
  | proceed thread => exact h.proceed hcareful hstep
  | connection connected features =>
    cases hstep
    exact ⟨h.synced, h.held, h.swapping, h.destroying⟩

/-- No step accesses a record that another thread has removed. -/
theorem no_access_after_removal (role : Role) (actions : List (Action τ))
    (h : Along step Careful (init role) actions) : Along step Sound (init role) actions :=
  along_invariant_along (P := Inv) inv_step (fun hs _ => hs.sound _) (inv_init role) h

/-- An item is announced, gets its metadata and is removed, by threads that wait for each other. -/
theorem no_access_after_removal_waiting :
    Along step Sound (init .server : Memory Bool)
      [.connection true .initDefault,
        .call false (.tweakAppServerAddItem ⟨true, true, true, true⟩ true ⟨[1], [], [], .bool true⟩),
        .call true (.ioLoopAppend 1), .call false (.tweakAppItemGetMetadata 1), .proceed false,
        .proceed true, .call true (.ioLoopChange 1), .proceed false, .proceed true,
        .call false (.tweakAppServerRemoveItem 1), .call true (.ioLoopChange 1)] :=
  no_access_after_removal .server _ (by decide +kernel)

/-- The worker of a server has unlocked the model, and prints the id of an item that the application
has removed in the meantime. An application that asks a client for the metadata of an item does not
have the lock either while the model is replaced. -/
theorem item_accessed_after_removal :
    (∃ s, run step (init .server : Memory Bool)
        [.connection true .initDefault,
          .call false (.tweakAppServerAddItem ⟨true, true, true, true⟩ true ⟨[1], [], [], .bool true⟩),
          .call true (.ioLoopAppend 1), .call false (.tweakAppServerRemoveItem 1)] = some s ∧
      (s.step (.proceed true)).isSome = true ∧ ¬ s.Sound (.proceed true)) ∧
    ∃ s, run step (init .client : Memory Bool)
        [.call true (.clientAddItemPickleImpl ⟨true, true, true, true⟩
            ⟨1, [1], [], [], .bool true, .bool true⟩),
          .call false (.tweakAppItemGetMetadata 1), .call true .resetModel, .proceed true] = some s ∧
      (s.step (.proceed false)).isSome = true ∧ ¬ s.Sound (.proceed false) := by
  refine ⟨⟨_, rfl, rfl, ?_⟩, ⟨_, rfl, rfl, ?_⟩⟩
  · intro h
    cases h 0 List.mem_cons_self false rfl
  · intro h
    cases h 0 List.mem_cons_self true rfl

end Memory

end TweakTool.App
