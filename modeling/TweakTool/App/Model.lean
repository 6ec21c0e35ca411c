import TweakTool.Lib.Table
import TweakTool.Common.Variant

/-! # The model of a context

`tweakmodel.c` and `tweakmodel_uri_to_tweak_id_index.c`: a context keeps its items in one hash table
by id, and in a second one the id of each uri. Both are updated in steps that can fail when there is
no memory; the code that fills them takes a half-made update back.

The four allocations of an update are given by what they return. Copies of strings and variants are
the values they copy. -/

namespace TweakTool.App

open TweakTool.Lib

/-- `tweak_pickle_add_item`: all that is told about a new item. -/
structure AddItem where
  id : TweakId
  uri : Text
  description : Text
  «meta» : Text
  defaultValue : Variant
  currentValue : Variant
  deriving DecidableEq

/-- `tweak_item`, without the cookie of the application and the metadata derived from `meta`. -/
structure Item extends AddItem where
  variantType : VariantType
  deriving DecidableEq

/-- `struct tweak_model_impl` of a context. -/
structure ModelImpl where
  model : Table TweakId Item
  index : Table Text TweakId
  deriving DecidableEq

structure Allocations where
  item : Bool
  modelPair : Bool
  indexPair : Bool
  indexKey : Bool
  deriving DecidableEq

def Allocations.all (alloc : Allocations) : Bool :=
  alloc.item && alloc.modelPair && alloc.indexPair && alloc.indexKey

/-! ## The two tables -/

inductive ModelErrorCode where
  | success | indexError | badAlloc | itemNotFound
  deriving DecidableEq

inductive IndexResult where
  | success | keyAlreadyExists | noMemory | keyNotFound
  deriving DecidableEq

def attachItem (alloc : Allocations) (model : Table TweakId Item) (id : TweakId) (item : Item) :
    ModelErrorCode × Table TweakId Item :=
  if (model.find? id).isSome then (.indexError, model)
  else if alloc.modelPair = false then (.badAlloc, model)
  else (.success, model.insert id item)

/-- The item `tweak_model_create_item` fills in. -/
def Item.create (a : AddItem) : Item := ⟨a, a.currentValue.type⟩

def tweakModelCreateItem (alloc : Allocations) (model : Table TweakId Item) (a : AddItem) :
    ModelErrorCode × Table TweakId Item :=
  if alloc.item = false then (.badAlloc, model) else attachItem alloc model a.id (.create a)

def tweakModelRemoveItem (model : Table TweakId Item) (id : TweakId) :
    ModelErrorCode × Table TweakId Item :=
  match model.find? id with
  | some _ => (.success, model.erase id)
  | none => (.itemNotFound, model)

def tweakModelUriToTweakIdIndexInsert (alloc : Allocations) (index : Table Text TweakId)
    (uri : Text) (id : TweakId) : IndexResult × Table Text TweakId :=
  if (index.find? uri).isSome then (.keyAlreadyExists, index)
  else if alloc.indexPair = false then (.noMemory, index)
  else if alloc.indexKey = false then (.noMemory, index)
  else (.success, index.insert uri id)

def tweakModelUriToTweakIdIndexLookup (index : Table Text TweakId) (uri : Text) : TweakId :=
  (index.find? uri).getD tweakInvalidId

def tweakModelUriToTweakIdIndexRemove (index : Table Text TweakId) (uri : Text) :
    IndexResult × Table Text TweakId :=
  match index.find? uri with
  | some _ => (.success, index.erase uri)
  | none => (.keyNotFound, index)

/-! ## Updates of both -/

namespace ModelImpl

def tweakAppFindId (m : ModelImpl) (uri : Text) : TweakId :=
  tweakModelUriToTweakIdIndexLookup m.index uri

/-- `add_item_to_model`, which `tweak_app_server_add_item` has as well, written out. -/
def addItemToModel (alloc : Allocations) (m : ModelImpl) (a : AddItem) : TweakId × ModelImpl :=
  match tweakModelCreateItem alloc m.model a with
  | (.success, model) =>
    match tweakModelUriToTweakIdIndexInsert alloc m.index a.uri a.id with
    | (.success, index) => (a.id, ⟨model, index⟩)
    | (_, index) => (tweakInvalidId, ⟨(tweakModelRemoveItem model a.id).2, index⟩)
  | (_, model) => (tweakInvalidId, ⟨model, m.index⟩)

/-- The part of `tweak_app_server_remove_item` and `client_remove_item_pickle_impl` that updates the
tables, for an item that was found. -/
def removeItem (m : ModelImpl) (item : Item) (id : TweakId) : ModelImpl where
  model := (tweakModelRemoveItem m.model id).2
  index := (tweakModelUriToTweakIdIndexRemove m.index item.uri).2

/-- `tweak_variant_swap` with the current value of an item. -/
def setCurrentValue (m : ModelImpl) (id : TweakId) (value : Variant) : ModelImpl :=
  { m with model := m.model.modify id fun item => { item with currentValue := value } }

def empty : ModelImpl := ⟨.empty, .empty⟩

/-- The index has exactly the uris of the items, and items know their ids. -/
structure Bijective (m : ModelImpl) : Prop where
  indexed : ∀ u k, m.index.find? u = some k ↔ ∃ item, m.model.find? k = some item ∧ item.uri = u
  ids : ∀ k item, m.model.find? k = some item → item.id = k ∧ k ≠ tweakInvalidId

/-! ## What the updates do -/

variable {m : ModelImpl}

/-- The new item can be added. -/
def Addable (alloc : Allocations) (m : ModelImpl) (a : AddItem) : Prop :=
  m.model.find? a.id = none ∧ m.index.find? a.uri = none ∧ alloc.all = true

instance (alloc : Allocations) (m : ModelImpl) (a : AddItem) : Decidable (Addable alloc m a) :=
  inferInstanceAs (Decidable (_ ∧ _ ∧ _))

/-- Both tables are updated, or neither. -/
theorem addItemToModel_eq (alloc : Allocations) (m : ModelImpl) (a : AddItem) :
    addItemToModel alloc m a =
      if Addable alloc m a then (a.id, ⟨m.model.insert a.id (.create a), m.index.insert a.uri a.id⟩)
      else (tweakInvalidId, m) := by
  obtain ⟨model, index⟩ := m
  obtain ⟨hasItem, hasModelPair, hasIndexPair, hasIndexKey⟩ := alloc
  by_cases hid : model.find? a.id = none
  · -- a failure after the model was updated is taken back
    have hinserted : ((model.insert a.id (.create a)).find? a.id) = some (.create a) := by
      rw [Table.find?_insert hid, if_pos rfl]
    have hrollback := Table.erase_insert hid (Item.create a)
    by_cases huri : index.find? a.uri = none
    · cases hasItem <;> cases hasModelPair <;> cases hasIndexPair <;> cases hasIndexKey <;>
        simp [addItemToModel, tweakModelCreateItem, attachItem, tweakModelUriToTweakIdIndexInsert,
          tweakModelRemoveItem, Addable, Allocations.all, hid, huri, hinserted, hrollback]
    · have hsome : (index.find? a.uri).isSome = true := Option.isSome_iff_ne_none.mpr huri
      cases hasItem <;> cases hasModelPair <;>
        simp [addItemToModel, tweakModelCreateItem, attachItem, tweakModelUriToTweakIdIndexInsert,
          tweakModelRemoveItem, Addable, hid, huri, hsome, hinserted, hrollback]
  · have hsome : (model.find? a.id).isSome = true := Option.isSome_iff_ne_none.mpr hid
    cases hasItem <;> cases hasModelPair <;>
      simp [addItemToModel, tweakModelCreateItem, attachItem, Addable, hid, hsome]

theorem removeItem_model (m : ModelImpl) (item : Item) (id : TweakId) (k : TweakId) :
    (m.removeItem item id).model.find? k = if k = id then none else m.model.find? k := by
  rw [removeItem, tweakModelRemoveItem]
  cases hid : m.model.find? id with
  | some item => exact Table.find?_erase ..
  | none =>
    by_cases hk : k = id
    · rw [if_pos hk, hk]
      exact hid
    · rw [if_neg hk]

theorem removeItem_index (m : ModelImpl) (item : Item) (id : TweakId) (u : Text) :
    (m.removeItem item id).index.find? u = if u = item.uri then none else m.index.find? u := by
  rw [removeItem, tweakModelUriToTweakIdIndexRemove]
  cases huri : m.index.find? item.uri with
  | some k => exact Table.find?_erase ..
  | none =>
    by_cases hu : u = item.uri
    · rw [if_pos hu, hu]
      exact huri
    · rw [if_neg hu]

theorem setCurrentValue_model (m : ModelImpl) (id : TweakId) (value : Variant) (k : TweakId) :
    (m.setCurrentValue id value).model.find? k =
      if k = id then (m.model.find? id).map fun item => { item with currentValue := value }
      else m.model.find? k := Table.find?_modify ..

theorem isSome_setCurrentValue (m : ModelImpl) (id : TweakId) (value : Variant) (k : TweakId) :
    ((m.setCurrentValue id value).model.find? k).isSome = (m.model.find? k).isSome := by
  rw [setCurrentValue_model]
  split
  · next hk => rw [hk, Option.isSome_map]
  · rfl

/-! ## The bijection -/

namespace Bijective

theorem empty : ModelImpl.empty.Bijective where
  indexed := fun u k => by simp [ModelImpl.empty]
  ids := fun k item h => nomatch h

/-- No two items share a uri. -/
theorem unique (h : m.Bijective) {k k' : TweakId} {item item' : Item}
    (hk : m.model.find? k = some item) (hk' : m.model.find? k' = some item')
    (huri : item.uri = item'.uri) : k = k' := by
  have hindex := (h.indexed item.uri k).mpr ⟨item, hk, rfl⟩
  have hindex' := (h.indexed item.uri k').mpr ⟨item', hk', huri.symm⟩
  rw [hindex] at hindex'
  exact Option.some.inj hindex'

/-- An item is found by its uri. -/
theorem find?_uri (h : m.Bijective) {k : TweakId} {item : Item}
    (hk : m.model.find? k = some item) : m.index.find? item.uri = some k :=
  (h.indexed item.uri k).mpr ⟨item, hk, rfl⟩

/-- A new item with a new uri. -/
theorem add {alloc : Allocations} {a : AddItem} (h : m.Bijective) (hadd : Addable alloc m a)
    (hid : a.id ≠ tweakInvalidId) :
    Bijective ⟨m.model.insert a.id (.create a), m.index.insert a.uri a.id⟩ := by
  obtain ⟨hnew, huri, _⟩ := hadd
  constructor
  · intro u k
    show (m.index.insert a.uri a.id).find? u = _ ↔
      ∃ item, (m.model.insert a.id (.create a)).find? k = _ ∧ _
    rw [Table.find?_insert hnew, Table.find?_insert huri]
    by_cases hu : u = a.uri
    · rw [if_pos hu, Option.some.injEq]
      constructor
      · rintro rfl
        exact ⟨.create a, if_pos rfl, hu.symm⟩
      · rintro ⟨item, hitem, hitemUri⟩
        -- an old item with the uri would be in the index
        by_contra hk
        rw [if_neg (Ne.symm hk)] at hitem
        have hold := h.find?_uri hitem
        rw [hitemUri, hu, huri] at hold
        cases hold
    · rw [if_neg hu, h.indexed]
      by_cases hk : k = a.id
      · rw [if_pos hk, hk, hnew]
        constructor
        · rintro ⟨item, hitem, _⟩
          cases hitem
        · rintro ⟨item, hitem, hitemUri⟩
          cases hitem
          exact absurd hitemUri.symm hu
      · rw [if_neg hk]
  · intro k item hitem
    replace hitem : (m.model.insert a.id (.create a)).find? k = some item := hitem
    rw [Table.find?_insert hnew] at hitem
    by_cases hk : k = a.id
    · rw [if_pos hk] at hitem
      cases hitem
      exact ⟨hk.symm, hk ▸ hid⟩
    · rw [if_neg hk] at hitem
      exact h.ids k item hitem

/-- Model and index lose the item together. -/
theorem remove {item : Item} {id : TweakId} (h : m.Bijective)
    (hitem : m.model.find? id = some item) : (m.removeItem item id).Bijective := by
  constructor
  · intro u k
    rw [removeItem_index, removeItem_model]
    by_cases hu : u = item.uri
    · rw [if_pos hu]
      constructor
      · intro hnone
        cases hnone
      · rintro ⟨item', hitem', huri'⟩
        by_cases hk : k = id
        · rw [if_pos hk] at hitem'
          cases hitem'
        · rw [if_neg hk] at hitem'
          exact absurd (h.unique hitem' hitem (huri'.trans hu)) hk
    · rw [if_neg hu, h.indexed]
      by_cases hk : k = id
      · rw [if_pos hk, hk, hitem]
        constructor
        · rintro ⟨item', hitem', huri'⟩
          cases hitem'
          exact absurd huri'.symm hu
        · rintro ⟨item', hitem', _⟩
          cases hitem'
      · rw [if_neg hk]
  · intro k item' hitem'
    rw [removeItem_model] at hitem'
    split at hitem'
    · cases hitem'
    · exact h.ids k item' hitem'

/-- A new current value touches neither the ids nor the uris. -/
theorem setCurrentValue (h : m.Bijective) (id : TweakId) (value : Variant) :
    (m.setCurrentValue id value).Bijective := by
  have hsame (k : TweakId) (item : Item) :
      (m.setCurrentValue id value).model.find? k = some item →
        ∃ old, m.model.find? k = some old ∧ old.uri = item.uri ∧ old.id = item.id := by
    rw [setCurrentValue_model]
    split
    · next hk =>
        intro hitem
        obtain ⟨old, hold, rfl⟩ := Option.map_eq_some_iff.mp hitem
        exact ⟨old, hk ▸ hold, rfl, rfl⟩
    · intro hitem
      exact ⟨item, hitem, rfl, rfl⟩
  constructor
  · intro u k
    show m.index.find? u = some k ↔ _
    rw [h.indexed]
    constructor
    · rintro ⟨old, hold, huri⟩
      by_cases hk : k = id
      · refine ⟨{ old with currentValue := value }, ?_, huri⟩
        rw [setCurrentValue_model, if_pos hk, ← hk, hold]
        rfl
      · refine ⟨old, ?_, huri⟩
        rw [setCurrentValue_model, if_neg hk, hold]
    · rintro ⟨item, hitem, huri⟩
      obtain ⟨old, hold, holdUri, _⟩ := hsame k item hitem
      exact ⟨old, hold, holdUri.trans huri⟩
  · intro k item hitem
    obtain ⟨old, hold, _, holdId⟩ := hsame k item hitem
    exact ⟨holdId ▸ (h.ids k old hold).1, (h.ids k old hold).2⟩

/-- `tweak_app_find_id` returns the id of the item with the uri, or that there is none. -/
theorem findId (h : m.Bijective) (u : Text) :
    (∃ k item, m.model.find? k = some item ∧ item.uri = u ∧ m.tweakAppFindId u = k) ∨
    (∀ k item, m.model.find? k = some item → item.uri ≠ u) ∧
      m.tweakAppFindId u = tweakInvalidId := by
  rw [tweakAppFindId, tweakModelUriToTweakIdIndexLookup]
  cases hu : m.index.find? u with
  | some k =>
    obtain ⟨item, hitem, huri⟩ := (h.indexed u k).mp hu
    exact .inl ⟨k, item, hitem, huri, rfl⟩
  | none =>
    refine .inr ⟨?_, rfl⟩
    intro k item hitem huri
    have hfound := h.find?_uri hitem
    rw [huri, hu] at hfound
    cases hfound

/-- The lookup fails exactly if the uri is not there, because no item has the invalid id. -/
theorem lookup_eq_invalid_iff (h : m.Bijective) (u : Text) :
    tweakModelUriToTweakIdIndexLookup m.index u = tweakInvalidId ↔ m.index.find? u = none := by
  rw [tweakModelUriToTweakIdIndexLookup]
  cases hu : m.index.find? u with
  | some k =>
    obtain ⟨item, hitem, _⟩ := (h.indexed u k).mp hu
    exact iff_of_false (h.ids k item hitem).2 (fun h => nomatch h)
  | none => exact iff_of_true rfl rfl

/-- The ids of an index are as different as its uris. -/
theorem nodup_ids (h : m.Bijective) : (m.index.entries.map Prod.snd).Nodup := by
  refine List.Nodup.map_on ?_ (List.Nodup.of_map Prod.fst m.index.nodup)
  rintro ⟨u, k⟩ hmem ⟨u', k'⟩ hmem' hid
  cases hid
  obtain ⟨item, hitem, rfl⟩ := (h.indexed u k).mp (Table.mem_entries_iff.mp hmem)
  obtain ⟨item', hitem', rfl⟩ := (h.indexed u' k).mp (Table.mem_entries_iff.mp hmem')
  cases hitem.symm.trans hitem'
  rfl

/-- The index has the ids of the items. -/
theorem mem_ids (h : m.Bijective) {k : TweakId} :
    k ∈ m.index.entries.map Prod.snd ↔ (m.model.find? k).isSome = true := by
  rw [List.mem_map, Option.isSome_iff_exists]
  constructor
  · rintro ⟨⟨u, k⟩, hmem, rfl⟩
    obtain ⟨item, hitem, _⟩ := (h.indexed u k).mp (Table.mem_entries_iff.mp hmem)
    exact ⟨item, hitem⟩
  · rintro ⟨item, hitem⟩
    exact ⟨(item.uri, k), Table.mem_entries_iff.mpr (h.find?_uri hitem), rfl⟩

end Bijective

end ModelImpl

end TweakTool.App
