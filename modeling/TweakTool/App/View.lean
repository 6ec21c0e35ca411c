import TweakTool.App.Model
import TweakTool.Lib.Feed

/-! # Models as views

What a server tells a client of an item is its declaration and its current value. A model is seen as
the map from ids to these. -/

namespace TweakTool.App

open TweakTool.Lib

structure Declaration where
  id : TweakId
  uri : Text
  description : Text
  «meta» : Text
  defaultValue : Variant
  deriving DecidableEq

namespace AddItem

def declaration (a : AddItem) : Declaration :=
  ⟨a.id, a.uri, a.description, a.meta, a.defaultValue⟩

def entry (a : AddItem) : Declaration × Variant := (a.declaration, a.currentValue)

theorem entry_injective : Function.Injective entry := by
  rintro ⟨_, _, _, _, _, _⟩ ⟨_, _, _, _, _, _⟩ h
  cases h
  rfl

end AddItem

namespace ModelImpl

def view (m : ModelImpl) : View TweakId Declaration Variant :=
  fun k => (m.model.find? k).map fun item => item.toAddItem.entry

variable {m : ModelImpl} {k : TweakId}

theorem view_eq_none : m.view k = none ↔ m.model.find? k = none :=
  Option.map_eq_none_iff

theorem view_of_find {item : Item} (h : m.model.find? k = some item) :
    m.view k = some item.toAddItem.entry := by
  rw [view, h]
  rfl

theorem view_eq_some {entry : Declaration × Variant} :
    m.view k = some entry ↔ ∃ item, m.model.find? k = some item ∧ item.toAddItem.entry = entry :=
  Option.map_eq_some_iff

/-- A new item is an added entry. -/
theorem view_insert {a : AddItem} (h : m.model.find? a.id = none) (index : Table Text TweakId) :
    view ⟨m.model.insert a.id (.create a), index⟩ = Function.update m.view a.id (some a.entry) := by
  funext k
  show ((m.model.insert a.id (.create a)).find? k).map _ = _
  rw [Table.find?_insert h]
  by_cases hk : k = a.id
  · rw [if_pos hk, hk, Function.update_self]
    rfl
  · rw [if_neg hk, Function.update_of_ne hk]
    rfl

/-- A removed item is no entry any more. -/
theorem view_removeItem (m : ModelImpl) (item : Item) (id : TweakId) :
    (m.removeItem item id).view = Function.update m.view id none := by
  funext k
  rw [view, removeItem_model]
  by_cases hk : k = id
  · rw [if_pos hk, hk, Function.update_self]
    rfl
  · rw [if_neg hk, Function.update_of_ne hk]
    rfl

/-- A new value is a modified entry. -/
theorem view_setCurrentValue (m : ModelImpl) (id : TweakId) (value : Variant) :
    (m.setCurrentValue id value).view = m.view.modify id value := by
  funext k
  rw [view, setCurrentValue_model]
  by_cases hk : k = id
  · rw [if_pos hk, hk, View.modify_self, view, Option.map_map, Option.map_map]
    rfl
  · rw [if_neg hk, View.modify_of_ne hk]
    rfl

end ModelImpl

end TweakTool.App
