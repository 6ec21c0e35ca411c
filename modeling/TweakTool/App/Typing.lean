import TweakTool.App.Tables

/-! # The values an item can take

A client's change is checked against the current value of the item, an application's replacement is
not. The first is harmless whenever the item exists; the second keeps the type of the item exactly
if the application takes care of it. -/

namespace TweakTool.App

open TweakTool.Lib

/-- The values differ in type or, being vectors, in size. -/
def Differs (a b : Variant) : Prop := a.type ≠ b.type ∨ a.bufferSize ≠ b.bufferSize

instance (a b : Variant) : Decidable (Differs a b) := inferInstanceAs (Decidable (_ ∨ _))

private theorem checkValueCompatibility_of_differs {a b : Variant} (h : Differs a b) :
    checkValueCompatibility a b = false := by
  rw [checkValueCompatibility]
  by_cases htype : a.type = b.type
  · have hsize : a.bufferSize ≠ b.bufferSize := h.resolve_left (not_not.mpr htype)
    rw [if_neg (not_not.mpr htype)]
    cases a with
    | null => rfl
    | vector t bytes => exact beq_eq_false_iff_ne.mpr hsize
    | bool x | num t x | string x =>
      cases b <;> first | exact absurd rfl hsize | cases htype
  · rw [if_pos htype]

theorem not_differs_of_check {a b : Variant} (h : checkValueCompatibility a b = true) :
    ¬ Differs a b := by
  intro hdiffers
  rw [checkValueCompatibility_of_differs hdiffers] at h
  cases h

namespace Server

variable {hasCallback : Bool} {s s' : Server}

/-! ## Late changes -/

/-- A change message that is handled without harm: no field of a missing item is accessed; and for
an unknown id or a value of another type or size the model stays as it was and the application is
not told of a change. -/
def Harmless (hasCallback : Bool) (s : Server) : Call → Prop
  | .changeItem id value =>
    ∃ event s', s.perform hasCallback (.changeItem id value) = some (.currentValueChanged event, s') ∧
      ((∀ item, s.find? id = some item → Differs item.currentValue value) →
        s'.modelImpl = s.modelImpl ∧ event = none)
  | _ => True

/-- The item of a change message is in the model when the message is handled. -/
def Known (s : Server) : Call → Prop
  | .changeItem id _ => (s.find? id).isSome
  | _ => True

private theorem harmless_iff_known (hasCallback : Bool) (s : Server) (call : Call) :
    Harmless hasCallback s call ↔ Known s call := by
  cases call with
  | changeItem id value =>
    simp only [Harmless, Known, perform, changeItemPickleImpl, changeItemLocked,
      Context.changeItemSection]
    cases hitem : s.find? id with
    | none => simp
    | some item =>
      refine iff_of_true ?_ rfl
      by_cases hcheck : checkValueCompatibility item.currentValue value = true
      · simp only [hcheck, if_true, Option.map_some]
        refine ⟨_, _, rfl, ?_⟩
        intro hdiffers
        exact absurd (hdiffers item rfl) (not_differs_of_check hcheck)
      · simp only [hcheck]
        exact ⟨_, _, rfl, fun _ => ⟨rfl, rfl⟩⟩
  | _ => exact Iff.rfl

/-- From every server state and for every sequence of calls and messages, all change messages are
harmless exactly if each of them finds its item in the model. -/
theorem changes_harmless_iff (hasCallback : Bool) (s : Server) (calls : List Call) :
    Along (step hasCallback) (Harmless hasCallback) s calls ↔
      Along (step hasCallback) Known s calls := by
  have hstep : Harmless hasCallback = Known :=
    funext fun s => funext fun call => propext (harmless_iff_known hasCallback s call)
  rw [hstep]

/-- A change that was in flight when the server application removed the item. -/
theorem late_change_crashes :
    ∃ s, run (step true) init
        [.addItem ⟨true, true, true, true⟩ (letterItem 65), .removeItem 1] = some s ∧
      s.perform true (.changeItem 1 (.bool true)) = none :=
  ⟨_, rfl, rfl⟩

/-! ## Types -/

end Server

/-- The current value has the type and the size of the default value, and the type of the item. -/
def Item.Typed (item : Item) : Prop :=
  item.currentValue.type = item.defaultValue.type ∧ item.defaultValue.type = item.variantType ∧
    item.currentValue.bufferSize = item.defaultValue.bufferSize

/-- A value may take the place of the current one exactly if it does not differ from it. -/
theorem Item.Typed.setCurrentValue_iff {item : Item} (h : item.Typed) (value : Variant) :
    Item.Typed { item with currentValue := value } ↔ ¬ Differs item.currentValue value := by
  obtain ⟨htype, hdefault, hsize⟩ := h
  show value.type = item.defaultValue.type ∧ _ ∧ value.bufferSize = item.defaultValue.bufferSize ↔ _
  rw [Differs, not_or, not_not, not_not, htype, hsize]
  constructor
  · rintro ⟨hvalue, _, hvalueSize⟩
    exact ⟨hvalue.symm, hvalueSize.symm⟩
  · rintro ⟨hvalue, hvalueSize⟩
    exact ⟨hvalue.symm, hdefault, hvalueSize.symm⟩

namespace Server

variable {hasCallback : Bool} {s s' : Server}

def Typed (s : Server) : Prop := ∀ k item, s.find? k = some item → item.Typed

/-- The id and the value of a call of `tweak_app_item_replace_current_value`, by the application or
by one of the setters that do not look at the item. -/
def Call.replacement : Call → Option (TweakId × Variant)
  | .replaceCurrentValue id value => some (id, value)
  | .setScalarBool id value => some (id, .bool value)
  | .setScalar t id value => some (id, .num t value)
  | .setString id string => some (id, .string string)
  | _ => none

/-- A replacement by a value of another type or size is refused, and nothing happens. -/
def RefusesOther (s : Server) (call : Call) : Prop :=
  ∀ id value, call.replacement = some (id, value) →
    ∀ item, s.find? id = some item → Differs item.currentValue value →
      s.tweakAppItemReplaceCurrentValue id value = (.typeMismatch, s)

/-- The application replaces values by values of the same type and size. -/
def KeepsType (s : Server) (call : Call) : Prop :=
  ∀ id value, call.replacement = some (id, value) →
    ∀ item, s.find? id = some item → ¬ Differs item.currentValue value

/-- No replacement is ever refused. -/
theorem refusesOther_iff (s : Server) (call : Call) : RefusesOther s call ↔ KeepsType s call := by
  have hcode (id : TweakId) (value : Variant) :
      s.tweakAppItemReplaceCurrentValue id value ≠ (.typeMismatch, s) := by
    intro h
    have hresult := congrArg Prod.fst h
    simp only [tweakAppItemReplaceCurrentValue, replaceLocked,
      Context.itemReplaceCurrentValue] at hresult
    split at hresult
    · split at hresult <;> cases hresult
    · cases hresult
  constructor
  · intro h id value hcall item hitem hdiffers
    exact hcode id value (h id value hcall item hitem hdiffers)
  · intro h id value hcall item hitem hdiffers
    exact absurd hdiffers (h id value hcall item hitem)

private theorem find?_replace (s : Server) (id : TweakId) (value : Variant) (k : TweakId) :
    (s.tweakAppItemReplaceCurrentValue id value).2.find? k =
      if k = id then (s.find? id).map fun item =>
        if tweakVariantIsEqual item.currentValue value then item
        else { item with currentValue := value }
      else s.find? k := by
  rw [Context.find?, (s.modelImpl_replace id value).1, Context.itemReplaceCurrentValue]
  cases hitem : s.find? id with
  | none =>
    by_cases hk : k = id
    · rw [if_pos hk, hk]
      exact hitem
    · rw [if_neg hk]
      rfl
  | some item =>
    by_cases hequal : tweakVariantIsEqual item.currentValue value = true
    · by_cases hk : k = id
      · simp only [hequal, if_true, hk, Option.map_some]
        exact hitem
      · simp only [hequal, if_true, hk, if_false]
        rfl
    · have hfind : s.modelImpl.model.find? id = some item := hitem
      simp only [hequal, Bool.false_eq_true, if_false, Option.map_some,
        ModelImpl.setCurrentValue_model, hfind]
      rfl

/-- A replacement keeps the types exactly if the value is of the item's type and size. -/
theorem Typed.replace (h : s.Typed) {id : TweakId} {value : Variant}
    (hvalue : ∀ item, s.find? id = some item → ¬ Differs item.currentValue value) :
    (s.tweakAppItemReplaceCurrentValue id value).2.Typed := by
  intro k item hk
  rw [find?_replace] at hk
  split at hk
  · obtain ⟨old, hold, rfl⟩ := Option.map_eq_some_iff.mp hk
    split
    · exact h id old hold
    · exact ((h id old hold).setCurrentValue_iff value).mpr (hvalue old hold)
  · exact h k item hk

private theorem typed_init : Typed init := fun _ _ h => nomatch h

private theorem Typed.add (h : s.Typed) (hs : s.Consistent) (alloc : Allocations) (new : NewItem) :
    (s.tweakAppServerAddItem alloc new).2.Typed := by
  have hadded : (s.added new).Typed := by
    intro k item hk
    replace hk : (s.modelImpl.model.insert s.seed _).find? k = some item := hk
    rw [Table.find?_insert hs.find?_seed] at hk
    split at hk
    · cases hk
      exact ⟨rfl, rfl, rfl⟩
    · exact h k item hk
  simp only [tweakAppServerAddItem, addItemLocked_eq hs]
  by_cases hadd : s.modelImpl.index.find? new.uri = none ∧ alloc.all = true
  · simp only [hadd, and_self, if_true]
    split <;> exact hadded
  · simp only [hadd, if_false]
    exact h

/-- What is left has its types. -/
theorem Typed.remove (h : s.Typed) (id : TweakId) : (s.tweakAppServerRemoveItem id).2.Typed := by
  intro k item hk
  rw [Context.find?, (s.modelImpl_remove id).1, Context.removeItemSection] at hk
  split at hk
  · rw [ModelImpl.removeItem_model] at hk
    split at hk
    · cases hk
    · exact h k item hk
  · exact h k item hk

/-- A client's change has been checked. -/
theorem Typed.changeItem (h : s.Typed) {id : TweakId} {value : Variant}
    {event : Option (TweakId × Variant)}
    (hchange : s.changeItemPickleImpl hasCallback id value = some (event, s')) : s'.Typed := by
  simp only [changeItemPickleImpl, changeItemLocked, Context.changeItemSection] at hchange
  cases hitem : s.find? id with
  | none =>
    rw [hitem] at hchange
    cases hchange
  | some old =>
    rw [hitem] at hchange
    by_cases hcheck : checkValueCompatibility old.currentValue value = true
    · simp only [hcheck, if_true] at hchange
      cases hchange
      intro k item hk
      replace hk : (s.modelImpl.setCurrentValue id value).model.find? k = some item := hk
      rw [ModelImpl.setCurrentValue_model] at hk
      split at hk
      · obtain ⟨old', hold', rfl⟩ := Option.map_eq_some_iff.mp hk
        have hsame : old' = old := Option.some.inj (hold'.symm.trans hitem)
        rw [hsame]
        exact ((h id old hitem).setCurrentValue_iff value).mpr (not_differs_of_check hcheck)
      · exact h k item hk
    · simp only [hcheck] at hchange
      cases hchange
      exact h

/-- The bytes are taken for the size that the item has. -/
theorem Typed.setVector (h : s.Typed) (t : NumType) (id : TweakId) (buffer : Nat → UInt8) :
    (s.tweakSetVector t id buffer).Typed := by
  rw [tweakSetVector]
  split
  · exact h
  · next value hvalue =>
      split
      · exact h
      · next htype =>
          apply h.replace
          intro item hitem hdiffers
          have hcurrent : item.currentValue = value := by
            rw [Context.itemCloneCurrentValue, hitem] at hvalue
            exact Option.some.inj hvalue
          rw [hcurrent] at hdiffers
          rcases hdiffers with hdiffers | hdiffers
          · exact hdiffers (not_not.mp htype)
          · apply hdiffers
            simp [Variant.bufferSize]

/-- One step: calls that keep the types lead from typed items to typed items. -/
theorem Typed.step {call : Call} (h : s.Typed) (hs : s.Consistent) (hkeeps : KeepsType s call)
    (hstep : s.step hasCallback call = some s') : s'.Typed := by
  obtain ⟨⟨response, s''⟩, hperform, rfl⟩ := Option.map_eq_some_iff.mp hstep
  cases call with
  | addItem alloc new =>
    cases hperform
    exact h.add hs alloc new
  | removeItem id =>
    cases hperform
    exact h.remove id
  | replaceCurrentValue id value =>
    cases hperform
    exact h.replace (hkeeps id value rfl)
  | setScalarBool id value =>
    cases hperform
    exact h.replace (hkeeps id _ rfl)
  | setScalar t id value =>
    cases hperform
    exact h.replace (hkeeps id _ rfl)
  | setString id string =>
    cases hperform
    exact h.replace (hkeeps id _ rfl)
  | setVector t id buffer =>
    cases hperform
    exact h.setVector t id buffer
  | changeItem id value =>
    obtain ⟨⟨event, t⟩, hchange, heq⟩ := Option.map_eq_some_iff.mp hperform
    cases heq
    exact h.changeItem hchange
  | announceFeatures features | subscribe =>
    cases hperform
    exact h
  | connectionState isConnected =>
    cases hperform
    cases isConnected <;> exact h
  | ioLoop announced walkSuccess =>
    simp only [perform] at hperform
    split at hperform
    · cases hperform
    · cases hperform
      simp only [ioLoopSubscribe]
      split <;> exact h
    · cases hperform
      exact h

/-- In every run of a server, all items keep their types and all replacements by other values are
refused, exactly if the application never replaces a value by one of another type or size. -/
theorem types_kept_iff (hasCallback : Bool) (calls : List Call) :
    (Throughout (step hasCallback) Typed init calls ∧
      Along (step hasCallback) RefusesOther init calls) ↔
    Along (step hasCallback) KeepsType init calls := by
  have hrefuses : RefusesOther = KeepsType :=
    funext fun s => funext fun call => propext (refusesOther_iff s call)
  rw [hrefuses]
  refine ⟨fun h => h.2, fun h => ⟨?_, h⟩⟩
  have hstep {s : Server} {call : Call} {s' : Server} (hs : s.Consistent ∧ s.Typed)
      (hkeeps : KeepsType s call) (hcall : s.step hasCallback call = some s') :
      s'.Consistent ∧ s'.Typed := ⟨hs.1.step hcall, hs.2.step hs.1 hkeeps hcall⟩
  exact throughout_invariant_along hstep (fun hs => hs.2) ⟨consistent_init, typed_init⟩ h

/-- The value of a bool item is replaced by a number: the call succeeds, and the number is pushed to
the client. -/
theorem replace_changes_type :
    ∃ s s', run (step false) init
        [.addItem ⟨true, true, true, true⟩ (letterItem 65), .subscribe, .ioLoop true true] = some s ∧
      s.perform false (.replaceCurrentValue 1 (.num .sint32 5)) = some (.code .success, s') ∧
      s'.find? 1 = some ⟨⟨1, [65], [], [], .bool false, .num .sint32 5⟩, .bool⟩ ∧
      s'.queue = [.change 1] :=
  ⟨_, _, rfl, rfl, rfl, rfl⟩

end Server

end TweakTool.App
