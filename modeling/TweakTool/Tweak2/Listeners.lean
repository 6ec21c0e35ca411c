import TweakTool.App.Tables
import Mathlib.Logic.Function.Basic

/-! # Listeners

`tweak2.c`: the library for applications that have one server. An item may have a listener of its own,
which is kept in a record on the heap; the cookie of the item points to the record. When a client has
changed an item, the receiving thread looks the cookie up and calls the listener in the record, or the
listener of the library if there is no record. The application makes its calls one after another, and
the steps of `tweak_remove` and of the receiving thread interleave. -/

namespace TweakTool.Tweak2

open TweakTool.Lib TweakTool.App

/-- `struct tweak_default_client_item_changed_listener`; a null pointer is `none`. -/
structure Listener (F C : Type) where
  clientCallback : Option F
  clientCookie : C
  deriving DecidableEq

/-- The functions that create items, with `item_change_listener` and `cookie` of their description. -/
inductive Creation (F C : Type) where
  | addScalar -- `tweak_add_scalar_*`
  | addScalarEx (itemChangeListener : Option F) (cookie : C) -- `tweak_add_scalar_*_ex`
  | createVector (itemChangeListener : Option F) (cookie : C) -- `tweak_create_vector_*`
  | createString (itemChangeListener : Option F) (cookie : C) -- `tweak_create_string`

namespace Creation

variable {F C : Type}

/-- The listener that the item is given, with its cookie. -/
def own : Creation F C → Option (F × C)
  | .addScalar => none
  | .addScalarEx itemChangeListener cookie | .createVector itemChangeListener cookie
  | .createString itemChangeListener cookie => itemChangeListener.map fun f => (f, cookie)

/-- The record that is created; `tweak_create_string` does not look at `item_change_listener`. -/
def record : Creation F C → Option (Listener F C)
  | .addScalar => none
  | .addScalarEx itemChangeListener cookie | .createVector itemChangeListener cookie =>
    itemChangeListener.map fun f => ⟨some f, cookie⟩
  | .createString itemChangeListener cookie => some ⟨itemChangeListener, cookie⟩

/-- A string has a listener. -/
def Complete : Creation F C → Prop
  | .createString itemChangeListener _ => itemChangeListener.isSome = true
  | .addScalar | .addScalarEx _ _ | .createVector _ _ => True

instance : ∀ creation : Creation F C, Decidable creation.Complete
  | .createString _ _ => inferInstanceAs (Decidable (_ = _))
  | .addScalar | .addScalarEx _ _ | .createVector _ _ => .isTrue trivial

/-- Then the record is the listener that the item is given. -/
theorem record_eq {creation : Creation F C} (h : creation.Complete) :
    creation.record = creation.own.map fun l => ⟨some l.1, l.2⟩ := by
  cases creation with
  | addScalar => rfl
  | addScalarEx itemChangeListener cookie | createVector itemChangeListener cookie =>
    cases itemChangeListener <;> rfl
  | createString itemChangeListener cookie =>
    cases itemChangeListener with
    | none => cases h
    | some f => rfl

end Creation

inductive Application where
  | idle
  | freeing (id : TweakId) (itemCookie : Option Nat) -- `tweak_remove` has looked the cookie up
  | removing (id : TweakId) -- `tweak_remove` has freed the record

/-- The item that is being removed. -/
def Application.about : Application → Option TweakId
  | .idle => none
  | .freeing id _ | .removing id => some id

/-- How far the receiving thread has come in `on_current_value_changed`. -/
inductive Receiver (F C : Type) where
  | idle
  | reporting (id : TweakId)
  | found (id : TweakId) (itemCookie : Option Nat) -- the cookie has been looked up
  /-- There was no record, and what is to be called has been read; `library` remembers the listener
  that the library had been given then. -/
  | calling (id : TweakId) (itemChangeListener library : Option (F × C))

/-- The item whose change is being reported. -/
def Receiver.item {F C : Type} : Receiver F C → Option TweakId
  | .idle => none
  | .reporting id | .found id _ | .calling id _ _ => some id

/-- How many steps the report takes at most. -/
def Receiver.rest {F C : Type} : Receiver F C → Nat
  | .idle => 0
  | .calling _ _ _ => 1
  | .found _ _ => 2
  | .reporting _ => 3

/-- The item whose record may be used. -/
def Receiver.about {F C : Type} : Receiver F C → Option TweakId
  | .reporting id | .found id _ => some id
  | .idle | .calling _ _ _ => none

structure Report (F C : Type) where
  id : TweakId
  own : Option (F × C) -- the listener that the item was created with
  library : Option (F × C) -- the listener that the library had been given when it was read
  called : Option (F × C)

/-- The own listener is called, or that of the library if there is one. -/
def Report.Correct {F C : Type} (report : Report F C) : Prop :=
  report.called =
    match report.own with
    | some l => some l
    | none => report.library

inductive Fault where
  | nullListener
  | freedListener
  deriving DecidableEq

/-- The library, with the listeners `F` and the cookies `C` of the application. -/
structure Library (F C : Type) where
  server : Server
  itemCookie : TweakId → Option Nat -- the `item_cookie` of the items
  /-- The records that have been allocated; the address of a record is its position. -/
  records : List (Listener F C)
  freed : List Nat
  itemChangeListener : Option (F × C)
  installed : Option (F × C) -- what `tweak_set_item_change_listener` was last called with
  own : TweakId → Option (F × C) -- the listeners that the items were created with
  application : Application
  receiver : Receiver F C
  changed : List TweakId -- the items that clients have changed
  reports : List (Report F C)
  fault : Option Fault

namespace Library

variable {F C : Type}

def init : Library F C :=
  ⟨.init, fun _ => none, [], [], none, none, fun _ => none, .idle, .idle, [], [], none⟩

inductive Action (F C : Type) where
  /-- `malloc` of the record succeeds or not. -/
  | create (creation : Creation F C) (malloc : Bool) (alloc : Allocations) (new : NewItem)
  | setItemChangeListener (itemChangeListener : Option (F × C))
  | set (id : TweakId) (value : Variant) -- the functions `tweak_set_*`
  | remove (id : TweakId)
  | application -- `tweak_remove` goes on
  | changeItem (id : TweakId) (value : Variant)
  | receiver -- `on_current_value_changed` goes on

def tweakAppItemGetCookie (s : Library F C) (id : TweakId) : Option Nat :=
  if (s.server.find? id).isSome then s.itemCookie id else none

/-- `tweak_add_scalar_*`, `tweak_add_scalar_*_ex`, `tweak_create_vector_*`, `tweak_create_string`. The
record of an item that cannot be added is lost. -/
def create (s : Library F C) (creation : Creation F C) (malloc : Bool) (alloc : Allocations)
    (new : NewItem) : Option (Library F C) :=
  -- `TWEAK_FATAL`
  if creation.record.isSome && !malloc then none
  else
    let (id, server) := s.server.tweakAppServerAddItem alloc new
    let records := s.records ++ creation.record.toList
    if id = tweakInvalidId then some { s with server := server, records := records }
    else
      let itemCookie := creation.record.map fun _ => s.records.length
      some { s with
        server := server
        records := records
        itemCookie := Function.update s.itemCookie id itemCookie
        own := Function.update s.own id creation.own }

/-- A step of `tweak_remove`. -/
def proceed (s : Library F C) : Option (Library F C) :=
  match s.application with
  | .idle => none
  | .freeing id itemCookie =>
    some { s with freed := itemCookie.toList ++ s.freed, application := .removing id }
  | .removing id =>
    some { s with server := (s.server.tweakAppServerRemoveItem id).2, application := .idle }

/-- `change_item_pickle_impl`, up to the call of `on_current_value_changed`. -/
def changeItem (s : Library F C) (id : TweakId) (value : Variant) : Option (Library F C) :=
  (s.server.changeItemPickleImpl true id value).map fun (event, server) =>
    match event with
    | none => { s with server := server }
    | some (id, _) =>
      { s with server := server, receiver := .reporting id, changed := s.changed ++ [id] }

/-- The call of the listener in a record. -/
def callRecord (s : Library F C) (id : TweakId) (r : Nat) : Library F C :=
  if r ∈ s.freed then { s with fault := some .freedListener }
  else
    match s.records[r]? with
    | none | some ⟨none, _⟩ => { s with fault := some .nullListener }
    | some ⟨some f, cookie⟩ =>
      { s with
        receiver := .idle
        reports := s.reports ++ [⟨id, s.own id, s.installed, some (f, cookie)⟩] }

/-- A step of `on_current_value_changed`. -/
def report (s : Library F C) : Option (Library F C) :=
  match s.receiver with
  | .idle => none
  | .reporting id => some { s with receiver := .found id (s.tweakAppItemGetCookie id) }
  | .found id (some r) => some (s.callRecord id r)
  -- the lock is held while the listener of the library is read, not while it is called
  | .found id none =>
    some { s with receiver := .calling id s.itemChangeListener s.installed }
  | .calling id itemChangeListener library =>
    some { s with
      receiver := .idle
      reports := s.reports ++ [⟨id, s.own id, library, itemChangeListener⟩] }

def isIdle (s : Library F C) : Bool :=
  match s.application with
  | .idle => true
  | .freeing _ _ | .removing _ => false

/-- The next state; `none` if the step cannot be taken, or if the process has ended. -/
def step (s : Library F C) (action : Action F C) : Option (Library F C) :=
  if s.fault.isSome then none
  else
    match action with
    | .create creation malloc alloc new =>
      if s.isIdle then s.create creation malloc alloc new else none
    | .setItemChangeListener itemChangeListener =>
      if s.isIdle then
        some { s with itemChangeListener := itemChangeListener, installed := itemChangeListener }
      else none
    | .set id value =>
      if s.isIdle then
        some { s with server := (s.server.tweakAppItemReplaceCurrentValue id value).2 }
      else none
    | .remove id =>
      if s.isIdle then some { s with application := .freeing id (s.tweakAppItemGetCookie id) }
      else none
    | .application => s.proceed
    | .changeItem id value =>
      match s.receiver with
      | .idle => s.changeItem id value
      | .reporting _ | .found _ _ | .calling _ _ _ => none
    | .receiver => s.report

/-- Strings are created with listeners. An item that has a record is not removed while a change of it
is being reported, and not changed while it is being removed. -/
def Careful (s : Library F C) : Action F C → Prop
  | .create creation _ _ _ => creation.Complete
  | .remove id => s.tweakAppItemGetCookie id = none ∨ s.receiver.about ≠ some id
  | .changeItem id _ => s.tweakAppItemGetCookie id = none ∨ s.application.about ≠ some id
  | .setItemChangeListener _ | .set _ _ | .application | .receiver => True

instance (s : Library F C) : ∀ action, Decidable (s.Careful action)
  | .create creation _ _ _ => inferInstanceAs (Decidable creation.Complete)
  | .remove _ => inferInstanceAs (Decidable (_ ∨ _))
  | .changeItem _ _ => inferInstanceAs (Decidable (_ ∨ _))
  | .setItemChangeListener _ | .set _ _ | .application | .receiver => .isTrue trivial

/-- Every change is reported once, in their order, to the right listener, no listener that is null or
freed is used, and the receiving thread comes to the end of the report that it makes. -/
structure Dispatches (s : Library F C) : Prop where
  running : s.fault = none
  correct : ∀ report ∈ s.reports, report.Correct
  accounted : s.changed = s.reports.map Report.id ++ s.receiver.item.toList
  finishes : ∃ n s', run step s (List.replicate n .receiver) = some s' ∧ s'.receiver = .idle ∧
    s'.reports.map Report.id = s.changed

/-! ## Records and items -/

/-- The pointer is what the item was created with: a record with its listener, or null. -/
def Serves (s : Library F C) (id : TweakId) (itemCookie : Option Nat) : Prop :=
  match s.own id with
  | none => itemCookie = none
  | some l => ∃ r, itemCookie = some r ∧ s.records[r]? = some ⟨some l.1, l.2⟩

/-- The pointer may be used: its record is not freed, and not about to be. -/
structure Usable (s : Library F C) (id : TweakId) (itemCookie : Option Nat) : Prop where
  serves : s.Serves id itemCookie
  cookie : ∀ r, itemCookie = some r → s.itemCookie id = some r
  kept : ∀ r, itemCookie = some r → r ∉ s.freed
  present : itemCookie ≠ none → (s.server.find? id).isSome = true
  alone : itemCookie ≠ none → s.application.about ≠ some id
  issued : id < s.server.seed

/-- What the receiving thread relies on. -/
def Ready (s : Library F C) : Receiver F C → Prop
  | .idle => True
  | .reporting id => s.Usable id (s.itemCookie id)
  | .found id itemCookie => s.Usable id itemCookie
  | .calling id itemChangeListener library =>
    s.own id = none ∧ id < s.server.seed ∧ itemChangeListener = library

structure Inv (s : Library F C) : Prop where
  consistent : s.server.Consistent
  serves : ∀ id, (s.server.find? id).isSome = true → s.Serves id (s.itemCookie id)
  kept : ∀ id r, (s.server.find? id).isSome = true → s.itemCookie id = some r →
    s.application ≠ .removing id → r ∉ s.freed
  allocated : ∀ id r, s.itemCookie id = some r → r < s.records.length
  injective : ∀ id id' r, s.itemCookie id = some r → s.itemCookie id' = some r → id = id'
  freed : ∀ r ∈ s.freed, r < s.records.length
  freeing : ∀ id itemCookie, s.application = .freeing id itemCookie →
    itemCookie = s.tweakAppItemGetCookie id
  ready : s.Ready s.receiver
  correct : ∀ report ∈ s.reports, report.Correct
  accounted : s.changed = s.reports.map Report.id ++ s.receiver.item.toList
  running : s.fault = none
  installed : s.itemChangeListener = s.installed

private theorem inv_init : (init : Library F C).Inv where
  consistent := Server.consistent_init
  serves _ h := by cases h
  kept _ _ h := by cases h
  allocated _ _ h := by cases h
  injective _ _ _ h := by cases h
  freed _ h := by cases h
  freeing _ _ h := by cases h
  ready := trivial
  correct _ h := by cases h
  accounted := rfl
  running := rfl
  installed := rfl

variable {s s' : Library F C} {id : TweakId} {itemCookie : Option Nat}

theorem isIdle_iff : s.isIdle = true ↔ s.application = .idle := by
  rw [isIdle]
  split
  · next h => exact iff_of_true rfl h
  all_goals
    next h =>
      rw [h]
      constructor <;> rintro ⟨⟩

/-- The cookie of an item that is there. -/
theorem getCookie_of_present (h : (s.server.find? id).isSome = true) :
    s.tweakAppItemGetCookie id = s.itemCookie id := if_pos h

private theorem eq_some_of_getCookie {r : Nat} (h : s.tweakAppItemGetCookie id = some r) :
    s.itemCookie id = some r := by
  rw [tweakAppItemGetCookie] at h
  split at h
  · exact h
  · cases h

/-- New records do not change what a pointer stands for. -/
theorem Serves.mono (h : s.Serves id itemCookie) (hown : s'.own id = s.own id)
    (hrecords : ∃ new, s'.records = s.records ++ new) : s'.Serves id itemCookie := by
  rw [Serves] at h ⊢
  rw [hown]
  split
  · next hnone =>
      rw [hnone] at h
      exact h
  · next l hsome =>
      rw [hsome] at h
      obtain ⟨r, hr, hrecord⟩ := h
      obtain ⟨new, hnew⟩ := hrecords
      refine ⟨r, hr, ?_⟩
      rw [hnew, List.getElem?_append_left (List.getElem?_eq_some_iff.mp hrecord).1]
      exact hrecord

/-- The receiving thread and the listener of the library make no difference. -/
theorem Usable.frame (h : s.Usable id itemCookie) (itemChangeListener installed : Option (F × C))
    (receiver : Receiver F C) (changed : List TweakId) (reports : List (Report F C)) :
    Usable { s with itemChangeListener, installed, receiver, changed, reports } id itemCookie :=
  ⟨h.serves, h.cookie, h.kept, h.present, h.alone, h.issued⟩

/-- The pointer of an item that is not being removed may be used. -/
theorem Inv.usable (h : s.Inv) (hid : (s.server.find? id).isSome = true)
    (halone : s.itemCookie id ≠ none → s.application.about ≠ some id) :
    s.Usable id (s.itemCookie id) where
  serves := h.serves id hid
  cookie _ hr := hr
  kept r hr := by
    apply h.kept id r hid hr
    intro happlication
    apply halone (by rw [hr]; rintro ⟨⟩)
    rw [happlication]
    rfl
  present _ := hid
  alone := halone
  issued := by
    obtain ⟨item, hitem⟩ := Option.isSome_iff_exists.mp hid
    exact h.consistent.generated id item hitem

/-- What happens elsewhere keeps what the receiving thread relies on. -/
theorem Inv.ready_of (h : s.Inv) (hreceiver : s'.receiver = s.receiver)
    (husable : ∀ id itemCookie, s.receiver.about = some id → s.Usable id itemCookie →
      s'.Usable id itemCookie)
    (hcookie : ∀ id, id < s.server.seed → s'.itemCookie id = s.itemCookie id)
    (hown : ∀ id, id < s.server.seed → s'.own id = s.own id)
    (hseed : s.server.seed ≤ s'.server.seed) : s'.Ready s'.receiver := by
  have hready := h.ready
  rw [hreceiver]
  cases hthread : s.receiver with
  | idle => trivial
  | reporting id =>
    rw [hthread] at hready
    rw [Ready, hcookie id hready.issued]
    exact husable id _ (by rw [hthread]; rfl) hready
  | found id itemCookie =>
    rw [hthread] at hready
    exact husable id _ (by rw [hthread]; rfl) hready
  | calling id itemChangeListener library =>
    rw [hthread] at hready
    obtain ⟨hnone, hissued, hread⟩ := hready
    exact ⟨(hown id hissued).trans hnone, Nat.lt_of_lt_of_le hissued hseed, hread⟩

/-! ### Calls of the application -/

variable {server : Server}

/-- The server does something that neither adds nor removes an item. -/
theorem Inv.withServer (h : s.Inv) (hconsistent : server.Consistent)
    (hfind : ∀ k, (server.find? k).isSome = (s.server.find? k).isSome)
    (hseed : s.server.seed ≤ server.seed) : Inv { s with server := server } where
  consistent := hconsistent
  serves k hk := h.serves k (hfind k ▸ hk)
  kept k r hk := h.kept k r (hfind k ▸ hk)
  allocated := h.allocated
  injective := h.injective
  freed := h.freed
  freeing k cookie happlication := by
    rw [tweakAppItemGetCookie, hfind]
    exact h.freeing k cookie happlication
  ready := by
    refine h.ready_of rfl (fun k cookie _ husable => ?_) (fun _ _ => rfl) (fun _ _ => rfl) hseed
    exact ⟨husable.serves, husable.cookie, husable.kept,
      fun hne => (hfind k).trans (husable.present hne), husable.alone,
      Nat.lt_of_lt_of_le husable.issued hseed⟩
  correct := h.correct
  accounted := h.accounted
  running := h.running
  installed := h.installed

private theorem Inv.remove (h : s.Inv) (hidle : s.application = .idle)
    (hcareful : s.tweakAppItemGetCookie id = none ∨ s.receiver.about ≠ some id) :
    Inv { s with application := .freeing id (s.tweakAppItemGetCookie id) } where
  consistent := h.consistent
  serves := h.serves
  kept k r hk hr _ := h.kept k r hk hr (by rw [hidle]; rintro ⟨⟩)
  allocated := h.allocated
  injective := h.injective
  freed := h.freed
  freeing := by
    rintro k cookie ⟨⟩
    rfl
  ready := by
    refine h.ready_of rfl (fun k cookie habout husable => ?_) (fun _ _ => rfl) (fun _ _ => rfl)
      (Nat.le_refl _)
    refine ⟨husable.serves, husable.cookie, husable.kept, husable.present, fun hne hk => ?_,
      husable.issued⟩
    -- the item whose record is about to be used has one
    cases Option.some.inj hk
    obtain ⟨r, hr⟩ := Option.ne_none_iff_exists'.mp hne
    rcases hcareful with hnone | hother
    · rw [getCookie_of_present (husable.present hne), husable.cookie r hr] at hnone
      cases hnone
    · exact hother habout
  correct := h.correct
  accounted := h.accounted
  running := h.running
  installed := h.installed

private theorem Inv.free (h : s.Inv) (happlication : s.application = .freeing id itemCookie) :
    Inv { s with freed := itemCookie.toList ++ s.freed, application := .removing id } := by
  have hcookie (r : Nat) (hr : r ∈ itemCookie.toList) : s.itemCookie id = some r := by
    rw [Option.mem_toList, h.freeing id itemCookie happlication] at hr
    exact eq_some_of_getCookie hr
  -- no two items share a record
  have hother {k : TweakId} (hk : k ≠ id) {r : Nat} (hr : s.itemCookie k = some r)
      (hkept : r ∉ s.freed) : r ∉ itemCookie.toList ++ s.freed := by
    rw [List.mem_append, not_or]
    exact ⟨fun hmem => hk (h.injective k id r hr (hcookie r hmem)), hkept⟩
  refine ⟨h.consistent, h.serves, fun k r hk hr hne => ?_, h.allocated, h.injective, ?_, ?_, ?_,
    h.correct, h.accounted, h.running, h.installed⟩
  · refine hother (fun hid => hne (congrArg Application.removing hid.symm)) hr (h.kept k r hk hr ?_)
    rw [happlication]
    rintro ⟨⟩
  · intro r hr
    rcases List.mem_append.mp hr with hr | hr
    · exact h.allocated id r (hcookie r hr)
    · exact h.freed r hr
  · rintro k cookie ⟨⟩
  · refine h.ready_of rfl (fun k cookie _ husable => ?_) (fun _ _ => rfl) (fun _ _ => rfl)
      (Nat.le_refl _)
    have halone (hne : cookie ≠ none) : k ≠ id := by
      rintro rfl
      exact husable.alone hne (by rw [happlication]; rfl)
    refine ⟨husable.serves, husable.cookie, fun r hr => ?_, husable.present, fun hne hid => ?_,
      husable.issued⟩
    · exact hother (halone (by rw [hr]; rintro ⟨⟩)) (husable.cookie r hr) (husable.kept r hr)
    · exact halone hne (Option.some.inj hid).symm

private theorem find?_remove (server : Server) (id k : TweakId) :
    (server.tweakAppServerRemoveItem id).2.find? k = if k = id then none else server.find? k := by
  rw [Context.find?, (server.modelImpl_remove id).1, Context.removeItemSection]
  split
  · exact server.modelImpl.removeItem_model _ _ _
  · next hnone =>
      split
      · next hk => exact hk ▸ hnone
      · rfl

private theorem Inv.removed (h : s.Inv) (happlication : s.application = .removing id) :
    Inv { s with server := (s.server.tweakAppServerRemoveItem id).2, application := .idle } := by
  have hkept {k : TweakId}
      (hk : ((s.server.tweakAppServerRemoveItem id).2.find? k).isSome = true) :
      k ≠ id ∧ (s.server.find? k).isSome = true := by
    rw [find?_remove] at hk
    split at hk
    · cases hk
    · next hne => exact ⟨hne, hk⟩
  have hseed : (s.server.tweakAppServerRemoveItem id).2.seed = s.server.seed :=
    (s.server.modelImpl_remove id).2
  refine ⟨h.consistent.remove id, fun k hk => h.serves k (hkept hk).2, fun k r hk hr _ => ?_,
    h.allocated, h.injective, h.freed, ?_, ?_, h.correct, h.accounted, h.running, h.installed⟩
  · refine h.kept k r (hkept hk).2 hr ?_
    rw [happlication]
    rintro ⟨⟩
    exact (hkept hk).1 rfl
  · rintro k cookie ⟨⟩
  · refine h.ready_of rfl (fun k cookie _ husable => ?_) (fun _ _ => rfl) (fun _ _ => rfl)
      (Nat.le_of_eq hseed.symm)
    refine ⟨husable.serves, husable.cookie, husable.kept, fun hne => ?_, fun _ => by rintro ⟨⟩, ?_⟩
    · have hk : k ≠ id := by
        rintro rfl
        exact husable.alone hne (by rw [happlication]; rfl)
      show ((s.server.tweakAppServerRemoveItem id).2.find? k).isSome = true
      rw [find?_remove, if_neg hk]
      exact husable.present hne
    · exact hseed.symm ▸ husable.issued

variable {server' : Server} {alloc : Allocations} {new : NewItem}

/-- The item is added under the next id, or no item is. -/
theorem add_cases (h : server.Consistent)
    (hadd : server.tweakAppServerAddItem alloc new = (id, server')) :
    server'.Consistent ∧ server.seed ≤ server'.seed ∧
      (id = tweakInvalidId ∧ (∀ k, server'.find? k = server.find? k) ∨
      id = server.seed ∧ id ≠ tweakInvalidId ∧ server.seed < server'.seed ∧
        ∀ k, k ≠ id → server'.find? k = server.find? k) := by
  have hconsistent := h.add alloc new
  rw [hadd] at hconsistent
  refine ⟨hconsistent, ?_⟩
  rw [Server.tweakAppServerAddItem, Server.addItemLocked_eq h] at hadd
  split at hadd
  next id' shouldPushChange locked hlocked =>
    obtain ⟨hcontext, hseed⟩ := locked.pushed_if shouldPushChange (.append id')
    have hfind (k : TweakId) : server'.find? k = locked.find? k := by
      rw [← (Prod.mk.inj hadd).2, hcontext]
    rw [(Prod.mk.inj hadd).2] at hseed
    cases (Prod.mk.inj hadd).1
    rw [hseed]
    simp only [hfind]
    split at hlocked
    · cases hlocked
      refine ⟨Nat.le_succ _, .inr ⟨rfl, Nat.ne_of_gt h.positive, Nat.lt_succ_self _, ?_⟩⟩
      intro k hk
      rw [Server.find?_added h, if_neg hk]
    · cases hlocked
      exact ⟨server.seed_le_refused new.uri, .inl ⟨rfl, fun _ => rfl⟩⟩

/-- A record that no item has is lost. -/
theorem Inv.lose (h : s.Inv) (new : List (Listener F C)) :
    Inv { s with records := s.records ++ new } := by
  have hlength := (List.prefix_append s.records new).length_le
  refine ⟨h.consistent, fun k hk => (h.serves k hk).mono rfl ⟨new, rfl⟩, h.kept,
    fun k r hr => Nat.lt_of_lt_of_le (h.allocated k r hr) hlength, h.injective,
    fun r hr => Nat.lt_of_lt_of_le (h.freed r hr) hlength, h.freeing, ?_, h.correct, h.accounted,
    h.running, h.installed⟩
  refine h.ready_of rfl (fun k cookie _ husable => ?_) (fun _ _ => rfl) (fun _ _ => rfl)
    (Nat.le_refl _)
  exact ⟨husable.serves.mono rfl ⟨new, rfl⟩, husable.cookie, husable.kept, husable.present,
    husable.alone, husable.issued⟩

variable {creation : Creation F C}

/-- The item points to the last record, or has none. -/
theorem Inv.created (h : s.Inv) (hidle : s.application = .idle) (hconsistent : server.Consistent)
    (hseed : s.server.seed < server.seed)
    (hfind : ∀ k, k ≠ s.server.seed → server.find? k = s.server.find? k)
    (hcomplete : creation.Complete) :
    Inv { s with
      server := server
      records := s.records ++ creation.record.toList
      itemCookie := Function.update s.itemCookie s.server.seed
        (creation.record.map fun _ => s.records.length)
      own := Function.update s.own s.server.seed creation.own } := by
  have hrecord := Creation.record_eq hcomplete
  -- only the new item points to the new record
  have hcookie {k : TweakId} {r : Nat} (hr : Function.update s.itemCookie s.server.seed
      (creation.record.map fun _ => s.records.length) k = some r) :
      k = s.server.seed ∧ r = s.records.length ∧
          r < (s.records ++ creation.record.toList).length ∨
        k ≠ s.server.seed ∧ s.itemCookie k = some r := by
    rw [Function.update_apply] at hr
    split at hr
    · next hk =>
        obtain ⟨listener, hlistener, rfl⟩ := Option.map_eq_some_iff.mp hr
        refine .inl ⟨hk, rfl, ?_⟩
        rw [hlistener, Option.toList_some, List.length_append, List.length_singleton]
        exact Nat.lt_succ_self _
    · next hk => exact .inr ⟨hk, hr⟩
  have hlength := (List.prefix_append s.records creation.record.toList).length_le
  refine ⟨hconsistent, fun k hk => ?_, fun k r hk hr _ => ?_, fun k r hr => ?_,
    fun k k' r hr hr' => ?_, fun r hr => Nat.lt_of_lt_of_le (h.freed r hr) hlength, ?_, ?_,
    h.correct, h.accounted, h.running, h.installed⟩
  · by_cases hid : k = s.server.seed
    · rw [Serves]
      dsimp only
      rw [hid, Function.update_self, Function.update_self, hrecord]
      cases creation.own with
      | none => rfl
      | some l => exact ⟨s.records.length, rfl, List.getElem?_concat_length⟩
    · have hserves := h.serves k (hfind k hid ▸ hk)
      dsimp only
      rw [Function.update_of_ne hid]
      exact hserves.mono (Function.update_of_ne hid _ _) ⟨_, rfl⟩
  · rcases hcookie hr with ⟨_, rfl, _⟩ | ⟨hid, hr⟩
    -- what has been freed is older than the new record
    · exact fun hmem => Nat.lt_irrefl _ (h.freed _ hmem)
    · refine h.kept k r (hfind k hid ▸ hk) hr ?_
      rw [hidle]
      rintro ⟨⟩
  · rcases hcookie hr with ⟨_, _, hlt⟩ | ⟨_, hr⟩
    · exact hlt
    · exact Nat.lt_of_lt_of_le (h.allocated k r hr) hlength
  · rcases hcookie hr with ⟨hk, hnew, _⟩ | ⟨_, hr⟩ <;>
      rcases hcookie hr' with ⟨hk', hnew', _⟩ | ⟨_, hr'⟩
    · exact hk.trans hk'.symm
    · exact absurd (h.allocated k' r hr') (hnew ▸ Nat.lt_irrefl _)
    · exact absurd (h.allocated k r hr) (hnew' ▸ Nat.lt_irrefl _)
    · exact h.injective k k' r hr hr'
  · intro k cookie happlication
    rw [hidle] at happlication
    cases happlication
  · refine h.ready_of rfl (fun k cookie _ husable => ?_)
      (fun k hk => Function.update_of_ne (Nat.ne_of_lt hk) _ _)
      (fun k hk => Function.update_of_ne (Nat.ne_of_lt hk) _ _) (Nat.le_of_lt hseed)
    have hk : k ≠ s.server.seed := Nat.ne_of_lt husable.issued
    refine ⟨husable.serves.mono (Function.update_of_ne hk _ _) ⟨_, rfl⟩, fun r hr => ?_,
      husable.kept, fun hne => ?_, husable.alone, Nat.lt_trans husable.issued hseed⟩
    · exact (Function.update_of_ne hk _ _).trans (husable.cookie r hr)
    · show (server.find? k).isSome = true
      rw [hfind k hk]
      exact husable.present hne

/-- A new item has its record, or none. -/
theorem Inv.create (h : s.Inv) (hidle : s.application = .idle) (hcomplete : creation.Complete)
    {malloc : Bool} (hstep : s.create creation malloc alloc new = some s') : s'.Inv := by
  rw [Library.create] at hstep
  split at hstep
  · cases hstep
  · split at hstep
    next id server hadd =>
      obtain ⟨hconsistent, hseed, ⟨hid, hfind⟩ | ⟨hid, hvalid, hgrown, hfind⟩⟩ :=
        add_cases h.consistent hadd
      · rw [if_pos hid] at hstep
        cases hstep
        exact (h.withServer hconsistent (fun k => by rw [hfind]) hseed).lose _
      · rw [if_neg hvalid] at hstep
        cases hstep
        rw [hid] at hfind ⊢
        exact h.created hidle hconsistent hgrown hfind hcomplete

/-! ### Changes -/

variable {value : Variant}

private theorem changeItem_cases (h : server.Consistent) {event : Option (TweakId × Variant)}
    (hchange : server.changeItemPickleImpl true id value = some (event, server')) :
    server'.Consistent ∧ server'.seed = server.seed ∧ (server.find? id).isSome = true ∧
      (∀ k, (server'.find? k).isSome = (server.find? k).isSome) ∧
      ∀ id' value', event = some (id', value') → id' = id := by
  simp only [Server.changeItemPickleImpl, Server.changeItemLocked, Option.map_map,
    Option.map_eq_some_iff] at hchange
  obtain ⟨⟨id', changed, modelImpl⟩, hsection, heq⟩ := hchange
  have hupdates := Context.changeItemSection_updates hsection
  cases heq
  refine ⟨h.updates hupdates (Nat.le_refl _), rfl, ?_⟩
  rw [Context.changeItemSection] at hsection
  split at hsection
  · next item hitem =>
      refine ⟨by rw [hitem]; rfl, ?_⟩
      split at hsection
      · cases hsection
        refine ⟨server.modelImpl.isSome_setCurrentValue id value, fun id' value' hevent => ?_⟩
        split at hevent
        · cases hevent
          exact (h.bijective.ids id item hitem).1
        · cases hevent
      · cases hsection
        exact ⟨fun _ => rfl, by rintro _ _ ⟨⟩⟩
  · cases hsection

private theorem Inv.changeItem (h : s.Inv) (hreceiver : s.receiver = .idle)
    (hcareful : s.tweakAppItemGetCookie id = none ∨ s.application.about ≠ some id)
    (hstep : s.changeItem id value = some s') : s'.Inv := by
  obtain ⟨⟨event, server⟩, hchange, rfl⟩ := Option.map_eq_some_iff.mp hstep
  obtain ⟨hconsistent, hseed, hpresent, hfind, hevent⟩ := changeItem_cases h.consistent hchange
  have hserver := h.withServer hconsistent hfind (Nat.le_of_eq hseed.symm)
  cases event with
  | none => exact hserver
  | some change =>
    obtain ⟨id', value'⟩ := change
    cases hevent id' value' rfl
    have halone : s.itemCookie id ≠ none → s.application.about ≠ some id := by
      rw [getCookie_of_present hpresent] at hcareful
      exact hcareful.resolve_left
    have husable := hserver.usable ((hfind id).trans hpresent) halone
    refine ⟨hserver.consistent, hserver.serves, hserver.kept, hserver.allocated,
      hserver.injective, hserver.freed, hserver.freeing, ?_, hserver.correct, ?_,
      hserver.running, hserver.installed⟩
    · exact husable.frame _ _ _ _ _
    · have haccounted := h.accounted
      rw [hreceiver, Receiver.item, Option.toList_none, List.append_nil] at haccounted
      exact congrArg (· ++ [id]) haccounted

variable {receiver : Receiver F C}

/-- The receiving thread goes on, or has called a listener. -/
theorem Inv.receive (h : s.Inv) (hready : s.Ready receiver) (new : List (Report F C))
    (hnew : ∀ report ∈ new, report.Correct)
    (hitem : s.receiver.item.toList = new.map Report.id ++ receiver.item.toList) :
    Inv { s with receiver := receiver, reports := s.reports ++ new } := by
  refine ⟨h.consistent, h.serves, h.kept, h.allocated, h.injective, h.freed, h.freeing, ?_, ?_, ?_,
    h.running, h.installed⟩
  · cases receiver with
    | idle => trivial
    | calling id itemChangeListener library => exact hready
    | reporting id | found id itemCookie => exact Usable.frame hready _ _ _ _ _
  · intro report hreport
    rcases List.mem_append.mp hreport with hreport | hreport
    · exact h.correct report hreport
    · exact hnew report hreport
  · dsimp only
    rw [List.map_append, List.append_assoc, ← hitem]
    exact h.accounted

/-- A listener has been called. -/
theorem Inv.called (h : s.Inv) {report : Report F C} (hcorrect : report.Correct)
    (hitem : s.receiver.item = some report.id) :
    Inv { s with receiver := .idle, reports := s.reports ++ [report] } := by
  refine h.receive (show s.Ready .idle from trivial) [report] ?_ (by rw [hitem]; rfl)
  intro report' hreport'
  rw [List.mem_singleton.mp hreport']
  exact hcorrect

/-- No listener has been called yet. -/
theorem Inv.goes (h : s.Inv) (hready : s.Ready receiver) (hitem : s.receiver.item = receiver.item) :
    Inv { s with receiver := receiver } := by
  have hinv := h.receive hready [] (by rintro _ ⟨⟩) (by rw [hitem]; rfl)
  rw [List.append_nil] at hinv
  exact hinv

/-- The receiving thread makes its step, and has less to do then. -/
theorem Inv.report (h : s.Inv) (hreceiver : s.receiver ≠ .idle) :
    ∃ s', s.report = some s' ∧ s'.Inv ∧ s'.receiver.rest < s.receiver.rest ∧
      s'.changed = s.changed := by
  have hready := h.ready
  cases hthread : s.receiver with
  | idle => exact absurd hthread hreceiver
  | reporting id =>
    rw [hthread] at hready
    -- an item that is not there any more has no record
    have hlookup : s.tweakAppItemGetCookie id = s.itemCookie id := by
      rw [tweakAppItemGetCookie]
      split
      · rfl
      · next habsent =>
          by_contra hne
          exact habsent (hready.present (Ne.symm hne))
    refine ⟨{ s with receiver := .found id (s.tweakAppItemGetCookie id) },
      by rw [Library.report, hthread], h.goes ?_ (by rw [hthread]; rfl), Nat.lt_succ_self _, rfl⟩
    rw [hlookup]
    exact hready
  | found id itemCookie =>
    rw [hthread] at hready
    have hserves := hready.serves
    rw [Serves] at hserves
    cases hown : s.own id with
    | none =>
      rw [hown] at hserves
      cases hserves
      refine ⟨{ s with receiver := .calling id s.itemChangeListener s.installed },
        by rw [Library.report, hthread], h.goes ?_ (by rw [hthread]; rfl), Nat.lt_succ_self _, rfl⟩
      exact ⟨hown, hready.issued, h.installed⟩
    | some l =>
      rw [hown] at hserves
      obtain ⟨r, rfl, hrecord⟩ := hserves
      have hcall : s.report = some { s with
          receiver := .idle
          reports := s.reports ++ [⟨id, s.own id, s.installed, some l⟩] } := by
        rw [Library.report, hthread]
        dsimp only
        rw [callRecord, if_neg (hready.kept r rfl), hrecord]
      refine ⟨_, hcall, h.called ?_ (by rw [hthread]; rfl), Nat.zero_lt_succ _, rfl⟩
      rw [Report.Correct]
      dsimp only
      rw [hown]
  | calling id itemChangeListener library =>
    rw [hthread] at hready
    have hcall : s.report = some { s with
        receiver := .idle
        reports := s.reports ++ [⟨id, s.own id, library, itemChangeListener⟩] } := by
      rw [Library.report, hthread]
    refine ⟨_, hcall, h.called ?_ (by rw [hthread]; rfl), Nat.zero_lt_succ _, rfl⟩
    rw [Report.Correct]
    dsimp only
    rw [hready.1, hready.2.2]

theorem step_receiver (h : s.Inv) : s.step .receiver = s.report := by
  rw [step, h.running]
  rfl

/-- The report comes to its end, whatever the application does meanwhile or afterwards. -/
theorem Inv.finishes (h : s.Inv) :
    ∃ n s', run step s (List.replicate n .receiver) = some s' ∧ s'.receiver = .idle ∧
      s'.reports.map Report.id = s.changed := by
  induction hrest : s.receiver.rest using Nat.strong_induction_on generalizing s with
  | _ rest ih =>
    by_cases hidle : s.receiver = .idle
    · have haccounted := h.accounted
      rw [hidle, Receiver.item, Option.toList_none, List.append_nil] at haccounted
      exact ⟨0, s, rfl, hidle, haccounted.symm⟩
    · obtain ⟨s₁, hreport, hinv, hless, hchanged⟩ := h.report hidle
      obtain ⟨n, s', hrun, hend, hreports⟩ := ih _ (hrest ▸ hless) hinv rfl
      refine ⟨n + 1, s', ?_, hend, hreports.trans hchanged⟩
      exact run_cons_eq_some.mpr ⟨s₁, (step_receiver h).trans hreport, hrun⟩

private theorem Inv.dispatches (h : s.Inv) : s.Dispatches :=
  ⟨h.running, h.correct, h.accounted, h.finishes⟩

/-- Every careful step keeps the invariant. -/
theorem inv_step {action : Action F C} (h : s.Inv) (hcareful : s.Careful action)
    (hstep : s.step action = some s') : s'.Inv := by
  have hrunning : s.fault.isSome = false := by rw [h.running]; rfl
  simp only [step, hrunning, Bool.false_eq_true, if_false] at hstep
  cases action with
  | create creation malloc alloc new =>
    dsimp only at hstep
    split at hstep
    · next hidle => exact h.create (isIdle_iff.mp hidle) hcareful hstep
    · cases hstep
  -- a report that has read the old one goes on with it
  | setItemChangeListener itemChangeListener =>
    dsimp only at hstep
    split at hstep
    · cases hstep
      refine ⟨h.consistent, h.serves, h.kept, h.allocated, h.injective, h.freed, h.freeing, ?_,
        h.correct, h.accounted, h.running, rfl⟩
      exact h.ready_of rfl (fun k cookie _ husable => husable.frame _ _ _ _ _) (fun _ _ => rfl)
        (fun _ _ => rfl) (Nat.le_refl _)
    · cases hstep
  | set id value =>
    dsimp only at hstep
    split at hstep
    · cases hstep
      -- the same items, with another value
      obtain ⟨hmodel, hseed⟩ := s.server.modelImpl_replace id value
      refine h.withServer (h.consistent.replace id value) (fun k => ?_) (Nat.le_of_eq hseed.symm)
      rw [Context.find?, hmodel]
      exact s.server.isSome_itemReplaceCurrentValue id value k
    · cases hstep
  | remove id =>
    dsimp only at hstep
    split at hstep
    · next hidle =>
        cases hstep
        exact h.remove (isIdle_iff.mp hidle) hcareful
    · cases hstep
  | application =>
    replace hstep : s.proceed = some s' := hstep
    rw [proceed] at hstep
    split at hstep
    · cases hstep
    · next happlication =>
        cases hstep
        exact h.free happlication
    · next happlication =>
        cases hstep
        exact h.removed happlication
  | changeItem id value =>
    dsimp only at hstep
    split at hstep
    · next hidle => exact h.changeItem hidle hcareful hstep
    all_goals cases hstep
  | receiver =>
    by_cases hidle : s.receiver = .idle -- nothing to report
    · replace hstep : s.report = some s' := hstep
      rw [Library.report, hidle] at hstep
      cases hstep
    · obtain ⟨s₁, hreport, hinv, _⟩ := h.report hidle
      cases hreport.symm.trans hstep
      exact hinv

/-- The listener that an item was created with is called with its cookie, the one of the library for
other items, and no record that has been freed or has no listener is used. -/
theorem listeners_dispatched (actions : List (Action F C))
    (h : Along step Careful (init : Library F C) actions) :
    Throughout step Dispatches (init : Library F C) actions :=
  throughout_invariant_along (P := Inv) inv_step Inv.dispatches inv_init h

/-- A string with a listener and a scalar without one are changed, and the string is removed while the
change of the scalar is being reported. -/
theorem listeners_dispatched_removal :
    Throughout step Dispatches (init : Library Nat Nat)
      [.setItemChangeListener (some (7, 70)),
        .create (.createString (some 8) 80) true ⟨true, true, true, true⟩ ⟨[1], [], [], .string [65]⟩,
        .create (.addScalarEx none 90) true ⟨true, true, true, true⟩ ⟨[2], [], [], .bool false⟩,
        .changeItem 1 (.string [66]), .receiver, .receiver, .changeItem 2 (.bool true), .remove 1,
        .receiver, .application, .receiver, .application, .receiver] :=
  listeners_dispatched _ (by decide +kernel)

/-- A string without a listener has a record with the null pointer, which is called. A record is freed
by `tweak_remove` while the receiving thread has a pointer to it. -/
theorem listeners_misused :
    (∃ s, run step (init : Library Nat Nat)
        [.create (.createString none 80) true ⟨true, true, true, true⟩ ⟨[1], [], [], .string [65]⟩,
          .changeItem 1 (.string [66]), .receiver, .receiver] = some s ∧
      s.fault = some .nullListener) ∧
    ∃ s, run step (init : Library Nat Nat)
        [.create (.addScalarEx (some 8) 80) true ⟨true, true, true, true⟩ ⟨[1], [], [], .bool false⟩,
          .changeItem 1 (.bool true), .receiver, .remove 1, .application, .receiver] = some s ∧
      s.fault = some .freedListener :=
  ⟨⟨_, rfl, rfl⟩, ⟨_, rfl, rfl⟩⟩

end Library

end TweakTool.Tweak2
