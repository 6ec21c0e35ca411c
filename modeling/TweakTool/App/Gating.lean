import TweakTool.App.Service

/-! # Feature gating

A client may announce that it cannot handle strings and vectors. Each way to send an item or a value
looks at the announced features at a time of its own, and the changes of clients are passed on without
a look at them. What is sent later is scalar only if all that was decided before is. -/

namespace TweakTool

def VariantType.isScalar : VariantType → Bool
  | .bool | .num _ => true
  | .null | .string | .vector _ => false

namespace App

open TweakTool.Lib

/-- Without vectors, only scalars are compatible. -/
theorem Features.scalar_of_compatible {features : Features} (h : features.vectors = false)
    {t : VariantType} (ht : features.checkTypeCompatibility t = true) : t.isScalar = true := by
  cases t with
  | bool | num t => rfl
  | null => cases ht
  | string | vector t =>
    replace ht : features.vectors = true := ht
    rw [h] at ht
    cases ht

theorem type_eq_of_checkValueCompatibility {sample value : Variant}
    (h : checkValueCompatibility sample value = true) : sample.type = value.type := by
  by_contra hne
  rw [checkValueCompatibility, if_pos hne] at h
  cases h

def ServerMessage.isScalar : ServerMessage → Bool
  | .addItem a => a.defaultValue.type.isScalar && a.currentValue.type.isScalar
  | .changeItem _ value => value.type.isScalar
  | .announceFeatures _ | .removeItem _ => true

/-- The default value has the item's type, and an item of a scalar type has a scalar value. -/
structure Item.Tidy (item : Item) : Prop where
  default : item.defaultValue.type = item.variantType
  current : item.variantType.isScalar = true → item.currentValue.type.isScalar = true

theorem Item.Tidy.isScalar {item : Item} (h : item.Tidy) (hscalar : item.variantType.isScalar = true) :
    (ServerMessage.addItem item.toAddItem).isScalar = true := by
  rw [ServerMessage.isScalar, Bool.and_eq_true]
  exact ⟨h.default ▸ hscalar, h.current hscalar⟩

/-! ## What has been decided -/

/-- A message about an item with scalar values will come of the job. -/
def ModelImpl.ScalarJob (m : ModelImpl) : ServerJob → Prop
  | .append id => ∀ item ∈ m.model.find? id, item.variantType.isScalar = true
  | .change id => ∀ item ∈ m.model.find? id, item.currentValue.type.isScalar = true
  | .subscribe | .remove _ => True

instance (m : ModelImpl) : DecidablePred m.ScalarJob
  | .append id =>
    inferInstanceAs (Decidable (∀ item ∈ m.model.find? id, item.variantType.isScalar = true))
  | .change id =>
    inferInstanceAs (Decidable (∀ item ∈ m.model.find? id, item.currentValue.type.isScalar = true))
  | .subscribe | .remove _ => .isTrue trivial

/-- The call is not going to append an item with another value. -/
def ServerCall.ScalarAdd : ServerCall → Prop
  | .adding _ new true => new.initialValue.type.isScalar = true
  | .adding _ _ false | .idle | .pushing _ => True

instance : DecidablePred ServerCall.ScalarAdd
  | .adding _ new true => inferInstanceAs (Decidable (new.initialValue.type.isScalar = true))
  | .adding _ _ false | .idle | .pushing _ => .isTrue trivial

namespace ServerProcess

variable {ι : Type} {p p' : ServerProcess ι}

/-- Nothing that has been decided leads to a message with another value. -/
structure Settled (p : ServerProcess ι) : Prop where
  jobs : ∀ job, p.Due job → p.impl.modelImpl.ScalarJob job
  calls : ∀ i, (p.calls i).ScalarAdd
  hand : ∀ message ∈ p.worker.hand, message.isScalar = true

/-- What has been decided, place by place. -/
theorem settled_iff : p.Settled ↔
    (∀ job ∈ p.worker.jobs ++ (p.impl.queue ++ p.receiver.jobs), p.impl.modelImpl.ScalarJob job) ∧
    (∀ i, (p.calls i).ScalarAdd ∧ ∀ job ∈ (p.calls i).jobs, p.impl.modelImpl.ScalarJob job) ∧
    ∀ message ∈ p.worker.hand, message.isScalar = true := by
  constructor
  · intro h
    refine ⟨?_, fun i => ⟨h.calls i, fun job hjob => ?_⟩, h.hand⟩
    · intro job hjob
      apply h.jobs
      rcases List.mem_append.mp hjob with hjob | hjob
      · exact .inl hjob
      · rcases List.mem_append.mp hjob with hjob | hjob
        · exact .inr (.inl hjob)
        · exact .inr (.inr (.inl hjob))
    · exact h.jobs job (.inr (.inr (.inr ⟨i, hjob⟩)))
  · rintro ⟨hjobs, hcalls, hhand⟩
    refine ⟨?_, fun i => (hcalls i).1, hhand⟩
    rintro job (hjob | hjob | hjob | ⟨i, hjob⟩)
    · exact hjobs job (List.mem_append_left _ hjob)
    · exact hjobs job (List.mem_append_right _ (List.mem_append_left _ hjob))
    · exact hjobs job (List.mem_append_right _ (List.mem_append_right _ hjob))
    · exact (hcalls i).2 job hjob

instance [Fintype ι] (p : ServerProcess ι) : Decidable p.Settled := decidable_of_iff' _ settled_iff

end ServerProcess

/-! ## Models

Whatever happens to a model, its items keep their types and defaults, and scalar values stay scalar. -/

namespace ModelImpl

variable {m m' : ModelImpl}

/-- The items of the second model are items of the first one, and where a value was scalar it still
is. -/
def Inherits (m' m : ModelImpl) : Prop :=
  ∀ k item', m'.model.find? k = some item' → ∃ item, m.model.find? k = some item ∧
    item'.variantType = item.variantType ∧ item'.defaultValue = item.defaultValue ∧
    (item.currentValue.type.isScalar = true → item'.currentValue.type.isScalar = true)

theorem Inherits.refl (m : ModelImpl) : m.Inherits m := by
  intro k item hitem
  exact ⟨item, hitem, rfl, rfl, fun h => h⟩

private theorem inherits_removeItem (m : ModelImpl) (item : Item) (id : TweakId) :
    (m.removeItem item id).Inherits m := by
  intro k item' hitem'
  rw [removeItem_model] at hitem'
  split at hitem'
  · cases hitem'
  · exact Inherits.refl m k item' hitem'

theorem inherits_setCurrentValue {id : TweakId} {value : Variant}
    (hvalue : ∀ item ∈ m.model.find? id,
      item.currentValue.type.isScalar = true → value.type.isScalar = true) :
    (m.setCurrentValue id value).Inherits m := by
  intro k item' hitem'
  rw [setCurrentValue_model] at hitem'
  split at hitem'
  · next hk =>
      obtain ⟨item, hitem, rfl⟩ := Option.map_eq_some_iff.mp hitem'
      exact ⟨item, hk ▸ hitem, rfl, rfl, hvalue item hitem⟩
  · exact Inherits.refl m k item' hitem'

theorem Inherits.tidy (h : m'.Inherits m) (hm : ∀ k item, m.model.find? k = some item → item.Tidy)
    (k : TweakId) (item' : Item) (hitem' : m'.model.find? k = some item') : item'.Tidy := by
  obtain ⟨item, hitem, htype, hdefault, hcurrent⟩ := h k item' hitem'
  have htidy := hm k item hitem
  refine ⟨by rw [hdefault, htype, htidy.default], ?_⟩
  intro hscalar
  exact hcurrent (htidy.current (htype ▸ hscalar))

variable {job : ServerJob}

/-- Jobs about scalar items remain such. -/
theorem Inherits.scalarJob (h : m'.Inherits m) (hjob : m.ScalarJob job) : m'.ScalarJob job := by
  cases job with
  | append id =>
    intro item' hitem'
    obtain ⟨item, hitem, htype, _⟩ := h id item' hitem'
    exact htype ▸ hjob item hitem
  | change id =>
    intro item' hitem'
    obtain ⟨item, hitem, _, _, hcurrent⟩ := h id item' hitem'
    exact hcurrent (hjob item hitem)
  | subscribe | remove id => trivial

/-- A job is about the items there were when it came up. -/
theorem ScalarJob.of_find (h : m.ScalarJob job)
    (hfind : ∀ k, job.id? = some k → m'.model.find? k = m.model.find? k) : m'.ScalarJob job := by
  cases job with
  | append id | change id =>
    intro item hitem
    rw [hfind id rfl] at hitem
    exact h item hitem
  | subscribe | remove id => trivial

end ModelImpl

/-! ## Steps -/

namespace Server

variable {s : Server} {id : TweakId} {value : Variant}

private theorem inherits_removeItemLocked (s : Server) (id : TweakId) :
    (s.removeItemLocked id).2.2.modelImpl.Inherits s.modelImpl := by
  show (s.removeItemSection id).2.2.Inherits s.modelImpl
  rw [Context.removeItemSection]
  split
  · next item hitem => exact s.modelImpl.inherits_removeItem item id
  · exact .refl _

private theorem find?_of_removeItemLocked (h : (s.removeItemLocked id).2.1 = true) :
    ∃ item, s.find? id = some item := by
  replace h : (s.removeItemSection id).2.1 = true := h
  rw [Context.removeItemSection] at h
  split at h
  · next item hitem => exact ⟨item, hitem⟩
  · cases h

private theorem inherits_replaceLocked (hvalue : ∀ item ∈ s.find? id,
      item.currentValue.type.isScalar = true → value.type.isScalar = true) :
    (s.replaceLocked id value).2.2.modelImpl.Inherits s.modelImpl := by
  show (s.itemReplaceCurrentValue id value).2.2.Inherits s.modelImpl
  rw [Context.itemReplaceCurrentValue]
  split
  · split
    · exact .refl _
    · exact ModelImpl.inherits_setCurrentValue hvalue
  · exact .refl _

/-- The server has looked at the type of the old value. -/
theorem find?_of_replaceLocked (h : (s.replaceLocked id value).2.1 = true) :
    ∃ item, s.find? id = some item ∧
      s.remotePeerFeatures.checkTypeCompatibility item.currentValue.type = true := by
  replace h : (s.itemReplaceCurrentValue id value).2.1 = true := h
  rw [Context.itemReplaceCurrentValue] at h
  split at h
  · next item hitem =>
      split at h
      · cases h
      · exact ⟨item, hitem, (Bool.and_eq_true_iff.mp h).1⟩
  · cases h

end Server

namespace ServerProcess

variable {ι : Type} {p p' : ServerProcess ι}

/-- What holds whether or not the client is restricted: the jobs are about items there have been. -/
structure Sound (p : ServerProcess ι) : Prop where
  consistent : p.impl.Consistent
  tidy : ∀ k item, p.impl.find? k = some item → item.Tidy
  known : ∀ job, p.Due job → ∀ k, job.id? = some k → k < p.impl.seed

theorem sound_init : (init : ServerProcess ι).Sound where
  consistent := Server.consistent_init
  tidy := fun k item h => by cases h
  known := fun job h => absurd h (not_due_init job)

/-- A step that brings no jobs. -/
theorem Sound.due (h : p.Sound) (hcontext : p'.impl.modelImpl = p.impl.modelImpl)
    (hseed : p'.impl.seed = p.impl.seed) (hdue : ∀ job, p'.Due job → p.Due job) : p'.Sound where
  consistent := h.consistent.updates (hcontext ▸ .same) (Nat.le_of_eq hseed.symm)
  tidy := by
    intro k item hitem
    rw [Context.find?, hcontext] at hitem
    exact h.tidy k item hitem
  known := by
    intro job hjob
    rw [hseed]
    exact h.known job (hdue job hjob)

theorem Settled.due (h : p.Settled) (hcontext : p'.impl.modelImpl = p.impl.modelImpl)
    (hdue : ∀ job, p'.Due job → p.Due job) (hcalls : ∀ i, (p'.calls i).ScalarAdd)
    (hhand : ∀ message ∈ p'.worker.hand, message.isScalar = true) : p'.Settled where
  jobs := by
    intro job hjob
    rw [hcontext]
    exact h.jobs job (hdue job hjob)
  calls := hcalls
  hand := hhand

/-- A step that leaves the features as they are, and respects them if the client is restricted. -/
structure Respects (restricted : Bool) (p p' : ServerProcess ι) : Prop where
  sound : p'.Sound
  features : p'.impl.remotePeerFeatures = p.impl.remotePeerFeatures
  settled : restricted = true → p.impl.remotePeerFeatures.vectors = false → p.Settled → p'.Settled

variable {restricted : Bool}

section Calls

variable [DecidableEq ι] {i : ι} {impl : Server} {shouldPushChange : Bool} {job : ServerJob}

/-- A call changes the model and may push a job. -/
theorem Sound.unlock (h : p.Sound) (hconsistent : impl.Consistent)
    (htidy : ∀ k item, impl.find? k = some item → item.Tidy) (hqueue : impl.queue = p.impl.queue)
    (hseed : p.impl.seed ≤ impl.seed)
    (hjob : shouldPushChange = true → ∀ k, job.id? = some k → k < impl.seed) :
    (p.unlock i impl shouldPushChange job).Sound where
  consistent := hconsistent
  tidy := htidy
  known := by
    intro job' hdue k hk
    rcases hdue.unlock hqueue with hdue | ⟨hpush, rfl⟩
    · exact Nat.lt_of_lt_of_le (h.known job' hdue k hk) hseed
    · exact hjob hpush k hk

theorem Settled.unlock (h : p.Settled)
    (hjobs : ∀ job', p.Due job' → p.impl.modelImpl.ScalarJob job' → impl.modelImpl.ScalarJob job')
    (hqueue : impl.queue = p.impl.queue)
    (hjob : shouldPushChange = true → impl.modelImpl.ScalarJob job) :
    (p.unlock i impl shouldPushChange job).Settled where
  jobs := by
    intro job' hdue
    rcases hdue.unlock hqueue with hdue | ⟨hpush, rfl⟩
    · exact hjobs job' hdue (h.jobs job' hdue)
    · exact hjob hpush
  calls := by
    refine calls_update h.calls ?_
    cases shouldPushChange <;> trivial
  hand := h.hand

variable {alloc : Allocations} {new : NewItem}

private theorem respects_addItem (h : p.Sound) (hstep : p.addItem i alloc new = some p') :
    p.Respects restricted p' := by
  obtain ⟨_, rfl⟩ := addItem_cases hstep
  have hdue (job : ServerJob) (hjob : Due { p with calls := Function.update p.calls i (.adding alloc
      new (p.impl.remotePeerFeatures.checkTypeCompatibility new.initialValue.type)) } job) :
      p.Due job := by
    rcases Due.call (p := p) hjob rfl rfl rfl rfl with hdue | hnew
    · exact hdue
    · cases hnew
  refine ⟨h.due rfl rfl hdue, rfl, ?_⟩
  intro _ hvectors hsettled
  refine hsettled.due rfl hdue (calls_update hsettled.calls ?_) hsettled.hand
  cases hcompatible : p.impl.remotePeerFeatures.checkTypeCompatibility new.initialValue.type with
  | true => exact Features.scalar_of_compatible hvectors hcompatible
  | false => trivial

variable {id : TweakId}

private theorem respects_removeItem (h : p.Sound) (hstep : p.removeItem i id = some p') :
    p.Respects restricted p' := by
  obtain ⟨_, _, rfl⟩ := removeItem_cases hstep
  have hinherits := p.impl.inherits_removeItemLocked id
  refine ⟨h.unlock ?_ (hinherits.tidy h.tidy) rfl (Nat.le_refl _) ?_, rfl, ?_⟩
  · exact h.consistent.updates (p.impl.removeItemSection_updates id) (Nat.le_refl _)
  · intro hpush k hk
    cases hk
    obtain ⟨item, hitem⟩ := Server.find?_of_removeItemLocked hpush
    exact h.consistent.generated id item hitem
  · intro _ _ hsettled
    exact hsettled.unlock (fun _ _ => hinherits.scalarJob) rfl fun _ => trivial

/-- A value is replaced by one that is as scalar as it was. -/
theorem respects_replaceCurrentValue (h : p.Sound) {value : Variant}
    (hvalue : ∀ item ∈ p.impl.find? id,
      item.currentValue.type.isScalar = true → value.type.isScalar = true)
    (hstep : p.replaceCurrentValue i id value = some p') : p.Respects restricted p' := by
  obtain ⟨_, _, rfl⟩ := replaceCurrentValue_cases hstep
  have hinherits := Server.inherits_replaceLocked hvalue
  refine ⟨h.unlock ?_ (hinherits.tidy h.tidy) rfl (Nat.le_refl _) ?_, rfl, ?_⟩
  · exact h.consistent.updates (p.impl.itemReplaceCurrentValue_updates id value) (Nat.le_refl _)
  · intro hpush k hk
    cases hk
    obtain ⟨item, hitem, _⟩ := Server.find?_of_replaceLocked hpush
    exact h.consistent.generated id item hitem
  · intro _ hvectors hsettled
    refine hsettled.unlock (fun _ _ => hinherits.scalarJob) rfl ?_
    -- the change is pushed because the old value was scalar
    intro hpush
    obtain ⟨item, hitem, hcompatible⟩ := Server.find?_of_replaceLocked hpush
    have hscalar : p.impl.modelImpl.ScalarJob (.change id) := by
      intro item' hitem'
      cases hitem.symm.trans hitem'
      exact Features.scalar_of_compatible hvectors hcompatible
    exact hinherits.scalarJob hscalar

private theorem respects_add (h : p.Sound) {itemIsCompatible : Bool}
    (call : p.calls i = .adding alloc new itemIsCompatible) :
    p.Respects restricted (p.unlock i (p.impl.addItemLocked alloc itemIsCompatible new).2.2
      (p.impl.addItemLocked alloc itemIsCompatible new).2.1
      (.append (p.impl.addItemLocked alloc itemIsCompatible new).1)) := by
  rw [Server.addItemLocked_eq h.consistent]
  by_cases hadd : p.impl.modelImpl.index.find? new.uri = none ∧ alloc.all = true
  · rw [if_pos hadd]
    refine ⟨h.unlock (h.consistent.added hadd.1) ?_ rfl (Nat.le_succ _) ?_, rfl, ?_⟩
    · intro k item hitem
      rw [Server.find?_added h.consistent] at hitem
      split at hitem
      · cases hitem
        exact ⟨rfl, fun hscalar => hscalar⟩
      · exact h.tidy k item hitem
    · intro _ k hk
      cases hk
      exact Nat.lt_succ_self _
    · intro _ _ hsettled
      refine hsettled.unlock ?_ rfl ?_
      -- the jobs that are due are about older items
      · intro job hdue hjob
        refine hjob.of_find fun k hk => ?_
        have hlt : k < p.impl.seed := h.known job hdue k hk
        exact (Server.find?_added h.consistent new k).trans (if_neg (Nat.ne_of_lt hlt))
      · intro hpush item hitem
        replace hitem : (p.impl.added new).find? p.impl.seed = some item := hitem
        rw [Server.find?_added h.consistent, if_pos rfl] at hitem
        cases hitem
        have hscalar := hsettled.calls i
        rw [call, (Bool.and_eq_true_iff.mp hpush).1] at hscalar
        exact hscalar
  · rw [if_neg hadd]
    have hseed := p.impl.seed_le_refused new.uri
    refine ⟨h.unlock (h.consistent.updates .same hseed) h.tidy rfl hseed ?_, rfl, ?_⟩
    · intro hpush
      cases hpush
    · intro _ _ hsettled
      refine hsettled.unlock (fun _ _ hjob => hjob) rfl ?_
      intro hpush
      cases hpush

private theorem respects_proceed (h : p.Sound) {drop : Bool} (hstep : p.proceed i drop = some p') :
    p.Respects restricted p' := by
  cases proceeds hstep with
  | add call free => exact respects_add h call
  | push call =>
    refine ⟨h.due rfl rfl fun _ => Due.push call, rfl, ?_⟩
    intro _ _ hsettled
    exact hsettled.due rfl (fun _ => Due.push call) (calls_update hsettled.calls trivial)
      hsettled.hand

end Calls

/-- The receiving thread has handled a message that leaves a job to push. -/
theorem Respects.receive (h : p.Sound) {m : ModelImpl} {job : ServerJob}
    (hconsistent : p.impl.modelImpl.Updates m) (hinherits : m.Inherits p.impl.modelImpl)
    (hknown : ∀ k, job.id? = some k → k < p.impl.seed)
    (hjob : restricted = true → m.ScalarJob job) :
    p.Respects restricted { p with impl := { p.impl with modelImpl := m }, receiver := .pushing job } where
  sound :=
    { consistent := h.consistent.updates hconsistent (Nat.le_refl _)
      tidy := hinherits.tidy h.tidy
      known := by
        intro job' hdue k hk
        rcases hdue.receive rfl with hdue | rfl
        · exact h.known job' hdue k hk
        · exact hknown k hk }
  features := rfl
  settled := by
    intro hrestricted _ hsettled
    refine ⟨?_, hsettled.calls, hsettled.hand⟩
    intro job' hdue
    rcases hdue.receive rfl with hdue | rfl
    · exact hinherits.scalarJob (hsettled.jobs job' hdue)
    · exact hjob hrestricted

/-- A subscribe message leads to a job that looks at the features itself. -/
theorem respects_subscribe (h : p.Sound) (hstep : p.receive .subscribe = some p') :
    p.Respects restricted p' := by
  obtain ⟨_, rfl⟩ := receive_subscribe_cases hstep
  exact .receive h .same (.refl _) (fun k hk => by cases hk) fun _ => trivial

/-- The changes of clients are passed on without a look at the features. -/
theorem respects_changeItem (h : p.Sound) {id : TweakId} {value : Variant}
    (hvalue : restricted = true → ∀ item ∈ p.impl.find? id,
      checkValueCompatibility item.currentValue value = true → value.type.isScalar = true)
    (hstep : p.receive (.changeItem id value) = some p') : p.Respects restricted p' := by
  obtain ⟨_, _, item, hitem, rfl⟩ := receive_changeItem_cases hstep
  have hid := (h.consistent.bijective.ids id item hitem).1
  split
  · next hcheck =>
      have htype := type_eq_of_checkValueCompatibility hcheck
      refine .receive h (.value id value) (ModelImpl.inherits_setCurrentValue ?_) ?_ ?_
      · intro item' hitem' hscalar
        cases hitem.symm.trans hitem'
        exact htype ▸ hscalar
      · intro k hk
        cases hk
        rw [hid]
        exact h.consistent.generated id item hitem
      · intro hrestricted item' hitem'
        rw [hid] at hitem'
        replace hitem' : (p.impl.modelImpl.setCurrentValue id value).model.find? id = some item' :=
          hitem'
        rw [ModelImpl.setCurrentValue_model, if_pos rfl] at hitem'
        obtain ⟨_, _, rfl⟩ := Option.map_eq_some_iff.mp hitem'
        exact hvalue hrestricted item hitem hcheck
  · -- the invalid id is pushed, which no item has
    refine .receive h .same (.refl _) ?_ ?_
    · intro k hk
      cases hk
      exact h.consistent.positive
    · intro _ item' hitem'
      exact absurd rfl (h.consistent.bijective.ids _ item' hitem').2

theorem respects_receiverPush (h : p.Sound) {drop : Bool} (hstep : p.receiverPush drop = some p') :
    p.Respects restricted p' := by
  have hdue (job : ServerJob) : p'.Due job → p.Due job := Due.receiverPush hstep
  obtain ⟨job, _, rfl⟩ := receiverPush_cases hstep
  refine ⟨h.due rfl rfl hdue, rfl, ?_⟩
  intro _ _ hsettled
  exact hsettled.due rfl hdue hsettled.calls hsettled.hand

/-- A step of the worker that leaves nothing, or something scalar, in its hand. -/
theorem Respects.work (h : p.Sound) {impl : Server} {worker : ServerWorker}
    (hmodel : impl.modelImpl = p.impl.modelImpl) (hseed : impl.seed = p.impl.seed)
    (hfeatures : impl.remotePeerFeatures = p.impl.remotePeerFeatures)
    (hdue : ∀ job, Due { p with impl := impl, worker := worker } job → p.Due job)
    (hhand : p.Settled → ∀ message ∈ worker.hand, message.isScalar = true) :
    p.Respects restricted { p with impl := impl, worker := worker } where
  sound := h.due hmodel hseed hdue
  features := hfeatures
  settled _ _ hsettled := hsettled.due hmodel hdue hsettled.calls (hhand hsettled)

/-- The worker looks at the features before it sends an item. -/
theorem respects_work (h : p.Sound) {message : Option ServerMessage}
    (hstep : p.work = some (message, p')) : p.Respects restricted p' := by
  have hdue (job : ServerJob) : p'.Due job → p.Due job := Due.work hstep
  have hrunning {job : ServerJob} (worker : p.worker = .running job) : p.Due job := by
    refine .inl ?_
    rw [worker]
    exact List.mem_singleton.mpr rfl
  cases work_cases hstep with
  | take | announce | prepare | announced | lock | walked | visit | refuse | skip | gone | unheard
  | send => exact .work h rfl rfl rfl hdue fun _ _ hmem => by cases hmem
  | append worker found =>
    refine .work h rfl rfl rfl hdue ?_
    intro hsettled message hmem
    rw [List.mem_singleton.mp hmem]
    exact (h.tidy _ _ found).isScalar (hsettled.jobs _ (hrunning worker) _ found)
  | change worker found =>
    refine .work h rfl rfl rfl hdue ?_
    intro hsettled message hmem
    rw [List.mem_singleton.mp hmem]
    exact hsettled.jobs _ (hrunning worker) _ found
  | remove worker =>
    refine .work h rfl rfl rfl hdue ?_
    intro _ message hmem
    rw [List.mem_singleton.mp hmem]
    rfl

theorem respects_workFails (h : p.Sound) (hstep : p.workFails = some p') :
    p.Respects restricted p' := by
  have hdue (job : ServerJob) : p'.Due job → p.Due job := Due.workFails hstep
  obtain ⟨_, _, rfl⟩ := Option.map_eq_some_iff.mp hstep
  exact .work h rfl rfl rfl hdue fun _ _ hmem => by cases hmem

/-- What the worker is about to send to a restricted client. -/
theorem Settled.outgoing (h : p.Settled) (hsound : p.Sound)
    (hvectors : p.impl.remotePeerFeatures.vectors = false) {message : ServerMessage}
    (hmessage : p.outgoing = some message) : message.isScalar = true := by
  rw [ServerProcess.outgoing] at hmessage
  split at hmessage
  · split at hmessage
    · cases hmessage
      rfl
    · cases hmessage
  · -- the walk looks at the features itself
    obtain ⟨item, hitem, hmessage⟩ := Option.bind_eq_some_iff.mp hmessage
    split at hmessage
    · next hcompatible =>
        cases hmessage
        exact (hsound.tidy _ item hitem).isScalar (Features.scalar_of_compatible hvectors hcompatible)
    · cases hmessage
  · next hworker =>
      cases hmessage
      apply h.hand
      rw [hworker]
      exact List.mem_singleton.mpr rfl
  all_goals cases hmessage

end ServerProcess

/-! ## Announcements -/

structure Gated (ι : Type) where
  process : ServerProcess ι
  /-- Since the latest new connection, an announcement was handled that leaves scalars only, or that
  could not be parsed. -/
  restricted : Bool

namespace Gated

variable {ι : Type}

def init : Gated ι := ⟨.init, false⟩

/-- The announcement leaves scalars only, or cannot be parsed. -/
def restricts : Option Features → Bool
  | none => true
  | some features => !features.vectors

def step [DecidableEq ι] (w : Gated ι) (action : ServerProcess.Action ι) : Option (Gated ι) :=
  (w.process.step action).map fun p =>
    match action with
    | .connectionState true => ⟨p, false⟩
    | .announceFeatures features => ⟨p, w.restricted || restricts features⟩
    | _ => { w with process := p }

/-- The values that a restricted client is about to be sent are scalar. -/
def ScalarOnly (w : Gated ι) : Prop :=
  w.restricted = true → ∀ message ∈ w.process.outgoing, message.isScalar = true

/-- The announcement that restricts the client can be parsed, and finds nothing decided that it should
have a say in; the server never replaces a scalar by another value, and a restricted client never
sends one. A walk looks at the features and sends an item in one step here, which is two in the
source, so it should not be interrupted either. -/
def Careful (w : Gated ι) : ServerProcess.Action ι → Prop
  | .announceFeatures features =>
    restricts features = true → w.restricted = false →
      (features = none → w.process.impl.remotePeerFeatures.vectors = false) ∧ w.process.Settled ∧
        w.process.locked = false
  | .replaceCurrentValue _ id value =>
    ∀ item ∈ w.process.impl.find? id, item.currentValue.type.isScalar = true →
      value.type.isScalar = true
  | .changeItem id value =>
    w.restricted = true → ∀ item ∈ w.process.impl.find? id,
      checkValueCompatibility item.currentValue value = true → value.type.isScalar = true
  | _ => True

instance [Fintype ι] (w : Gated ι) : DecidablePred w.Careful
  | .announceFeatures features =>
    inferInstanceAs (Decidable (restricts features = true → w.restricted = false →
      (features = none → w.process.impl.remotePeerFeatures.vectors = false) ∧ w.process.Settled ∧
        w.process.locked = false))
  | .replaceCurrentValue _ id value =>
    inferInstanceAs (Decidable (∀ item ∈ w.process.impl.find? id,
      item.currentValue.type.isScalar = true → value.type.isScalar = true))
  | .changeItem id value =>
    inferInstanceAs (Decidable (w.restricted = true → ∀ item ∈ w.process.impl.find? id,
      checkValueCompatibility item.currentValue value = true → value.type.isScalar = true))
  | .addItem _ _ _ | .removeItem _ _ | .application _ _ | .connectionState _ | .subscribe
  | .receiver _ | .worker | .workerFails => .isTrue trivial

structure Inv (w : Gated ι) : Prop where
  sound : w.process.Sound
  gate : w.restricted = true → w.process.impl.remotePeerFeatures.vectors = false ∧ w.process.Settled

private theorem inv_init : (init : Gated ι).Inv where
  sound := ServerProcess.sound_init
  gate h := by cases h

variable {w : Gated ι}

theorem Inv.respects (h : w.Inv) {p : ServerProcess ι} (hp : w.process.Respects w.restricted p) :
    Inv { w with process := p } where
  sound := hp.sound
  gate hrestricted := by
    obtain ⟨hvectors, hsettled⟩ := h.gate hrestricted
    exact ⟨hp.features ▸ hvectors, hp.settled hrestricted hvectors hsettled⟩

private theorem Inv.announceFeatures (h : w.Inv) {features : Option Features}
    (hcareful : w.Careful (.announceFeatures features)) :
    Inv ⟨{ w.process with impl := w.process.impl.announceFeaturesImpl features },
      w.restricted || restricts features⟩ where
  sound := h.sound.due rfl rfl fun _ hdue => hdue
  gate := by
    intro hrestricted
    have hnow : (features = none → w.process.impl.remotePeerFeatures.vectors = false) ∧
        w.process.Settled := by
      cases hw : w.restricted with
      | true => exact ⟨fun _ => (h.gate hw).1, (h.gate hw).2⟩
      | false =>
        rw [hw, Bool.false_or] at hrestricted
        obtain ⟨hparsed, hsettled, _⟩ := hcareful hrestricted hw
        exact ⟨hparsed, hsettled⟩
    refine ⟨?_, hnow.2.due rfl (fun _ hdue => hdue) hnow.2.calls hnow.2.hand⟩
    show (w.process.impl.remotePeerFeatures.vectors && (features.getD .initDefault).vectors) = false
    cases features with
    | none => rw [hnow.1 rfl, Bool.false_and]
    | some features =>
      cases hw : w.restricted with
      | true => rw [(h.gate hw).1, Bool.false_and]
      | false =>
        rw [hw, Bool.false_or] at hrestricted
        have hfeatures : features.vectors = false := Bool.not_eq_true' _ ▸ hrestricted
        rw [Option.getD_some, hfeatures, Bool.and_false]

private theorem Inv.connectionState (h : w.Inv) (isConnected : Bool) :
    Inv ⟨w.process.connectionState isConnected, !isConnected && w.restricted⟩ := by
  cases isConnected with
  | true => exact ⟨h.sound.due rfl rfl fun _ hdue => hdue, fun hrestricted => by cases hrestricted⟩
  | false =>
    refine ⟨h.sound.due rfl rfl fun _ hdue => hdue, ?_⟩
    intro hrestricted
    obtain ⟨hvectors, hsettled⟩ := h.gate hrestricted
    exact ⟨hvectors, hsettled.due rfl (fun _ hdue => hdue) hsettled.calls hsettled.hand⟩

/-- Every careful step keeps the invariant. -/
theorem inv_step [DecidableEq ι] {w' : Gated ι} {action : ServerProcess.Action ι} (h : w.Inv)
    (hcareful : w.Careful action) (hstep : w.step action = some w') : w'.Inv := by
  obtain ⟨p, hp, rfl⟩ := Option.map_eq_some_iff.mp hstep
  cases action with
  | addItem thread alloc new => exact h.respects (ServerProcess.respects_addItem h.sound hp)
  | removeItem thread id => exact h.respects (ServerProcess.respects_removeItem h.sound hp)
  | replaceCurrentValue thread id value =>
    exact h.respects (ServerProcess.respects_replaceCurrentValue h.sound hcareful hp)
  | application thread drop => exact h.respects (ServerProcess.respects_proceed h.sound hp)
  | connectionState isConnected =>
    cases hp
    cases isConnected with
    | true => exact h.connectionState true
    | false => exact h.connectionState false
  | announceFeatures features =>
    cases ServerProcess.announceFeatures_cases hp
    exact h.announceFeatures hcareful
  | subscribe => exact h.respects (ServerProcess.respects_subscribe h.sound hp)
  | changeItem id value =>
    exact h.respects (ServerProcess.respects_changeItem h.sound hcareful hp)
  | receiver drop => exact h.respects (ServerProcess.respects_receiverPush h.sound hp)
  | worker =>
    obtain ⟨⟨message, p''⟩, hwork, rfl⟩ := Option.map_eq_some_iff.mp hp
    exact h.respects (ServerProcess.respects_work h.sound hwork)
  | workerFails => exact h.respects (ServerProcess.respects_workFails h.sound hp)

/-- **A restricted client is sent scalars only**, in every run in which the announcement can be parsed
and comes before anything else is decided, the server replaces scalars by scalars and the client sends
no other values. -/
theorem scalar_only [DecidableEq ι] (actions : List (ServerProcess.Action ι))
    (hcareful : Along step Careful init actions) : Throughout step ScalarOnly init actions := by
  refine throughout_invariant_along (P := Inv) inv_step ?_ inv_init hcareful
  intro w h hrestricted message hmessage
  obtain ⟨hvectors, hsettled⟩ := h.gate hrestricted
  exact hsettled.outgoing h.sound hvectors hmessage

def textItem : NewItem := ⟨[65], [], [], .string []⟩

/-- A text item and a bool item are there when a client connects that wants scalars only. The value of
the bool item is replaced, and changed by the client. -/
def restrictedVisit : List (ServerProcess.Action Unit) :=
  [.addItem () ⟨true, true, true, true⟩ textItem, .application () false,
    .addItem () ⟨true, true, true, true⟩ ⟨[66], [], [], .bool false⟩, .application () false,
    .connectionState true, .announceFeatures (some ⟨false⟩), .subscribe, .receiver false,
    .worker, .worker, .worker, .worker, .worker, .worker, .worker,
    .replaceCurrentValue () 2 (.bool true), .application () false, .worker, .worker, .worker,
    .changeItem 2 (.bool false), .receiver false, .worker, .worker, .worker]

theorem scalar_only_restrictedVisit :
    (run step init restrictedVisit).map (fun w =>
        (w.restricted, w.process.impl.connected, w.process.impl.modelImpl.model.entries.length)) =
      some (true, true, 2) ∧
    Along step Careful init restrictedVisit ∧ Throughout step ScalarOnly init restrictedVisit := by
  have hcareful : Along step Careful (init : Gated Unit) restrictedVisit := by decide +kernel
  exact ⟨by decide +kernel, hcareful, scalar_only _ hcareful⟩

/-- The announcement of a client cannot be parsed, and the worker walks over a text item. -/
def unparsable : List (ServerProcess.Action Unit) :=
  [.addItem () ⟨true, true, true, true⟩ textItem, .application () false, .connectionState true,
    .announceFeatures none, .subscribe, .receiver false, .worker, .worker, .worker]

/-- A client that wants scalars only sends a text, which is passed on. -/
def echoed : List (ServerProcess.Action Unit) :=
  [.addItem () ⟨true, true, true, true⟩ textItem, .application () false, .connectionState true,
    .announceFeatures (some ⟨false⟩), .subscribe, .receiver false, .worker, .worker, .worker, .worker,
    .worker, .worker, .changeItem 1 (.string [66]), .receiver false, .worker, .worker]

/-- The worker is about to send a text to a restricted client. -/
def sendsText (w : Gated Unit) : Bool :=
  w.restricted && w.process.outgoing.any fun message => message.accepted && !message.isScalar

/-- Both an item and a change of its value are sent to a client that is restricted. -/
theorem restricted_client_is_sent_text :
    (run step init unparsable).map sendsText = some true ∧
      (run step init echoed).map sendsText = some true := by
  constructor <;> decide +kernel

end Gated

end App

end TweakTool
