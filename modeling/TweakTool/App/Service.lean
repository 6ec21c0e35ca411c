import TweakTool.App.Owner
import Mathlib.Data.Fintype.Basic

/-! # A server at work

Everything that can happen to a server process: calls of its application, connection events and
messages of any number of clients, and the steps of its own threads, whose calls of the endpoint may
fail. Each step is taken apart once, in the lemmas of this module. -/

namespace TweakTool.App

open TweakTool.Lib

namespace ServerProcess

inductive Action (ι : Type) where
  | addItem (thread : ι) (alloc : Allocations) (new : NewItem)
  | removeItem (thread : ι) (id : TweakId)
  | replaceCurrentValue (thread : ι) (id : TweakId) (value : Variant)
  | application (thread : ι) (drop : Bool)
  | connectionState (isConnected : Bool)
  /-- The announcement of a client, if it can be parsed. -/
  | announceFeatures (features : Option Features)
  | subscribe
  | changeItem (id : TweakId) (value : Variant)
  | receiver (drop : Bool)
  | worker
  | workerFails -- the worker calls the endpoint, which returns an error

variable {ι : Type}

/-- `announce_features_impl`. -/
def announceFeatures (p : ServerProcess ι) (features : Option Features) : Option (ServerProcess ι) :=
  match p.receiver with
  | .idle => some { p with impl := p.impl.announceFeaturesImpl features }
  | .pushing _ => none

/-- The message that the worker passes to the endpoint in its next step. -/
def outgoing (p : ServerProcess ι) : Option ServerMessage :=
  match p.worker with
  | .running .subscribe =>
    if p.impl.featuresAnnounced then some (.announceFeatures .initDefault) else none
  | .walking ((_, id) :: _) =>
    (p.impl.find? id).bind fun item =>
      if p.impl.remotePeerFeatures.checkTypeCompatibility item.variantType then
        some (.addItem item.toAddItem)
      else none
  | .sending message => some message
  | .idle | .running _ | .announced | .subscribing | .walking [] => none

/-- The endpoint returns an error, and the worker is done with its job. -/
def workFails (p : ServerProcess ι) : Option (ServerProcess ι) :=
  p.outgoing.map fun _ => { p with worker := .idle }

/-- The next state; `none` if the step cannot be taken, or if the server crashes. -/
def step [DecidableEq ι] (p : ServerProcess ι) : Action ι → Option (ServerProcess ι)
  | .addItem thread alloc new => p.addItem thread alloc new
  | .removeItem thread id => p.removeItem thread id
  | .replaceCurrentValue thread id value => p.replaceCurrentValue thread id value
  | .application thread drop => p.proceed thread drop
  | .connectionState isConnected => some (p.connectionState isConnected)
  | .announceFeatures features => p.announceFeatures features
  | .subscribe => p.receive .subscribe
  | .changeItem id value => p.receive (.changeItem id value)
  | .receiver drop => p.receiverPush drop
  | .worker => p.work.map (·.2)
  | .workerFails => p.workFails

/-! ## Taking steps apart -/

variable {p p' : ServerProcess ι}

section Calls

variable [DecidableEq ι] {i : ι}

/-- The call has looked at the features. -/
theorem addItem_cases {alloc : Allocations} {new : NewItem} (h : p.addItem i alloc new = some p') :
    p.calls i = .idle ∧ p' = { p with calls := Function.update p.calls i (.adding alloc new
      (p.impl.remotePeerFeatures.checkTypeCompatibility new.initialValue.type)) } := by
  rw [addItem] at h
  split at h
  · next hcall => exact ⟨hcall, (Option.some.inj h).symm⟩
  · cases h

theorem removeItem_cases {id : TweakId} (h : p.removeItem i id = some p') :
    p.calls i = .idle ∧ p.locked = false ∧
      p' = p.unlock i (p.impl.removeItemLocked id).2.2 (p.impl.removeItemLocked id).2.1
        (.remove id) := by
  rw [removeItem] at h
  split at h
  · next hcall hlocked => exact ⟨hcall, hlocked, (Option.some.inj h).symm⟩
  · cases h

theorem replaceCurrentValue_cases {id : TweakId} {value : Variant}
    (h : p.replaceCurrentValue i id value = some p') :
    p.calls i = .idle ∧ p.locked = false ∧
      p' = p.unlock i (p.impl.replaceLocked id value).2.2 (p.impl.replaceLocked id value).2.1
        (.change id) := by
  rw [replaceCurrentValue] at h
  split at h
  · next hcall hlocked => exact ⟨hcall, hlocked, (Option.some.inj h).symm⟩
  · cases h

inductive Proceeds (p : ServerProcess ι) (i : ι) (drop : Bool) : ServerProcess ι → Prop where
  | add {alloc : Allocations} {new : NewItem} {itemIsCompatible : Bool}
      (call : p.calls i = .adding alloc new itemIsCompatible) (free : p.locked = false) :
      Proceeds p i drop (p.unlock i (p.impl.addItemLocked alloc itemIsCompatible new).2.2
        (p.impl.addItemLocked alloc itemIsCompatible new).2.1
        (.append (p.impl.addItemLocked alloc itemIsCompatible new).1))
  | push {job : ServerJob} (call : p.calls i = .pushing job) :
      Proceeds p i drop { p with
        impl := { p.impl with queue := enqueue drop job p.impl.queue }
        calls := Function.update p.calls i .idle }

/-- A call that goes on adds its item or pushes its job. -/
theorem proceeds {drop : Bool} (h : p.proceed i drop = some p') : p.Proceeds i drop p' := by
  rw [proceed] at h
  split at h
  · cases h
  · next call =>
      split at h
      · cases h
      · next free =>
          cases h
          exact .add call (Bool.not_eq_true _ ▸ free)
  · next call =>
      cases h
      exact .push call

end Calls

theorem announceFeatures_cases {features : Option Features}
    (h : p.announceFeatures features = some p') :
    p' = { p with impl := p.impl.announceFeaturesImpl features } := by
  rw [announceFeatures] at h
  split at h
  · exact (Option.some.inj h).symm
  · cases h

/-- The receiving thread is about to push a subscribe job. -/
theorem receive_subscribe_cases (h : p.receive .subscribe = some p') :
    p.receiver = .idle ∧ p' = { p with receiver := .pushing .subscribe } := by
  rw [receive.eq_def] at h
  split at h
  · next heq => cases heq
  · next hreceiver _ => exact ⟨hreceiver, (Option.some.inj h).symm⟩
  · next heq => cases heq
  · cases h

/-- The value is taken and the change is pushed, or the invalid id is. -/
theorem receive_changeItem_cases {id : TweakId} {value : Variant}
    (h : p.receive (.changeItem id value) = some p') :
    p.receiver = .idle ∧ p.locked = false ∧ ∃ item, p.impl.find? id = some item ∧
      p' =
        if checkValueCompatibility item.currentValue value then
          { p with
            impl := { p.impl with modelImpl := p.impl.modelImpl.setCurrentValue id value }
            receiver := .pushing (.change item.id) }
        else { p with receiver := .pushing (.change tweakInvalidId) } := by
  rw [receive.eq_def] at h
  split at h
  · next heq => cases heq
  · next heq => cases heq
  · next hreceiver heq =>
      cases heq
      split at h
      · cases h
      · next hlocked =>
          simp only [Server.changeItemLocked, Option.map_map, Option.map_eq_some_iff] at h
          obtain ⟨⟨id', changed, modelImpl⟩, hsection, rfl⟩ := h
          rw [Context.changeItemSection] at hsection
          split at hsection
          · next item hitem =>
              refine ⟨hreceiver, Bool.not_eq_true _ ▸ hlocked, item, hitem, ?_⟩
              split at hsection
              · next hcheck =>
                  cases hsection
                  rw [if_pos hcheck]
                  rfl
              · next hcheck =>
                  cases hsection
                  rw [if_neg hcheck]
                  rfl
          · cases hsection
  · cases h

variable {drop : Bool}

theorem receiverPush_cases (h : p.receiverPush drop = some p') :
    ∃ job, p.receiver = .pushing job ∧
      p' = { p with
        impl := { p.impl with queue := enqueue drop job p.impl.queue }
        receiver := .idle } := by
  rw [receiverPush] at h
  split at h
  · cases h
  · next job hreceiver => exact ⟨job, hreceiver, (Option.some.inj h).symm⟩

/-- The steps of the worker, with the messages it sends. -/
inductive Work (p : ServerProcess ι) : Option ServerMessage → ServerProcess ι → Prop where
  | take {job : ServerJob} {queue : List ServerJob} (worker : p.worker = .idle)
      (next : p.impl.queue = job :: queue) :
      Work p none { p with impl := { p.impl with queue := queue }, worker := .running job }
  | announce (worker : p.worker = .running .subscribe)
      (announced : p.impl.featuresAnnounced = true) :
      Work p (some (.announceFeatures .initDefault)) { p with worker := .announced }
  | prepare (worker : p.worker = .running .subscribe)
      (unannounced : p.impl.featuresAnnounced = false) :
      Work p none { p with worker := .subscribing }
  | announced (worker : p.worker = .announced) :
      Work p none
        { p with impl := { p.impl with featuresAnnounced := false }, worker := .subscribing }
  | lock (worker : p.worker = .subscribing) :
      Work p none { p with worker := .walking p.impl.modelImpl.index.entries }
  | walked (worker : p.worker = .walking []) :
      Work p none { p with impl := { p.impl with connected := true }, worker := .idle }
  | visit {uri : Text} {id : TweakId} {rest : List (Text × TweakId)} {item : Item}
      (worker : p.worker = .walking ((uri, id) :: rest)) (found : p.impl.find? id = some item)
      (compatible : p.impl.remotePeerFeatures.checkTypeCompatibility item.variantType = true)
      (accepted : (ServerMessage.addItem item.toAddItem).accepted = true) :
      Work p (some (.addItem item.toAddItem)) { p with worker := .walking rest }
  | refuse {uri : Text} {id : TweakId} {rest : List (Text × TweakId)} {item : Item}
      (worker : p.worker = .walking ((uri, id) :: rest)) (found : p.impl.find? id = some item)
      (refused : (ServerMessage.addItem item.toAddItem).accepted = false) :
      Work p none { p with worker := .idle }
  | skip {uri : Text} {id : TweakId} {rest : List (Text × TweakId)} {item : Item}
      (worker : p.worker = .walking ((uri, id) :: rest)) (found : p.impl.find? id = some item)
      (incompatible : p.impl.remotePeerFeatures.checkTypeCompatibility item.variantType = false) :
      Work p none { p with worker := .walking rest }
  | append {id : TweakId} {item : Item} (worker : p.worker = .running (.append id))
      (found : p.impl.find? id = some item) :
      Work p none { p with worker := .sending (.addItem item.toAddItem) }
  | change {id : TweakId} {item : Item} (worker : p.worker = .running (.change id))
      (found : p.impl.find? id = some item) (connected : p.impl.connected = true) :
      Work p none { p with worker := .sending (.changeItem id item.currentValue) }
  | remove {id : TweakId} (worker : p.worker = .running (.remove id)) :
      Work p none { p with worker := .sending (.removeItem id) }
  | gone {job : ServerJob} {id : TweakId} (worker : p.worker = .running job)
      (about : job.id? = some id) (lost : p.impl.find? id = none) :
      Work p none { p with worker := .idle }
  | unheard {id : TweakId} {item : Item} (worker : p.worker = .running (.change id))
      (found : p.impl.find? id = some item) (disconnected : p.impl.connected = false) :
      Work p none { p with worker := .idle }
  | send {message : ServerMessage} (worker : p.worker = .sending message) :
      Work p (if message.accepted then some message else none) { p with worker := .idle }

variable {message : Option ServerMessage}

theorem work_cases (h : p.work = some (message, p')) : p.Work message p' := by
  rw [work] at h
  split at h
  · next worker =>
      split at h
      · cases h
      · next next =>
          cases h
          exact .take worker next
  · next worker =>
      split at h
      · next announced =>
          cases h
          exact .announce worker announced
      · next unannounced =>
          cases h
          exact .prepare worker (Bool.not_eq_true _ ▸ unannounced)
  · next worker =>
      cases h
      exact .announced worker
  · next worker =>
      cases h
      exact .lock worker
  · next worker =>
      cases h
      exact .walked worker
  · next worker =>
      split at h
      · cases h
      · next found =>
          split at h
          · next compatible =>
              split at h
              · next accepted =>
                  cases h
                  exact .visit worker found compatible accepted
              · next refused =>
                  cases h
                  exact .refuse worker found (Bool.not_eq_true _ ▸ refused)
          · next incompatible =>
              cases h
              exact .skip worker found (Bool.not_eq_true _ ▸ incompatible)
  · next worker =>
      split at h
      · next found =>
          cases h
          exact .append worker found
      · next lost =>
          cases h
          exact .gone worker rfl lost
  · next worker =>
      split at h
      · next found =>
          cases h
          cases connected : p.impl.connected with
          | true => exact .change worker found connected
          | false => exact .unheard worker found connected
      · next lost =>
          cases h
          exact .gone worker rfl lost
  · next worker =>
      cases h
      exact .remove worker
  · next worker =>
      cases h
      exact .send worker

/-! ## The job of the worker -/

/-- What the worker does belongs to the job it has taken. -/
def Executes (p : ServerProcess ι) (taken : Option ServerJob) : Prop :=
  match p.worker with
  | .idle => True
  | .running job => taken = some job
  | .announced | .subscribing | .walking _ => taken = some .subscribe
  | .sending _ => taken ≠ some .subscribe

variable {taken : Option ServerJob} {i : ι}

/-- Calls of the application are not the worker's job. -/
theorem Executes.proceed [DecidableEq ι] (h : p.Executes taken)
    (hstep : p.proceed i drop = some p') : p'.Executes taken := by
  cases proceeds hstep with
  | add call free => exact h
  | push call => exact h

theorem Executes.receive {message : ClientMessage} (h : p.Executes taken)
    (hstep : p.receive message = some p') : p'.Executes taken := by
  rw [receive.eq_def] at hstep
  split at hstep
  · cases hstep
    exact h
  · cases hstep
    exact h
  · split at hstep
    · cases hstep
    · obtain ⟨_, _, rfl⟩ := Option.map_eq_some_iff.mp hstep
      exact h
  · cases hstep

/-- The worker takes the next job or goes on with its own; a subscribe job ends with the walk. -/
theorem Executes.work (h : p.Executes taken) (hstep : p.work = some (message, p')) :
    p'.Executes (p.taking taken) ∧
      (p.endsSubscribe p' taken = true → p.locked = true ∧ p'.locked = false) := by
  cases work_cases hstep with
  | take worker next => exact ⟨by simp [Executes, taking, worker, next], by rintro ⟨⟩⟩
  | announce worker | prepare worker | announced worker | lock worker | visit worker | skip worker
  | append worker | change worker | remove worker =>
    simp only [Executes, worker] at h
    exact ⟨by simp [Executes, taking, worker, h], by rintro ⟨⟩⟩
  | walked worker | refuse worker => exact ⟨trivial, fun _ => ⟨by rw [locked, worker], rfl⟩⟩
  -- what follows ends another job
  | gone worker about =>
    refine ⟨trivial, fun hends => ?_⟩
    simp only [Executes, worker] at h
    simp only [endsSubscribe, taking, worker, h, decide_eq_true_eq] at hends
    cases hends
    cases about
  | unheard worker | send worker =>
    refine ⟨trivial, fun hends => ?_⟩
    simp only [Executes, worker] at h
    simp [endsSubscribe, taking, worker, h] at hends

/-! ## Jobs

Jobs come from the calls of the application and from the receiving thread, and wait in the queue until
the worker takes them. -/

/-- The job is being executed, in the queue or about to be pushed. -/
def Due (p : ServerProcess ι) (job : ServerJob) : Prop :=
  job ∈ p.worker.jobs ∨ job ∈ p.impl.queue ∨ job ∈ p.receiver.jobs ∨ ∃ i, job ∈ (p.calls i).jobs

instance [Fintype ι] (p : ServerProcess ι) (job : ServerJob) : Decidable (p.Due job) :=
  inferInstanceAs (Decidable (_ ∨ _ ∨ _ ∨ _))

theorem not_due_init (job : ServerJob) : ¬ (init : ServerProcess ι).Due job := by
  rintro (h | h | h | ⟨i, h⟩) <;> cases h

variable {job : ServerJob}

/-- A call that goes on is about to push at most its own job. -/
theorem Due.call [DecidableEq ι] {call : ServerCall} (h : p'.Due job)
    (hworker : p'.worker = p.worker) (hqueue : p'.impl.queue = p.impl.queue)
    (hreceiver : p'.receiver = p.receiver) (hcalls : p'.calls = Function.update p.calls i call) :
    p.Due job ∨ job ∈ call.jobs := by
  rw [Due, hworker, hqueue, hreceiver, hcalls] at h
  rcases h with h | h | h | ⟨j, h⟩
  · exact .inl (.inl h)
  · exact .inl (.inr (.inl h))
  · exact .inl (.inr (.inr (.inl h)))
  · by_cases hj : j = i
    · rw [hj, Function.update_self] at h
      exact .inr h
    · rw [Function.update_of_ne hj] at h
      exact .inl (.inr (.inr (.inr ⟨j, h⟩)))

theorem calls_update [DecidableEq ι] {call : ServerCall} {P : ServerCall → Prop}
    (h : ∀ j, P (p.calls j)) (hcall : P call) : ∀ j, P (Function.update p.calls i call j) :=
  (Function.forall_update_iff p.calls fun _ => P).mpr ⟨hcall, fun j _ => h j⟩

variable {impl : Server}

/-- The call has pushed its job, if it has decided to. -/
theorem Due.unlock [DecidableEq ι] {shouldPushChange : Bool} {new : ServerJob}
    (h : (p.unlock i impl shouldPushChange new).Due job) (hqueue : impl.queue = p.impl.queue) :
    p.Due job ∨ shouldPushChange = true ∧ job = new := by
  rcases Due.call (p := p) h rfl hqueue rfl rfl with hdue | hnew
  · exact .inl hdue
  · cases shouldPushChange with
    | true => exact .inr ⟨rfl, List.mem_singleton.mp hnew⟩
    | false => cases hnew

theorem Due.push [DecidableEq ι] {pushed : ServerJob} (call : p.calls i = .pushing pushed)
    (h : Due { p with
      impl := { p.impl with queue := enqueue drop pushed p.impl.queue }
      calls := Function.update p.calls i .idle } job) : p.Due job := by
  rcases h with h | h | h | ⟨j, h⟩
  · exact .inl h
  · rcases (mem_enqueue drop pushed _).mp h with h | rfl
    · exact .inr (.inl h)
    · refine .inr (.inr (.inr ⟨i, ?_⟩))
      rw [call]
      exact List.mem_singleton.mpr rfl
  · exact .inr (.inr (.inl h))
  · by_cases hj : j = i
    · rw [hj] at h
      replace h : job ∈ (Function.update p.calls i .idle i).jobs := h
      rw [Function.update_self] at h
      cases h
    · replace h : job ∈ (Function.update p.calls i .idle j).jobs := h
      rw [Function.update_of_ne hj] at h
      exact .inr (.inr (.inr ⟨j, h⟩))

theorem Due.receive {new : ServerJob}
    (h : Due { p with impl := impl, receiver := .pushing new } job)
    (hqueue : impl.queue = p.impl.queue) : p.Due job ∨ job = new := by
  rcases h with h | h | h | h
  · exact .inl (.inl h)
  · exact .inl (.inr (.inl (hqueue ▸ h)))
  · exact .inr (List.mem_singleton.mp h)
  · exact .inl (.inr (.inr (.inr h)))

/-- A job that was about to be pushed is in the queue. -/
theorem Due.receiverPush (hstep : p.receiverPush drop = some p') (h : p'.Due job) : p.Due job := by
  obtain ⟨pushed, hreceiver, rfl⟩ := receiverPush_cases hstep
  rcases h with h | h | h | h
  · exact .inl h
  · rcases (mem_enqueue drop pushed _).mp h with h | rfl
    · exact .inr (.inl h)
    · refine .inr (.inr (.inl ?_))
      rw [hreceiver]
      exact List.mem_singleton.mpr rfl
  · cases h
  · exact .inr (.inr (.inr h))

/-- The worker has let its job go. -/
theorem Due.worker {worker : ServerWorker} (hworker : worker.jobs = [])
    (hqueue : impl.queue = p.impl.queue) (h : Due { p with impl := impl, worker := worker } job) :
    p.Due job := by
  rcases h with h | h | h | h
  · replace h : job ∈ worker.jobs := h
    rw [hworker] at h
    cases h
  · exact .inr (.inl (hqueue ▸ h))
  · exact .inr (.inr (.inl h))
  · exact .inr (.inr (.inr h))

/-- The worker makes no jobs. -/
theorem Due.work (hstep : p.work = some (message, p')) (h : p'.Due job) : p.Due job := by
  cases work_cases hstep with
  | take worker next =>
    rcases h with h | h | h | h
    · exact .inr (.inl (next ▸ List.mem_singleton.mp h ▸ List.mem_cons_self))
    · exact .inr (.inl (next ▸ List.mem_cons_of_mem _ h))
    · exact .inr (.inr (.inl h))
    · exact .inr (.inr (.inr h))
  | announce | prepare | announced | lock | walked | visit | refuse | skip | append | change | remove
  | gone | unheard | send => exact Due.worker rfl rfl h

theorem Due.workFails (hstep : p.workFails = some p') (h : p'.Due job) : p.Due job := by
  obtain ⟨_, _, rfl⟩ := Option.map_eq_some_iff.mp hstep
  exact Due.worker rfl rfl h

end ServerProcess

/-! ## The worker of a client -/

namespace ClientProcess

variable {ι : Type} {c c' : ClientProcess ι}

/-- The steps of the worker, with the messages it sends. -/
inductive Work (c : ClientProcess ι) : Option ClientMessage → ClientProcess ι → Prop where
  | take {job : ClientJob} {queue : List ClientJob} (worker : c.worker = .idle)
      (next : c.impl.queue = job :: queue) :
      Work c none { c with impl := { c.impl with queue := queue }, worker := .running job }
  | announce (worker : c.worker = .running .subscribe) :
      Work c (some (.announceFeatures .initDefault)) { c with worker := .announced }
  | subscribe (worker : c.worker = .announced) : Work c (some .subscribe) { c with worker := .idle }
  | change {id : TweakId} {item : Item} (worker : c.worker = .running (.change id))
      (found : c.impl.find? id = some item) (connected : c.impl.connected = true) :
      Work c none { c with worker := .sending id item.currentValue }
  | gone {id : TweakId} (worker : c.worker = .running (.change id))
      (lost : c.impl.find? id = none) : Work c none { c with worker := .idle }
  | unheard {id : TweakId} (worker : c.worker = .running (.change id))
      (disconnected : c.impl.connected = false) : Work c none { c with worker := .idle }
  | send {id : TweakId} {value : Variant} (worker : c.worker = .sending id value) :
      Work c (if (ClientMessage.changeItem id value).accepted then some (.changeItem id value) else none)
        { c with worker := .idle }

theorem work_cases {message : Option ClientMessage} (h : c.work = some (message, c')) :
    c.Work message c' := by
  rw [work] at h
  split at h
  · next worker =>
      split at h
      · cases h
      · next next =>
          cases h
          exact .take worker next
  · next worker =>
      cases h
      exact .announce worker
  · next worker =>
      cases h
      exact .subscribe worker
  · next worker =>
      split at h
      · next found =>
          cases h
          cases connected : c.impl.connected with
          | true => exact .change worker found connected
          | false => exact .unheard worker connected
      · next lost =>
          cases h
          exact .gone worker lost
  · next worker =>
      cases h
      exact .send worker

end ClientProcess

end TweakTool.App
