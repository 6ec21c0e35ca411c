import TweakTool.App.Service
import TweakTool.Lib.Shutdown

/-! # Destroying a context

`tweak_app_destroy_context`: the queue is stopped, the endpoint reports that the connection is lost
and is destroyed, and the worker is joined. The worker executes the batch it has pulled to its end,
and calls the endpoint of the context wherever a job has something to send. -/

namespace TweakTool.App

open TweakTool.Lib

theorem prefix_enqueue {α : Type} [DecidableEq α] (drop : Bool) (job : α) (queue : List α) :
    queue <+: enqueue drop job queue := by
  rw [enqueue]
  split
  · exact List.prefix_rfl
  · exact List.prefix_append _ _

/-! ## Servers -/

/-- A job about a changed value has nothing to send to a client that is not connected. -/
def ServerJob.isChange : ServerJob → Bool
  | .change _ => true
  | .subscribe | .append _ | .remove _ => false

/-- The worker is between two jobs, or has started a job about a changed value. -/
def ServerWorker.quiet : ServerWorker → Bool
  | .idle => true
  | .running job => job.isChange
  | .announced | .subscribing | .walking _ | .sending _ => false

namespace ServerProcess

variable {ι : Type}

/-- The messages and events of clients come through the endpoint. -/
def Action.source : Action ι → Source
  | .worker | .workerFails => .worker
  | .connectionState _ | .announceFeatures _ | .subscribe | .changeItem _ _ | .receiver _ => .resource
  | .addItem _ _ _ | .removeItem _ _ | .replaceCurrentValue _ _ _ | .application _ _ => .other

def idle (p : ServerProcess ι) : Bool :=
  match p.worker with
  | .idle => true
  | .running _ | .announced | .subscribing | .walking _ | .sending _ => false

/-- There is no client, and the worker is not about to find out that there is one. -/
def Quiet (p : ServerProcess ι) : Prop :=
  p.impl.connected = false ∧ p.worker.quiet = true

instance (p : ServerProcess ι) : Decidable p.Quiet :=
  inferInstanceAs (Decidable (_ ∧ _))

variable {p p' : ServerProcess ι}

theorem outgoing_idle (h : p.worker = .idle) : p.outgoing = none := by
  rw [outgoing, h]

theorem idle_eq_true : p.idle = true ↔ p.worker = .idle := by
  rw [idle]
  split
  · next h => exact ⟨fun _ => h, fun _ => rfl⟩
  all_goals
    next h =>
      rw [h]
      constructor <;> rintro ⟨⟩

private theorem Quiet.outgoing_isSome (h : p.Quiet) : p.outgoing.isSome = false := by
  have hworker := h.2
  rw [outgoing]
  split
  · next hsubscribe =>
      rw [hsubscribe] at hworker
      cases hworker
  · next hwalking =>
      rw [hwalking] at hworker
      cases hworker
  · next hsending =>
      rw [hsending] at hworker
      cases hworker
  all_goals rfl

section Host

variable [DecidableEq ι]

/-- What is not the worker appends to the queue, if it changes it at all. -/
theorem queue_prefix {a : Action ι} (h : p.step a = some p') (ha : a.source ≠ .worker) :
    p.impl.queue <+: p'.impl.queue := by
  cases a with
  | addItem thread alloc new =>
    obtain ⟨_, rfl⟩ := addItem_cases h
    exact List.prefix_rfl
  | removeItem thread id =>
    obtain ⟨_, _, rfl⟩ := removeItem_cases h
    exact List.prefix_rfl
  | replaceCurrentValue thread id value =>
    obtain ⟨_, _, rfl⟩ := replaceCurrentValue_cases h
    exact List.prefix_rfl
  | application thread drop =>
    cases proceeds h with
    | add => exact List.prefix_rfl
    | push => exact prefix_enqueue _ _ _
  | connectionState isConnected =>
    cases h
    cases isConnected <;> exact List.prefix_rfl
  | announceFeatures features =>
    rw [announceFeatures_cases h]
    exact List.prefix_rfl
  | subscribe =>
    obtain ⟨_, rfl⟩ := receive_subscribe_cases h
    exact List.prefix_rfl
  | changeItem id value =>
    obtain ⟨_, _, item, _, rfl⟩ := receive_changeItem_cases h
    split <;> exact List.prefix_rfl
  | receiver drop =>
    obtain ⟨job, _, rfl⟩ := receiverPush_cases h
    exact prefix_enqueue _ _ _
  | worker | workerFails => exact absurd rfl ha

/-- A step of the worker that calls the endpoint in vain keeps the queue, like the others. -/
theorem work_queue {a : Action ι} (h : p.step a = some p') (ha : a.source = .worker) :
    if p.idle then ∃ job, p.impl.queue = job :: p'.impl.queue else p'.impl.queue = p.impl.queue := by
  cases a with
  | worker =>
    obtain ⟨⟨message, _⟩, hwork, rfl⟩ := Option.map_eq_some_iff.mp h
    cases work_cases hwork with
    | @take job queue hidle next =>
      rw [if_pos (idle_eq_true.mpr hidle)]
      exact ⟨job, next⟩
    | announce hworker | prepare hworker | announced hworker | lock hworker | walked hworker
    | visit hworker | refuse hworker | skip hworker | append hworker | change hworker
    | remove hworker | gone hworker | unheard hworker | send hworker =>
      rw [if_neg]
      rw [idle_eq_true, hworker]
      rintro ⟨⟩
  | workerFails =>
    obtain ⟨message, hmessage, rfl⟩ := Option.map_eq_some_iff.mp h
    rw [if_neg]
    intro hidle
    rw [outgoing_idle (idle_eq_true.mp hidle)] at hmessage
    cases hmessage
  | addItem | removeItem | replaceCurrentValue | application | connectionState | announceFeatures
  | subscribe | changeItem | receiver => cases ha

def host : Host (ServerProcess ι) (Action ι) ServerJob where
  step := step
  source := Action.source
  jobs p := p.impl.queue
  idle := idle
  uses p := p.outgoing.isSome
  release p := p.connectionState false
  step_jobs := queue_prefix
  take_jobs h ha hidle := by simpa only [hidle, if_true] using work_queue h ha
  keep_jobs h ha hidle := by simpa only [hidle, Bool.false_eq_true, if_false] using work_queue h ha
  release_jobs _ := rfl

/-- Nothing but a message of a client makes the worker speak. -/
theorem Quiet.step {a : Action ι} (hp : p.Quiet) (ha : a.source ≠ .resource)
    (hjob : a.source = .worker → p.idle = true → ∀ job rest, p.impl.queue = job :: rest →
      job.isChange = true) (h : p.step a = some p') : p'.Quiet := by
  cases a with
  | addItem thread alloc new =>
    obtain ⟨_, rfl⟩ := addItem_cases h
    exact hp
  | removeItem thread id =>
    obtain ⟨_, _, rfl⟩ := removeItem_cases h
    exact hp
  | replaceCurrentValue thread id value =>
    obtain ⟨_, _, rfl⟩ := replaceCurrentValue_cases h
    exact hp
  | application thread drop =>
    cases proceeds h with
    | add => exact hp
    | push => exact hp
  | connectionState | announceFeatures | subscribe | changeItem | receiver => exact absurd rfl ha
  | workerFails =>
    obtain ⟨message, hmessage, rfl⟩ := Option.map_eq_some_iff.mp h
    exact ⟨hp.1, rfl⟩
  | worker =>
    obtain ⟨⟨message, _⟩, hwork, rfl⟩ := Option.map_eq_some_iff.mp h
    have hquiet := hp.2
    cases work_cases hwork with
    | @take job queue hidle next =>
      exact ⟨hp.1, hjob rfl (idle_eq_true.mpr hidle) job queue next⟩
    | gone | unheard => exact ⟨hp.1, rfl⟩
    -- a change is only sent to a client that is connected
    | change _ _ hconnected =>
      rw [hp.1] at hconnected
      cases hconnected
    | announce hworker | prepare hworker | announced hworker | lock hworker | walked hworker
    | visit hworker | refuse hworker | skip hworker | append hworker | remove hworker
    | send hworker =>
      rw [hworker] at hquiet
      cases hquiet

end Host

end ServerProcess

/-! ## Clients -/

def ClientJob.isChange : ClientJob → Bool
  | .change _ => true
  | .subscribe => false

/-- The worker is between two jobs, or has started a job about a changed value. -/
def ClientWorker.quiet : ClientWorker → Bool
  | .idle => true
  | .running job => job.isChange
  | .announced | .sending _ _ => false

namespace ClientProcess

inductive Action (ι : Type) where
  | connect (drop : Bool) -- a step of `client_connection_state_pickle_impl` for a new connection
  | disconnect
  | announceFeatures (features : Option Features)
  | receive (message : ServerMessage)
  | replaceCurrentValue (thread : ι) (id : TweakId) (value : Variant)
  | application (thread : ι) (drop : Bool)
  /-- Whether a call of the endpoint succeeds makes no difference to what the worker does next. -/
  | worker

variable {ι : Type}

/-- `client_connection_state_pickle_impl` for a connection that is lost. -/
def disconnect (c : ClientProcess ι) : Option (ClientProcess ι) :=
  match c.connection with
  | .disconnected | .done =>
    some { c with impl := { c.impl with connected := false }, connection := .disconnected }
  | .resetting | .connecting | .pushing => none

/-- The next state; `none` if the step cannot be taken, or if the client ends. -/
def step [DecidableEq ι] (c : ClientProcess ι) : Action ι → Option (ClientProcess ι)
  | .connect drop => c.connect drop
  | .disconnect => c.disconnect
  | .announceFeatures features => some { c with impl := c.impl.announceFeaturesImpl features }
  | .receive message => (c.receive message).toOption
  | .replaceCurrentValue thread id value => c.replaceCurrentValue thread id value
  | .application thread drop => c.proceed thread drop
  | .worker => c.work.map (·.2)

def Action.source : Action ι → Source
  | .worker => .worker
  | .connect _ | .disconnect | .announceFeatures _ | .receive _ => .resource
  | .replaceCurrentValue _ _ _ | .application _ _ => .other

def idle (c : ClientProcess ι) : Bool :=
  match c.worker with
  | .idle => true
  | .running _ | .announced | .sending _ _ => false

/-- The worker passes a message to the endpoint in its next step. -/
def calling (c : ClientProcess ι) : Bool :=
  match c.worker with
  | .running .subscribe | .announced | .sending _ _ => true
  | .idle | .running (.change _) => false

/-- The client is not connected, and the worker does not need it to be. -/
def Quiet (c : ClientProcess ι) : Prop :=
  c.impl.connected = false ∧ c.worker.quiet = true

instance (c : ClientProcess ι) : Decidable c.Quiet :=
  inferInstanceAs (Decidable (_ ∧ _))

variable {c c' : ClientProcess ι}

theorem idle_eq_true : c.idle = true ↔ c.worker = .idle := by
  rw [idle]
  split
  · next h => exact ⟨fun _ => h, fun _ => rfl⟩
  all_goals
    next h =>
      rw [h]
      constructor <;> rintro ⟨⟩

private theorem Quiet.calling_eq_false (h : c.Quiet) : c.calling = false := by
  have hworker := h.2
  rw [calling]
  split
  · next hsubscribe =>
      rw [hsubscribe] at hworker
      cases hworker
  · next hannounced =>
      rw [hannounced] at hworker
      cases hworker
  · next hsending =>
      rw [hsending] at hworker
      cases hworker
  all_goals rfl

/-- Messages of the server make no jobs. -/
theorem receive_queue {message : ServerMessage} (h : (c.receive message).toOption = some c') :
    c'.impl.queue = c.impl.queue := by
  cases message with
  | announceFeatures features =>
    cases h
    rfl
  | addItem a =>
    rw [receive] at h
    cases hadd : c.impl.modelImpl.clientAddItem ⟨true, true, true, true⟩ a with
    | ok modelImpl =>
      rw [hadd] at h
      cases h
      rfl
    | error fatal =>
      rw [hadd] at h
      cases h
  | changeItem id value =>
    cases h
    rfl
  | removeItem id =>
    cases h
    rfl

private theorem connect_queue {drop : Bool} (h : c.connect drop = some c') :
    c.impl.queue <+: c'.impl.queue := by
  rw [connect] at h
  split at h
  case h_4 =>
    cases h
    exact prefix_enqueue _ _ _
  case h_5 => cases h
  all_goals
    cases h
    exact List.prefix_rfl

theorem disconnect_queue (h : c.disconnect = some c') : c'.impl.queue = c.impl.queue := by
  rw [disconnect] at h
  split at h
  · cases h
    rfl
  · cases h
    rfl
  all_goals cases h

/-- A call of the application does not change what the worker is doing, nor the connection. -/
structure Asks (c c' : ClientProcess ι) : Prop where
  queue : c.impl.queue <+: c'.impl.queue
  connected : c'.impl.connected = c.impl.connected
  worker : c'.worker = c.worker

private theorem Asks.refl (c : ClientProcess ι) : c.Asks c := ⟨List.prefix_rfl, rfl, rfl⟩

private theorem Quiet.asks (h : c.Quiet) (hasks : c.Asks c') : c'.Quiet :=
  ⟨hasks.connected ▸ h.1, hasks.worker ▸ h.2⟩

section Host

variable [DecidableEq ι] {i : ι}

theorem asks_replaceCurrentValue {id : TweakId} {value : Variant}
    (h : c.replaceCurrentValue i id value = some c') : c.Asks c' := by
  rw [replaceCurrentValue] at h
  split at h
  · split at h
    · cases h
      exact ⟨List.prefix_rfl, rfl, rfl⟩
    · cases h
      exact .refl c
  · cases h
    exact .refl c
  · cases h

theorem asks_proceed {drop : Bool} (h : c.proceed i drop = some c') : c.Asks c' := by
  rw [proceed] at h
  split at h
  · cases h
  · cases h
    exact ⟨List.prefix_rfl, rfl, rfl⟩
  · cases h
    exact ⟨List.prefix_rfl, rfl, rfl⟩
  · cases h
    exact ⟨prefix_enqueue _ _ _, rfl, rfl⟩

/-- Who is not the worker only appends jobs. -/
theorem queue_prefix {a : Action ι} (h : c.step a = some c') (ha : a.source ≠ .worker) :
    c.impl.queue <+: c'.impl.queue := by
  cases a with
  | connect drop => exact connect_queue h
  | disconnect => exact (disconnect_queue h).symm ▸ List.prefix_rfl
  | announceFeatures features =>
    cases h
    cases features <;> exact List.prefix_rfl
  | receive message => exact (receive_queue h).symm ▸ List.prefix_rfl
  | replaceCurrentValue thread id value => exact (asks_replaceCurrentValue h).queue
  | application thread drop => exact (asks_proceed h).queue
  | worker => exact absurd rfl ha

/-- The worker takes the first job, if it is idle. -/
theorem work_queue {a : Action ι} (h : c.step a = some c') (ha : a.source = .worker) :
    if c.idle then ∃ job, c.impl.queue = job :: c'.impl.queue else c'.impl.queue = c.impl.queue := by
  cases a with
  | worker =>
    obtain ⟨⟨message, _⟩, hwork, rfl⟩ := Option.map_eq_some_iff.mp h
    cases work_cases hwork with
    | @take job queue hidle next =>
      rw [if_pos (idle_eq_true.mpr hidle)]
      exact ⟨job, next⟩
    | announce hworker | subscribe hworker | change hworker | gone hworker | unheard hworker
    | send hworker =>
      rw [if_neg]
      rw [idle_eq_true, hworker]
      rintro ⟨⟩
  | connect | disconnect | announceFeatures | receive | replaceCurrentValue | application => cases ha

def host : Host (ClientProcess ι) (Action ι) ClientJob where
  step := step
  source := Action.source
  jobs c := c.impl.queue
  idle := idle
  uses := calling
  release c := { c with impl := { c.impl with connected := false } }
  step_jobs := queue_prefix
  take_jobs h ha hidle := by simpa only [hidle, if_true] using work_queue h ha
  keep_jobs h ha hidle := by simpa only [hidle, Bool.false_eq_true, if_false] using work_queue h ha
  release_jobs _ := rfl

/-- Without its endpoint a quiet client remains quiet. -/
theorem Quiet.step {a : Action ι} (hc : c.Quiet) (ha : a.source ≠ .resource)
    (hjob : a.source = .worker → c.idle = true → ∀ job rest, c.impl.queue = job :: rest →
      job.isChange = true) (h : c.step a = some c') : c'.Quiet := by
  cases a with
  | connect | disconnect | announceFeatures | receive => exact absurd rfl ha
  | replaceCurrentValue thread id value => exact hc.asks (asks_replaceCurrentValue h)
  | application thread drop => exact hc.asks (asks_proceed h)
  | worker =>
    obtain ⟨⟨message, _⟩, hwork, rfl⟩ := Option.map_eq_some_iff.mp h
    have hquiet := hc.2
    cases work_cases hwork with
    | @take job queue hidle next =>
      exact ⟨hc.1, hjob rfl (idle_eq_true.mpr hidle) job queue next⟩
    | gone | unheard => exact ⟨hc.1, rfl⟩
    | change _ _ hconnected =>
      rw [hc.1] at hconnected
      cases hconnected
    | announce hworker | subscribe hworker | send hworker =>
      rw [hworker] at hquiet
      cases hquiet

end Host

end ClientProcess

/-! ## Both -/

section Destruction

variable {ι : Type} [DecidableEq ι]

/-- A server is destroyed when its worker has at most jobs about changed values left. -/
abbrev ServerProcess.Drained : Shutdown (ServerProcess ι) → Shutdown.Action (ServerProcess.Action ι) →
    Prop :=
  Shutdown.Settled ServerProcess.host ServerProcess.Quiet fun job => job.isChange = true

/-- A client is destroyed when its worker has at most jobs about changed values left. -/
abbrev ClientProcess.Drained : Shutdown (ClientProcess ι) → Shutdown.Action (ClientProcess.Action ι) →
    Prop :=
  Shutdown.Settled ClientProcess.host ClientProcess.Quiet fun job => job.isChange = true

/-- The worker never calls an endpoint that has been destroyed, from whatever position it is in when
the destruction starts, if it has nothing to send left when the endpoint is destroyed. -/
theorem endpoint_unused_once_destroyed (p : ServerProcess ι) (c : ClientProcess ι)
    (serverBatch clientBatch : Nat) (hp : serverBatch ≤ p.impl.queue.length)
    (hc : clientBatch ≤ c.impl.queue.length)
    (serverActions : List (Shutdown.Action (ServerProcess.Action ι)))
    (clientActions : List (Shutdown.Action (ClientProcess.Action ι)))
    (hserver : Along (Shutdown.step ServerProcess.host) ServerProcess.Drained
      ⟨p, serverBatch, .running⟩ serverActions)
    (hclient : Along (Shutdown.step ClientProcess.host) ClientProcess.Drained
      ⟨c, clientBatch, .running⟩ clientActions) :
    Throughout (Shutdown.step ServerProcess.host) (Shutdown.Safe ServerProcess.host)
        ⟨p, serverBatch, .running⟩ serverActions ∧
      Throughout (Shutdown.step ClientProcess.host) (Shutdown.Safe ClientProcess.host)
        ⟨c, clientBatch, .running⟩ clientActions := by
  constructor
  · exact Shutdown.safe_throughout ServerProcess.Quiet.step ServerProcess.Quiet.outgoing_isSome hp
      hserver
  · exact Shutdown.safe_throughout ClientProcess.Quiet.step ClientProcess.Quiet.calling_eq_false hc
      hclient

end Destruction

/-- Jobs about changed values are executed while the endpoint is destroyed, and after it. -/
theorem endpoint_unused_changes :
    Throughout (Shutdown.step ServerProcess.host) (Shutdown.Safe ServerProcess.host)
        ⟨({ ServerProcess.init with impl := { Server.init with queue := [.change 5] } } :
          ServerProcess Unit), 1, .running⟩
        [.destruct, .act .worker, .destruct, .destruct, .act .worker, .destruct] ∧
      Throughout (Shutdown.step ClientProcess.host) (Shutdown.Safe ClientProcess.host)
        ⟨({ ClientProcess.init with impl := { Client.init with queue := [.change 5, .change 6] } } :
          ClientProcess Unit), 2, .running⟩
        [.destruct, .destruct, .destruct, .act .worker, .act .worker, .act .worker, .act .worker,
          .destruct] :=
  endpoint_unused_once_destroyed _ _ _ _ (by decide) (by decide) _ _ (by decide +kernel)
    (by decide +kernel)

/-- A server is destroyed when its worker has pulled the subscription of a client, and a client when
its own worker has pulled the one it is going to send: both workers go on to announce their features. -/
theorem endpoint_used_after_destruction :
    (∃ s, run (Shutdown.step ServerProcess.host)
        ⟨(ServerProcess.init : ServerProcess Unit), 0, .running⟩
        [.act (.connectionState true), .act (.announceFeatures (some .initDefault)), .act .subscribe,
          .act (.receiver false), .pull, .destruct, .destruct, .destruct, .act .worker] = some s ∧
      ¬ Shutdown.Safe ServerProcess.host s) ∧
    ∃ s, run (Shutdown.step ClientProcess.host)
        ⟨(ClientProcess.init : ClientProcess Unit), 0, .running⟩
        [.act (.connect false), .act (.connect false), .act (.connect false), .act (.connect false),
          .pull, .destruct, .destruct, .destruct, .act .worker] = some s ∧
      ¬ Shutdown.Safe ClientProcess.host s := by
  refine ⟨⟨_, rfl, ?_⟩, ⟨_, rfl, ?_⟩⟩
  · intro h
    cases h rfl
  · intro h
    cases h rfl

end TweakTool.App
