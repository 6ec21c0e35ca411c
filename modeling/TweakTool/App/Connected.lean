import TweakTool.App.Service

/-! # The connected flag

The flag of a server is set by a subscribe job of the worker and cleared by the event of a lost
connection. The event leaves the queue as it is, so the flag tells the truth only as long as no
subscribe job is under way when a connection comes or goes. -/

namespace TweakTool.App

open TweakTool.Lib

/-- The worker is in the middle of `io_loop_subscribe`. -/
def ServerWorker.inSubscribe : ServerWorker → Bool
  | .announced | .subscribing | .walking _ => true
  | .idle | .running _ | .sending _ => false

namespace ServerProcess

variable {ι : Type} {p p' : ServerProcess ι}

/-- A subscribe job is in the queue, about to be pushed or being executed. -/
def Subscribing (p : ServerProcess ι) : Prop := p.Due .subscribe ∨ p.worker.inSubscribe = true

instance [Fintype ι] (p : ServerProcess ι) : Decidable p.Subscribing :=
  inferInstanceAs (Decidable (_ ∨ _))

/-- A step that begins no subscription, and sets the flag only at the end of one. -/
structure Continues (p p' : ServerProcess ι) : Prop where
  connected : p'.impl.connected = true → p.impl.connected = true ∨ p.Subscribing
  subscribing : p'.Subscribing → p.Subscribing

/-- The worker does not take part in the step. -/
theorem Continues.of_due (hconnected : p'.impl.connected = p.impl.connected)
    (hworker : p'.worker = p.worker) (hdue : p'.Due .subscribe → p.Due .subscribe) :
    p.Continues p' where
  connected h := .inl (hconnected ▸ h)
  subscribing h := by
    rcases h with h | h
    · exact .inl (hdue h)
    · exact .inr (hworker ▸ h)

section Calls

variable [DecidableEq ι] {i : ι}

private theorem continues_addItem {alloc : Allocations} {new : NewItem}
    (hstep : p.addItem i alloc new = some p') : p.Continues p' := by
  obtain ⟨_, rfl⟩ := addItem_cases hstep
  refine .of_due rfl rfl ?_
  intro h
  rcases Due.call (p := p) h rfl rfl rfl rfl with hdue | hnew
  · exact hdue
  · cases hnew

/-- The locked part of a call, which goes on to push a job. -/
theorem continues_unlock {impl : Server} {shouldPushChange : Bool} {job : ServerJob}
    (hconnected : impl.connected = p.impl.connected) (hqueue : impl.queue = p.impl.queue)
    (hjob : .subscribe ≠ job) : p.Continues (p.unlock i impl shouldPushChange job) := by
  refine .of_due hconnected rfl ?_
  intro h
  rcases h.unlock hqueue with hdue | ⟨_, hnew⟩
  · exact hdue
  · exact absurd hnew hjob

/-- The calls of the application have nothing to do with the connection. -/
theorem continues_proceed {drop : Bool} (hstep : p.proceed i drop = some p') : p.Continues p' := by
  cases proceeds hstep with
  | add call free => exact continues_unlock rfl rfl ServerJob.noConfusion
  | push call => exact .of_due rfl rfl (Due.push call)

end Calls

private theorem continues_receive_changeItem {id : TweakId} {value : Variant}
    (hstep : p.receive (.changeItem id value) = some p') : p.Continues p' := by
  obtain ⟨_, _, item, _, rfl⟩ := receive_changeItem_cases hstep
  have hnew {id : TweakId} {impl : Server} (hqueue : impl.queue = p.impl.queue)
      (h : Due { p with impl := impl, receiver := .pushing (.change id) } .subscribe) :
      p.Due .subscribe := by
    rcases h.receive hqueue with hdue | hnew
    · exact hdue
    · cases hnew
  split
  · exact .of_due rfl rfl (hnew rfl)
  · exact .of_due rfl rfl (hnew rfl)

private theorem continues_receiverPush {drop : Bool} (hstep : p.receiverPush drop = some p') :
    p.Continues p' := by
  obtain ⟨job, hreceiver, rfl⟩ := receiverPush_cases hstep
  exact .of_due rfl rfl (Due.receiverPush hstep)

/-- The worker sets the flag when a subscribe job ends. -/
theorem continues_work {message : Option ServerMessage} (hstep : p.work = some (message, p')) :
    p.Continues p' := by
  have hdue : p'.Due .subscribe → p.Due .subscribe := Due.work hstep
  cases work_cases hstep with
  | take worker next =>
    refine ⟨.inl, ?_⟩
    rintro (h | h)
    · exact .inl (hdue h)
    · cases h
  | announce worker | prepare worker =>
    have hbusy : p.Subscribing := by
      refine .inl (.inl ?_)
      rw [worker]
      exact List.mem_singleton.mpr rfl
    exact ⟨.inl, fun _ => hbusy⟩
  | announced worker | lock worker | visit worker | skip worker =>
    have hbusy : p.Subscribing := .inr (by rw [worker]; rfl)
    exact ⟨.inl, fun _ => hbusy⟩
  | walked worker =>
    -- the only step that sets the flag
    have hbusy : p.Subscribing := .inr (by rw [worker]; rfl)
    exact ⟨fun _ => .inr hbusy, fun _ => hbusy⟩
  | refuse | append | change | remove | gone | unheard | send =>
    refine ⟨.inl, ?_⟩
    rintro (h | h)
    · exact .inl (hdue h)
    · cases h

private theorem continues_workFails (hstep : p.workFails = some p') : p.Continues p' := by
  have hdue : p'.Due .subscribe → p.Due .subscribe := Due.workFails hstep
  obtain ⟨_, _, rfl⟩ := Option.map_eq_some_iff.mp hstep
  refine ⟨.inl, ?_⟩
  rintro (h | h)
  · exact .inl (hdue h)
  · cases h

end ServerProcess

/-! ## Connection events -/

/-- A server together with what has happened on its connection. -/
structure Watched (ι : Type) where
  process : ServerProcess ι
  latest : Option Bool -- the latest connection event
  subscribed : Bool -- a subscribe message has arrived since then

namespace Watched

variable {ι : Type}

def init : Watched ι := ⟨.init, none, false⟩

/-- Clients subscribe while they are connected. -/
def step [DecidableEq ι] (w : Watched ι) (action : ServerProcess.Action ι) : Option (Watched ι) :=
  (w.process.step action).bind fun p =>
    match action with
    | .connectionState isConnected => some ⟨p, some isConnected, false⟩
    | .subscribe =>
      if w.latest = some true then some { w with process := p, subscribed := true } else none
    | _ => some { w with process := p }

/-- While the worker has nothing to do, the flag means that a client is connected and has
subscribed. -/
def Truthful (w : Watched ι) : Prop :=
  w.process.impl.queue = [] → w.process.worker = .idle → w.process.impl.connected = true →
    w.latest = some true ∧ w.subscribed = true

/-- A connection event is handled while no subscribe job is under way, and a new connection while the
flag is not set. -/
def Orderly (w : Watched ι) : ServerProcess.Action ι → Prop
  | .connectionState isConnected =>
    ¬ w.process.Subscribing ∧ (isConnected = true → w.process.impl.connected = false)
  | _ => True

instance [Fintype ι] (w : Watched ι) : DecidablePred w.Orderly
  | .connectionState _ => inferInstanceAs (Decidable (_ ∧ _))
  | .addItem _ _ _ | .removeItem _ _ | .replaceCurrentValue _ _ _ | .application _ _
  | .announceFeatures _ | .subscribe | .changeItem _ _ | .receiver _ | .worker
  | .workerFails => .isTrue trivial

/-- Who is taken to be connected, or is going to be, is. -/
def Inv (w : Watched ι) : Prop :=
  w.process.impl.connected = true ∨ w.process.Subscribing → w.latest = some true ∧ w.subscribed = true

theorem inv_init : (init : Watched ι).Inv := by
  rintro (h | h | h)
  · cases h
  · exact absurd h (ServerProcess.not_due_init _)
  · cases h

private theorem Inv.continues {w : Watched ι} (h : w.Inv) {p : ServerProcess ι}
    (hp : w.process.Continues p) : Inv { w with process := p } := by
  rintro (hconnected | hsubscribing)
  · exact h (hp.connected hconnected)
  · exact h (.inr (hp.subscribing hsubscribing))

/-- A connection event begins a new visit. -/
theorem inv_connectionState {w : Watched ι} {isConnected : Bool}
    (hidle : ¬ w.process.Subscribing) (hflag : isConnected = true → w.process.impl.connected = false) :
    Inv ⟨w.process.connectionState isConnected, some isConnected, false⟩ := by
  rintro (hconnected | hsubscribing)
  · cases isConnected with
    | true => exact absurd hconnected (Bool.eq_false_iff.mp (hflag rfl))
    | false => cases hconnected
  · cases isConnected with
    | true => exact absurd hsubscribing hidle
    | false => exact absurd hsubscribing hidle

/-- Every orderly step keeps the invariant. -/
theorem inv_step [DecidableEq ι] {w w' : Watched ι} {action : ServerProcess.Action ι} (h : w.Inv)
    (horderly : w.Orderly action) (hstep : w.step action = some w') : w'.Inv := by
  obtain ⟨p, hp, hstep⟩ := Option.bind_eq_some_iff.mp hstep
  cases action with
  | addItem thread alloc new =>
    cases hstep
    exact h.continues (ServerProcess.continues_addItem hp)
  | removeItem thread id =>
    obtain ⟨_, _, rfl⟩ := ServerProcess.removeItem_cases hp
    cases hstep
    exact h.continues (ServerProcess.continues_unlock rfl rfl ServerJob.noConfusion)
  | replaceCurrentValue thread id value =>
    obtain ⟨_, _, rfl⟩ := ServerProcess.replaceCurrentValue_cases hp
    cases hstep
    exact h.continues (ServerProcess.continues_unlock rfl rfl ServerJob.noConfusion)
  | application thread drop =>
    cases hstep
    exact h.continues (ServerProcess.continues_proceed hp)
  | connectionState isConnected =>
    cases hp
    cases hstep
    exact inv_connectionState horderly.1 horderly.2
  | announceFeatures features =>
    cases ServerProcess.announceFeatures_cases hp
    cases hstep
    exact h.continues (.of_due rfl rfl fun h => h)
  | subscribe =>
    dsimp only at hstep
    split at hstep
    · next hlatest =>
        cases hstep
        exact fun _ => ⟨hlatest, rfl⟩
    · cases hstep
  | changeItem id value =>
    cases hstep
    exact h.continues (ServerProcess.continues_receive_changeItem hp)
  | receiver drop =>
    cases hstep
    exact h.continues (ServerProcess.continues_receiverPush hp)
  | worker =>
    obtain ⟨⟨message, p''⟩, hwork, rfl⟩ := Option.map_eq_some_iff.mp hp
    cases hstep
    exact h.continues (ServerProcess.continues_work hwork)
  | workerFails =>
    cases hstep
    exact h.continues (ServerProcess.continues_workFails hp)

/-- **The connected flag tells the truth**, in every run in which connections come and go only while
no subscribe job is under way. -/
theorem connected_truthful [DecidableEq ι] (actions : List (ServerProcess.Action ι))
    (horderly : Along step Orderly init actions) : Throughout step Truthful init actions := by
  refine throughout_invariant_along (P := Inv) inv_step ?_ inv_init horderly
  intro w h _ _ hconnected
  exact h (.inl hconnected)

/-- A subscribe message is handled and its job is executed, on a server without items. -/
def visit : List (ServerProcess.Action Unit) :=
  [.connectionState true, .subscribe, .receiver false, .worker, .worker, .worker, .worker]

theorem connected_truthful_visit :
    (run step init visit).map (fun w => w.process.impl.connected) = some true ∧
      Along step Orderly init (visit ++ [.connectionState false] ++ visit) ∧
      Throughout step Truthful init (visit ++ [.connectionState false] ++ visit) := by
  have horderly : Along step Orderly (init : Watched Unit)
      (visit ++ [.connectionState false] ++ visit) := by decide +kernel
  exact ⟨by decide +kernel, horderly, connected_truthful _ horderly⟩

/-- The client has gone before its subscribe job is executed. -/
def late : List (ServerProcess.Action Unit) :=
  [.connectionState true, .subscribe, .receiver false, .connectionState false, .worker, .worker,
    .worker, .worker]

/-- With nothing left to do, the server takes a client to be connected that has gone. -/
theorem connected_late :
    ∃ w, run step (init : Watched Unit) late = some w ∧ w.process.impl.queue = [] ∧
      w.process.worker = .idle ∧ w.process.impl.connected = true ∧ w.latest = some false :=
  ⟨_, rfl, rfl, rfl, rfl, rfl⟩

end Watched

end TweakTool.App
