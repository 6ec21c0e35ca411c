import TweakTool.Lib.Run
import Mathlib.Logic.Function.Basic

/-! # The change loop of the Python module

`gil_loop.cpp`: changes of items are put into a queue, from which a worker takes all of them at a time
and calls the handlers. The worker waits with a mutex and a condition variable; the destructor sets a
flag, without the mutex, and notifies. Each step of a thread that others can see is a step of the model.

A call of `feed`, `setHandler` or `removeHandler` begins when it has got the mutex. Callbacks are
executed when the worker comes to them: the lock of the interpreter is not modelled. -/

namespace TweakTool.Py

open TweakTool.Lib

/-- `GilLoop::QueueItem`. The value stands for the object that is made of `value_` and `metadata_`. -/
structure QueueItem (I K V : Type) where
  id : I
  callback : K
  value : V
  deriving DecidableEq

inductive Call (I K V : Type) where
  | feed (id : I) (value : V)
  | setHandler (id : I) (callback : K)
  | removeHandler (id : I)

inductive Lock (I K V : Type) where
  | free
  | worker
  | call (call : Call I K V)
  /-- A call that has done its work, and will notify if it has changed the queue. -/
  | leaving (notify : Bool)

inductive Worker where
  | contending -- `waitChanges` needs the mutex, at its beginning or after it was woken
  | testing -- the predicate of `cond.wait` is to be evaluated
  | unmet -- it was false, and the worker is to be blocked
  | blocked
  | met -- it was true
  | leaving (result : Bool) -- `waitChanges` returns
  | executing (next : Nat) -- the loop over `threadLocalCopy` is at this item
  | finished
  deriving DecidableEq

inductive Destructor where
  | pending
  | flagged -- `shutdown` has been set
  | joining -- all have been notified
  | joined
  deriving DecidableEq

/-- The object and its worker. The calls that have done their work and what has been passed to
callbacks is remembered. -/
structure GilLoop (I K V : Type) where
  callbacks : I → Option K
  changeQueue : List (QueueItem I K V)
  lock : Lock I K V
  shutdown : Bool
  threadLocalCopy : List (QueueItem I K V)
  worker : Worker
  notifications : Nat -- how many calls have given the mutex back and are about to notify
  destructor : Destructor
  performed : List (Call I K V)
  executed : List (QueueItem I K V)

inductive Action (I K V : Type) where
  | call (call : Call I K V) -- a call gets the mutex
  | perform -- the call that has the mutex does its work
  | unlock
  | notify
  | wake -- the worker is woken without a notification
  | work
  | destruct

namespace GilLoop

variable {I K V : Type} [DecidableEq I]

def init : GilLoop I K V where
  callbacks := fun _ => none
  changeQueue := []
  lock := .free
  shutdown := false
  threadLocalCopy := []
  worker := .contending
  notifications := 0
  destructor := .pending
  performed := []
  executed := []

/-- What a call does under the mutex. -/
def perform (s : GilLoop I K V) : Call I K V → GilLoop I K V
  | .feed id value =>
    match s.callbacks id with
    | none => { s with lock := .leaving false }
    | some callback =>
      { s with
        changeQueue := s.changeQueue.filter (·.id ≠ id) ++ [⟨id, callback, value⟩]
        lock := .leaving true }
  | .setHandler id callback =>
    { s with callbacks := Function.update s.callbacks id (some callback), lock := .leaving false }
  | .removeHandler id =>
    { s with callbacks := Function.update s.callbacks id none, lock := .leaving false }

end GilLoop

def Worker.woken : Worker → Worker
  | .blocked => .contending
  | worker => worker

namespace GilLoop

variable {I K V : Type}

def notifyAll (s : GilLoop I K V) : GilLoop I K V := { s with worker := s.worker.woken }

/-- The next step of `gilLoopProc`. -/
def work (s : GilLoop I K V) : Option (GilLoop I K V) :=
  match s.worker with
  | .contending =>
    match s.lock with
    | .free => some { s with lock := .worker, worker := .testing }
    | _ => none
  | .testing =>
    some { s with worker := if s.shutdown || !s.changeQueue.isEmpty then .met else .unmet }
  | .unmet => some { s with lock := .free, worker := .blocked }
  | .blocked => none
  | .met =>
    if s.shutdown then some { s with worker := .leaving false }
    else
      some { s with
        threadLocalCopy := s.changeQueue
        changeQueue := s.threadLocalCopy
        worker := .leaving true }
  | .leaving result =>
    some { s with lock := .free, worker := if result then .executing 0 else .finished }
  | .executing next =>
    match s.threadLocalCopy[next]? with
    | some item => some { s with executed := s.executed ++ [item], worker := .executing (next + 1) }
    | none => some { s with threadLocalCopy := [], worker := .contending }
  | .finished => none

/-- The next step of `~GilLoop`. -/
def destruct (s : GilLoop I K V) : Option (GilLoop I K V) :=
  match s.destructor with
  | .pending => some { s with shutdown := true, destructor := .flagged }
  | .flagged => some { s.notifyAll with destructor := .joining }
  | .joining => if s.worker = .finished then some { s with destructor := .joined } else none
  | .joined => none

def step [DecidableEq I] (s : GilLoop I K V) : Action I K V → Option (GilLoop I K V)
  | .call call =>
    match s.lock with
    | .free => some { s with lock := .call call }
    | _ => none
  | .perform =>
    match s.lock with
    | .call call => some { s.perform call with performed := s.performed ++ [call] }
    | _ => none
  | .unlock =>
    match s.lock with
    | .leaving notify =>
      some { s with lock := .free, notifications := s.notifications + notify.toNat }
    | _ => none
  | .notify =>
    if s.notifications = 0 then none
    else some { s.notifyAll with notifications := s.notifications - 1 }
  | .wake => if s.worker = .blocked then some s.notifyAll else none
  | .work => s.work
  | .destruct => s.destruct

/-- The destructor waits for the worker, the worker for a notification, and there is none to come. -/
structure Hung (s : GilLoop I K V) : Prop where
  joining : s.destructor = .joining
  blocked : s.worker = .blocked
  free : s.lock = .free
  silent : s.notifications = 0

end GilLoop

/-! ## What a step can do -/

namespace GilLoop

variable {I K V : Type} {s t : GilLoop I K V}

/-- The steps of the worker. -/
inductive Works (s : GilLoop I K V) : GilLoop I K V → Prop
  | lock (hworker : s.worker = .contending) (hlock : s.lock = .free) :
    Works s { s with lock := .worker, worker := .testing }
  | met (hworker : s.worker = .testing) (htrue : s.shutdown = true ∨ s.changeQueue ≠ []) :
    Works s { s with worker := .met }
  | unmet (hworker : s.worker = .testing) (hflag : s.shutdown = false) (hempty : s.changeQueue = []) :
    Works s { s with worker := .unmet }
  | block (hworker : s.worker = .unmet) : Works s { s with lock := .free, worker := .blocked }
  | refuse (hworker : s.worker = .met) (hflag : s.shutdown = true) :
    Works s { s with worker := .leaving false }
  | take (hworker : s.worker = .met) (hflag : s.shutdown = false) :
    Works s { s with
      threadLocalCopy := s.changeQueue
      changeQueue := s.threadLocalCopy
      worker := .leaving true }
  | leave (result : Bool) (hworker : s.worker = .leaving result) :
    Works s { s with lock := .free, worker := if result then .executing 0 else .finished }
  | execute (next : Nat) (item : QueueItem I K V) (hworker : s.worker = .executing next)
    (hitem : s.threadLocalCopy[next]? = some item) :
    Works s { s with executed := s.executed ++ [item], worker := .executing (next + 1) }
  | clear (next : Nat) (hworker : s.worker = .executing next)
    (hend : s.threadLocalCopy.length ≤ next) :
    Works s { s with threadLocalCopy := [], worker := .contending }

inductive Next [DecidableEq I] (s : GilLoop I K V) : GilLoop I K V → Prop
  | call (call : Call I K V) (hlock : s.lock = .free) : Next s { s with lock := .call call }
  | perform (call : Call I K V) (hlock : s.lock = .call call) :
    Next s { s.perform call with performed := s.performed ++ [call] }
  | unlock (notify : Bool) (hlock : s.lock = .leaving notify) :
    Next s { s with lock := .free, notifications := s.notifications + notify.toNat }
  | notify : Next s { s.notifyAll with notifications := s.notifications - 1 }
  | wake : Next s s.notifyAll
  | work {t : GilLoop I K V} (h : Works s t) : Next s t
  | flag (hdestructor : s.destructor = .pending) :
    Next s { s with shutdown := true, destructor := .flagged }
  | announce (hdestructor : s.destructor = .flagged) :
    Next s { s.notifyAll with destructor := .joining }
  | join (hdestructor : s.destructor = .joining) (hworker : s.worker = .finished) :
    Next s { s with destructor := .joined }

private theorem works_of_work (h : s.work = some t) : Works s t := by
  rw [work] at h
  cases hworker : s.worker with
  | contending =>
    cases hlock : s.lock <;> simp only [hworker, hlock, Option.some.injEq, reduceCtorEq] at h
    exact h ▸ .lock hworker hlock
  | testing =>
    simp only [hworker, Option.some.injEq] at h
    subst h
    by_cases hpredicate : (s.shutdown || !s.changeQueue.isEmpty) = true
    · rw [if_pos hpredicate]
      exact .met hworker (by simpa using hpredicate)
    · rw [if_neg hpredicate]
      obtain ⟨hflag, hempty⟩ : s.shutdown = false ∧ s.changeQueue = [] := by simpa using hpredicate
      exact .unmet hworker hflag hempty
  | unmet =>
    simp only [hworker, Option.some.injEq] at h
    exact h ▸ .block hworker
  | blocked | finished => simp only [hworker, reduceCtorEq] at h
  | met =>
    simp only [hworker] at h
    split at h
    · next hflag =>
      cases h
      exact .refuse hworker hflag
    · next hflag =>
      cases h
      exact .take hworker (Bool.not_eq_true _ ▸ hflag)
  | leaving result =>
    simp only [hworker, Option.some.injEq] at h
    exact h ▸ .leave result hworker
  | executing next =>
    simp only [hworker] at h
    split at h
    · next item hitem =>
      cases h
      exact .execute next item hworker hitem
    · next hend =>
      cases h
      exact .clear next hworker (List.getElem?_eq_none_iff.mp hend)

/-- The steps of the object, one by one. -/
theorem next_of_step [DecidableEq I] {action : Action I K V} (h : s.step action = some t) :
    Next s t := by
  cases action with
  | call call =>
    cases hlock : s.lock <;> simp only [step, hlock, Option.some.injEq, reduceCtorEq] at h
    exact h ▸ .call call hlock
  | perform =>
    cases hlock : s.lock <;> simp only [step, hlock, Option.some.injEq, reduceCtorEq] at h
    exact h ▸ .perform _ hlock
  | unlock =>
    cases hlock : s.lock <;> simp only [step, hlock, Option.some.injEq, reduceCtorEq] at h
    exact h ▸ .unlock _ hlock
  | notify =>
    obtain ⟨-, h⟩ := Option.ite_none_left_eq_some.mp h
    exact Option.some.inj h ▸ .notify
  | wake =>
    obtain ⟨-, h⟩ := Option.ite_none_right_eq_some.mp h
    exact Option.some.inj h ▸ .wake
  | work => exact .work (works_of_work h)
  | destruct =>
    cases hdestructor : s.destructor with
    | pending =>
      simp only [step, destruct, hdestructor, Option.some.injEq] at h
      exact h ▸ .flag hdestructor
    | flagged =>
      simp only [step, destruct, hdestructor, Option.some.injEq] at h
      exact h ▸ .announce hdestructor
    | joining =>
      simp only [step, destruct, hdestructor] at h
      obtain ⟨hworker, h⟩ := Option.ite_none_right_eq_some.mp h
      exact Option.some.inj h ▸ .join hdestructor hworker
    | joined => simp only [step, destruct, hdestructor, reduceCtorEq] at h

end GilLoop

/-! ## The mutex and the flag -/

/-- The worker is where it has the mutex. -/
def Worker.owns : Worker → Bool
  | .testing | .unmet | .met | .leaving _ => true
  | .contending | .blocked | .executing _ | .finished => false

/-- The worker has found that there is nothing to do. -/
def Worker.waits : Worker → Bool
  | .unmet | .blocked => true
  | .contending | .testing | .met | .leaving _ | .executing _ | .finished => false

@[simp] theorem Worker.owns_woken (worker : Worker) : worker.woken.owns = worker.owns := by
  cases worker <;> rfl

theorem Worker.waits_woken {worker : Worker} (h : worker ≠ .unmet) : worker.woken.waits = false := by
  cases worker <;> first | rfl | exact absurd rfl h

def Lock.ofWorker {I K V : Type} : Lock I K V → Bool
  | .worker => true
  | .free | .call _ | .leaving _ => false

namespace GilLoop

variable {I K V : Type} {s t : GilLoop I K V}

/-- The mutex is the worker's exactly where the worker thinks so, and the flag is set before anything
else that the destructor does. -/
structure Inv (s : GilLoop I K V) : Prop where
  owns : s.worker.owns = s.lock.ofWorker
  flag : s.destructor ≠ .pending → s.shutdown = true

private theorem inv_init : Inv (init : GilLoop I K V) := ⟨rfl, fun h => absurd rfl h⟩

theorem Inv.notifyAll (h : s.Inv) : s.notifyAll.Inv := ⟨(s.worker.owns_woken).trans h.owns, h.flag⟩

private theorem Inv.work (h : s.Inv) (hworks : Works s t) : t.Inv := by
  obtain ⟨howns, hflag⟩ := h
  cases hworks with
  | lock hworker hlock => exact ⟨rfl, hflag⟩
  -- between these the mutex is kept
  | met hworker | unmet hworker | refuse hworker | take hworker =>
    rw [hworker] at howns
    exact ⟨howns, hflag⟩
  | block hworker => exact ⟨rfl, hflag⟩
  | leave result hworker => cases result <;> exact ⟨rfl, hflag⟩
  | execute next item hworker hitem | clear next hworker hend =>
    rw [hworker] at howns
    exact ⟨howns, hflag⟩

/-- A call does its work under the mutex. -/
theorem Inv.perform [DecidableEq I] (h : s.Inv) {call : Call I K V} (hlock : s.lock = .call call) :
    (s.perform call).Inv := by
  obtain ⟨howns, hflag⟩ := h
  rw [hlock] at howns
  cases call with
  | feed id value =>
    rw [GilLoop.perform]
    split <;> exact ⟨howns, hflag⟩
  | setHandler id callback => exact ⟨howns, hflag⟩
  | removeHandler id => exact ⟨howns, hflag⟩

private theorem Inv.next [DecidableEq I] (h : s.Inv) (hnext : Next s t) : t.Inv := by
  cases hnext with
  | call call hlock | unlock notify hlock =>
    have howns := h.owns
    rw [hlock] at howns
    exact ⟨howns, h.flag⟩
  | perform call hlock => exact ⟨(h.perform hlock).owns, (h.perform hlock).flag⟩
  | notify | wake => exact ⟨h.notifyAll.owns, h.flag⟩
  | work hworks => exact h.work hworks
  | flag hdestructor => exact ⟨h.owns, fun _ => rfl⟩
  | announce hdestructor =>
    exact ⟨h.notifyAll.owns, fun _ => h.flag (by rw [hdestructor]; decide)⟩
  | join hdestructor hworker => exact ⟨h.owns, fun _ => h.flag (by rw [hdestructor]; decide)⟩

/-- Every reachable state satisfies the invariant. -/
theorem inv_of_run [DecidableEq I] {as : List (Action I K V)} (hrun : run step init as = some s) :
    s.Inv :=
  run_invariant (fun h hstep => h.next (next_of_step hstep)) inv_init hrun

/-! ## Shutting down -/

/-- The flag is set, and the worker has not decided to wait. -/
structure Leaves (s : GilLoop I K V) : Prop where
  flag : s.shutdown = true
  awake : s.worker.waits = false

/-- A call concerns neither the flag nor the worker. -/
theorem Leaves.perform [DecidableEq I] (h : s.Leaves) (call : Call I K V) : (s.perform call).Leaves := by
  obtain ⟨hflag, hawake⟩ := h
  cases call with
  | feed id value =>
    rw [GilLoop.perform]
    split <;> exact ⟨hflag, hawake⟩
  | setHandler id callback => exact ⟨hflag, hawake⟩
  | removeHandler id => exact ⟨hflag, hawake⟩

private theorem Leaves.work (h : s.Leaves) (hworks : Works s t) : t.Leaves := by
  obtain ⟨hflag, hawake⟩ := h
  cases hworks with
  -- the predicate is true now
  | unmet hworker hclear => exact absurd (hclear.symm.trans hflag) (by decide)
  | block hworker =>
    rw [hworker] at hawake
    exact absurd hawake (by decide)
  | leave result hworker => cases result <;> exact ⟨hflag, rfl⟩
  | lock | met | refuse | take | execute | clear => exact ⟨hflag, rfl⟩

/-- The worker does not decide to wait any more. -/
theorem Leaves.next [DecidableEq I] (h : s.Leaves) (hnext : Next s t) : t.Leaves := by
  have hwoken : s.worker.woken.waits = false := by
    refine Worker.waits_woken fun hunmet => ?_
    have hawake := h.awake
    rw [hunmet] at hawake
    exact absurd hawake (by decide)
  cases hnext with
  | call call hlock | unlock notify hlock => exact ⟨h.flag, h.awake⟩
  | perform call hlock => exact ⟨(h.perform call).flag, (h.perform call).awake⟩
  | notify | wake => exact ⟨h.flag, hwoken⟩
  | work hworks => exact h.work hworks
  | flag hdestructor => exact ⟨rfl, h.awake⟩
  | announce hdestructor => exact ⟨h.flag, hwoken⟩
  | join hdestructor hworker => exact ⟨h.flag, h.awake⟩

/-- If the worker is about to be blocked, all that is left to notify can do so before. -/
theorem exists_hung [DecidableEq I] (hdestructor : s.destructor = .joining)
    (hworker : s.worker = .unmet) :
    ∃ as t, run step s as = some t ∧ t.Hung := by
  generalize hcount : s.notifications = count
  induction count generalizing s with
  | zero =>
    refine ⟨[.work], { s with lock := .free, worker := .blocked }, ?_, hdestructor, rfl, rfl, hcount⟩
    rw [run_cons_eq_some]
    exact ⟨_, by rw [step, work, hworker], rfl⟩
  | succ count ih =>
    -- a notification is lost on a worker that is not blocked yet
    have hnotify : s.step .notify = some { s.notifyAll with notifications := count } := by
      rw [step, if_neg (by omega), hcount, Nat.add_sub_cancel]
    obtain ⟨as, t, hrun, hhung⟩ := ih (s := { s.notifyAll with notifications := count }) hdestructor
      (by show s.worker.woken = _; rw [hworker]; rfl) rfl
    exact ⟨.notify :: as, t, run_cons_eq_some.mpr ⟨_, hnotify, hrun⟩, hhung⟩

/-- After the destructor has notified, the worker can be left waiting for ever exactly if it was then
about to be blocked: it had evaluated its predicate before the flag was set. -/
theorem exists_hung_iff [DecidableEq I] {as : List (Action I K V)} (hrun : run step init as = some s)
    (hflagged : s.destructor = .flagged) :
    (∃ bs t, run step s (.destruct :: bs) = some t ∧ t.Hung) ↔ s.worker = .unmet := by
  have hinv := inv_of_run hrun
  have hnotify : s.step .destruct = some { s.notifyAll with destructor := .joining } := by
    rw [step, destruct, hflagged]
  constructor
  · rintro ⟨bs, t, hbs, hhung⟩
    by_contra hunmet
    obtain ⟨u, hu, hrest⟩ := run_cons_eq_some.mp hbs
    obtain rfl := Option.some.inj (hnotify.symm.trans hu)
    -- a worker that was not about to be blocked has been woken, and looks at the flag again
    have hleaves : Leaves { s.notifyAll with destructor := .joining } :=
      ⟨hinv.flag (by rw [hflagged]; decide), Worker.waits_woken hunmet⟩
    have hawake := (run_invariant (fun h hstep => h.next (next_of_step hstep)) hleaves hrest).awake
    rw [hhung.blocked] at hawake
    exact absurd hawake (by decide)
  · intro hunmet
    obtain ⟨bs, t, hbs, hhung⟩ := exists_hung
      (s := { s.notifyAll with destructor := .joining }) rfl
      (by show s.worker.woken = _; rw [hunmet]; rfl)
    exact ⟨bs, t, run_cons_eq_some.mpr ⟨_, hnotify, hbs⟩, hhung⟩

/-- The worker executes a change and is blocked again when the flag is set. -/
def blockedAgain : List (Action Nat Nat Nat) :=
  [.call (.setHandler 1 7), .perform, .unlock, .call (.feed 1 10), .perform, .unlock, .work, .work,
    .work, .work, .work, .work, .work, .work, .work, .destruct]

theorem not_exists_hung_blocked : ∃ s : GilLoop Nat Nat Nat, run step init blockedAgain = some s ∧
    ((∃ bs t, run step s (.destruct :: bs) = some t ∧ t.Hung) ↔ s.worker = .unmet) ∧
    s.worker = .blocked ∧ s.executed = [⟨1, 7, 10⟩] :=
  ⟨_, rfl, exists_hung_iff (show run step init blockedAgain = some _ from rfl) rfl, rfl, rfl⟩

/-- The worker looks at the flag, the destructor sets it and notifies, and the worker is blocked. -/
theorem hung_lost_wakeup : ∃ s : GilLoop Nat Nat Nat,
    run step init [.work, .work, .destruct, .destruct, .work] = some s ∧ s.Hung :=
  ⟨_, rfl, rfl, rfl, rfl, rfl⟩

end GilLoop

end TweakTool.Py
