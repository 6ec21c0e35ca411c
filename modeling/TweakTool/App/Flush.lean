import TweakTool.App.Queue

/-! # Flushing the queue

`tweak_app_flush_queue` waits until the array being filled is empty. The worker of a context pulls the
array and executes its jobs one after another (`io_loop`), so an empty array says that nothing is left
to be pulled, not that everything has been executed.

Every push has a number here, its ticket, and a job in an array has the ticket of the push that has put
it there. No step of the code depends on tickets. -/

namespace TweakTool.App.Queue

open TweakTool.Lib

structure Ticketed (J : Type) where
  job : J
  ticket : Nat
  deriving DecidableEq

/-- How far `io_loop` has come. -/
inductive Worker (J : Type) where
  | pulling -- in `tweak_app_queue_pull`
  | looping (jobArray : Fin 2) (ix : Nat) -- at the test of the loop over the batch
  | executing (jobArray : Fin 2) (ix : Nat) (job : Ticketed J) -- in `job_proc`
  | ended

def Worker.jobArray? {J : Type} : Worker J → Option (Fin 2)
  | .pulling | .ended => none
  | .looping jobArray _ | .executing jobArray _ _ => some jobArray

/-- A push that has returned, with the array being filled when it began. -/
structure Returned (J : Type) where
  job : Ticketed J
  pending : List (Ticketed J)

/-- What has to be executed: the job itself, or an equal one that was pending when it was pushed. -/
def Returned.Stands {J : Type} (r : Returned J) (job : Ticketed J) : Prop :=
  job = r.job ∨ job ∈ r.pending ∧ job.job = r.job.job

instance {J : Type} [DecidableEq J] (r : Returned J) (job : Ticketed J) : Decidable (r.Stands job) :=
  inferInstanceAs (Decidable (_ ∨ _))

/-- A call of `tweak_app_flush_queue` that has returned before the queue was stopped. -/
structure Flushed (J : Type) where
  expected : List (Returned J) -- the pushes that had returned when it was called
  completed : List (Ticketed J) -- the jobs that had been executed when it returned

/-- A context with its queue and its worker, any number of producers and of calls of
`tweak_app_flush_queue`. -/
structure Flushing (J : Type) where
  queue : JobQueue (Ticketed J)
  nextTicket : Nat
  blocked : List (BlockedPush (Ticketed J))
  returned : List (Returned J)
  worker : Worker J
  completed : List (Ticketed J)
  /-- The calls that have not returned yet, each with the pushes that it is expected to wait for. -/
  flushes : List (List (Returned J))
  flushed : List (Flushed J)

namespace Flushing

variable {J : Type}

def create (maxSize : Nat) : Flushing J where
  queue := JobQueue.create maxSize
  nextTicket := 0
  blocked := []
  returned := []
  worker := .pulling
  completed := []
  flushes := []
  flushed := []

inductive Action (J : Type) where
  | push (job : J)
  | resume (i : Nat) -- the waiting push number `i` is woken and takes the mutex
  | worker
  | stop
  | flush -- `tweak_app_flush_queue` is called
  | waitEmpty (i : Nat) -- the call number `i` has the mutex, for the first time or after a wait

def workerStep (s : Flushing J) : Option (Flushing J) :=
  match s.worker with
  | .pulling =>
    match tweakAppQueuePull s.queue with
    | none => none
    | some (none, q) => some { s with queue := q, worker := .ended }
    | some (some jobArray, q) => some { s with queue := q, worker := .looping jobArray 0 }
  | .looping jobArray ix =>
    -- `size` is read again in every iteration
    match (s.queue.arrays jobArray)[ix]? with
    | none => some { s with worker := .pulling }
    | some job => some { s with worker := .executing jobArray ix job }
  | .executing jobArray ix job =>
    some { s with worker := .looping jobArray (ix + 1), completed := s.completed ++ [job] }
  | .ended => none

/-- The job that is equal to the new one; the search begins with the last job. -/
def present [DecidableEq J] (q : JobQueue (Ticketed J)) (job : J) : Option (Ticketed J) :=
  q.filling.reverse.find? (·.job = job)

def step [DecidableEq J] (s : Flushing J) : Action J → Option (Flushing J)
  | .push job =>
    let s₁ := { s with nextTicket := s.nextTicket + 1 }
    let job : Ticketed J := ⟨job, s.nextTicket⟩
    match present s.queue job.job with
    | some _ => some { s₁ with returned := s.returned ++ [⟨job, s.queue.filling⟩] }
    | none =>
      match pushLoop s.queue s.queue.currentArray job with
      | .appended q =>
        some { s₁ with queue := q, returned := s.returned ++ [⟨job, s.queue.filling⟩] }
      | .wait jobArray =>
        some { s₁ with blocked := s.blocked ++ [⟨job, jobArray, s.queue.filling⟩] }
      | .itemPresent => none
  | .resume i =>
    match s.blocked[i]? with
    | none => none
    | some b =>
      match pushLoop s.queue b.jobArray b.job with
      | .appended q =>
        some { s with
          queue := q
          blocked := s.blocked.eraseIdx i
          returned := s.returned ++ [⟨b.job, b.pending⟩] }
      | .wait _ | .itemPresent => some s
  | .worker => s.workerStep
  | .stop => some { s with queue := tweakAppQueueStop s.queue }
  | .flush => some { s with flushes := s.flushes ++ [s.returned] }
  | .waitEmpty i =>
    match s.flushes[i]? with
    | none => none
    | some expected =>
      if s.queue.filling = [] then
        some { s with
          flushes := s.flushes.eraseIdx i
          flushed :=
            if s.queue.isStopped then s.flushed else s.flushed ++ [⟨expected, s.completed⟩] }
      else some s

/-- What was pushed before the call has been executed when it returns, or an equal job that was
pending has. -/
def FlushWaits (s : Flushing J) : Prop :=
  ∀ f ∈ s.flushed, ∀ r ∈ f.expected, ∃ job ∈ f.completed, r.Stands job

/-- What is left of the batch that the worker has pulled. -/
def remaining (s : Flushing J) : List (Ticketed J) :=
  match s.worker with
  | .pulling | .ended => []
  | .looping jobArray ix => (s.queue.arrays jobArray).drop ix
  | .executing jobArray ix job => job :: (s.queue.arrays jobArray).drop (ix + 1)

/-- A push that goes on after a wait still has the array being filled. When a flush finds this array
empty, no job that was pushed before the call is in what is left of the worker's batch. -/
def Careful (s : Flushing J) : Action J → Prop
  | .resume i =>
    match s.blocked[i]? with
    | none => True
    | some b => s.queue.isFull = false → b.jobArray = s.queue.currentArray
  | .waitEmpty i =>
    match s.flushes[i]? with
    | none => True
    | some expected =>
      s.queue.filling.isEmpty = true → ∀ r ∈ expected, ∀ job ∈ s.remaining, ¬ r.Stands job
  | .push _ | .worker | .stop | .flush => True

instance [DecidableEq J] (s : Flushing J) : (a : Action J) → Decidable (s.Careful a)
  | .resume i =>
    match h : s.blocked[i]? with
    | none => .isTrue (by simp [Careful, h])
    | some b =>
      decidable_of_iff (s.queue.isFull = false → b.jobArray = s.queue.currentArray)
        (by simp [Careful, h])
  | .waitEmpty i =>
    match h : s.flushes[i]? with
    | none => .isTrue (by simp [Careful, h])
    | some expected =>
      decidable_of_iff
        (s.queue.filling.isEmpty = true → ∀ r ∈ expected, ∀ job ∈ s.remaining, ¬ r.Stands job)
        (by simp only [Careful, h])
  | .push _ | .worker | .stop | .flush => .isTrue trivial

/-! ## Where the jobs are -/

/-- The job has been executed, is in the worker's batch or is going to be pulled. -/
def Holds (s : Flushing J) (job : Ticketed J) : Prop :=
  job ∈ s.completed ∨ job ∈ s.remaining ∨ job ∈ s.queue.filling

/-- So has a job that the push stands for. -/
def Accounted (s : Flushing J) (r : Returned J) : Prop := ∃ job, r.Stands job ∧ s.Holds job

structure Inv (s : Flushing J) : Prop where
  accounted : s.queue.isStopped = false → ∀ r ∈ s.returned, s.Accounted r
  /-- Producers do not fill the array that the worker has pulled. -/
  aside : ∀ jobArray, s.worker.jobArray? = some jobArray → jobArray ≠ s.queue.currentArray
  expected : ∀ expected ∈ s.flushes, ∀ r ∈ expected, r ∈ s.returned
  waits : s.FlushWaits

variable {s s' : Flushing J}

private theorem inv_create (maxSize : Nat) : (create maxSize : Flushing J).Inv where
  accounted := by
    rintro _ _ ⟨⟩
  aside := by
    rintro _ ⟨⟩
  expected := by
    rintro _ ⟨⟩
  waits := by
    rintro _ ⟨⟩

/-- What is left of the batch depends on the worker and on its array only. -/
theorem remaining_congr (hworker : s'.worker = s.worker)
    (harray : ∀ jobArray, s.worker.jobArray? = some jobArray →
      s'.queue.arrays jobArray = s.queue.arrays jobArray) : s'.remaining = s.remaining := by
  rw [remaining, remaining, hworker]
  cases hthread : s.worker with
  | pulling | ended => rfl
  | looping jobArray ix | executing jobArray ix job =>
    dsimp only
    rw [harray jobArray (by rw [hthread]; rfl)]

theorem remaining_looping {jobArray : Fin 2} {ix : Nat} (h : s.worker = .looping jobArray ix) :
    s.remaining = (s.queue.arrays jobArray).drop ix := by
  rw [remaining, h]

/-- A step that loses no job leaves every push accounted for. -/
theorem Inv.accounted_of (h : s.Inv) (hrunning : s.queue.isStopped = false)
    (hholds : ∀ job, s.Holds job → s'.Holds job) {r : Returned J} (hr : r ∈ s.returned) :
    s'.Accounted r := by
  obtain ⟨job, hstands, hjob⟩ := h.accounted hrunning r hr
  exact ⟨job, hstands, hholds job hjob⟩

/-- A push returns and has put its job into the array being filled. -/
theorem Inv.append (h : s.Inv) (job : Ticketed J) (pending : List (Ticketed J)) (nextTicket : Nat)
    (blocked : List (BlockedPush (Ticketed J))) :
    Inv { s with
      queue := s.queue.append s.queue.currentArray job
      nextTicket := nextTicket
      blocked := blocked
      returned := s.returned ++ [⟨job, pending⟩] } := by
  have hleft : remaining { s with
      queue := s.queue.append s.queue.currentArray job
      nextTicket := nextTicket
      blocked := blocked
      returned := s.returned ++ [⟨job, pending⟩] } = s.remaining :=
    remaining_congr rfl fun jobArray hworker =>
      JobQueue.append_arrays_of_ne _ _ (h.aside jobArray hworker)
  refine ⟨fun hrunning r hr => ?_, h.aside, fun expected hexpected r hr => ?_, h.waits⟩
  · rcases List.mem_append.mp hr with hr | hr
    · refine h.accounted_of hrunning (fun job' hjob' => ?_) hr
      rw [Holds, hleft]
      dsimp only
      rw [JobQueue.filling_append_current]
      exact hjob'.imp_right fun hjob' => hjob'.imp_right (List.mem_append_left _)
    · rw [List.mem_singleton.mp hr]
      refine ⟨job, .inl rfl, .inr (.inr ?_)⟩
      dsimp only
      rw [JobQueue.filling_append_current]
      exact List.mem_append_right _ (List.mem_singleton.mpr rfl)
  · exact List.mem_append_left _ (h.expected expected hexpected r hr)

/-- A push returns, or waits for room. -/
theorem Inv.push [DecidableEq J] (h : s.Inv) {job : J} (hstep : s.step (.push job) = some s') :
    s'.Inv := by
  simp only [step] at hstep
  cases hpresent : present s.queue job with
  | some pending =>
    simp only [hpresent, Option.some.injEq] at hstep
    subst hstep
    refine ⟨fun hrunning r hr => ?_, h.aside, fun expected hexpected r hr => ?_, h.waits⟩
    · rcases List.mem_append.mp hr with hr | hr
      · exact h.accounted hrunning r hr
      · -- the equal job is in the array being filled
        have hmem : pending ∈ s.queue.filling :=
          List.mem_reverse.mp (List.mem_of_find?_eq_some hpresent)
        have hequal : pending.job = job := by
          have hfound := List.find?_some hpresent
          exact of_decide_eq_true hfound
        rw [List.mem_singleton.mp hr]
        exact ⟨pending, .inr ⟨hmem, hequal⟩, .inr (.inr hmem)⟩
    · exact List.mem_append_left _ (h.expected expected hexpected r hr)
  | none =>
    cases hfull : s.queue.isFull with
    | true =>
      simp only [hpresent, pushLoop_of_full _ _ hfull, Option.some.injEq] at hstep
      subst hstep
      exact ⟨h.accounted, h.aside, h.expected, h.waits⟩
    | false =>
      simp only [hpresent, pushLoop_of_free _ _ hfull, Option.some.injEq] at hstep
      subst hstep
      exact h.append ⟨job, s.nextTicket⟩ _ _ _

private theorem Inv.resume [DecidableEq J] (h : s.Inv) {i : Nat} (hcareful : s.Careful (.resume i))
    (hstep : s.step (.resume i) = some s') : s'.Inv := by
  simp only [step] at hstep
  cases hget : s.blocked[i]? with
  | none => simp only [hget, reduceCtorEq] at hstep
  | some b =>
    cases hfull : s.queue.isFull with
    | true =>
      simp only [hget, pushLoop_of_full _ _ hfull, Option.some.injEq] at hstep
      exact hstep ▸ h
    | false =>
      have hcurrent : b.jobArray = s.queue.currentArray := by
        simp only [Careful, hget] at hcareful
        exact hcareful hfull
      simp only [hget, pushLoop_of_free _ _ hfull, hcurrent, Option.some.injEq] at hstep
      subst hstep
      exact h.append b.job _ _ _

/-- The worker is told that the queue has been stopped. -/
theorem Inv.pullStopped (h : s.Inv) {q : JobQueue (Ticketed J)}
    (hpull : tweakAppQueuePull s.queue = some (none, q)) :
    Inv { s with queue := q, worker := .ended } := by
  have hstopped : q.isStopped = true := by
    rw [tweakAppQueuePull] at hpull
    split at hpull
    · cases hpull
    · cases hrunning : s.queue.isStopped with
      | true =>
        simp only [hrunning, if_true, Option.some.injEq, Prod.mk.injEq, true_and] at hpull
        rw [← hpull]
      | false => simp [hrunning] at hpull
  refine ⟨fun hrunning => ?_, (by rintro _ ⟨⟩), h.expected, h.waits⟩
  cases hrunning.symm.trans hstopped

/-- All that was pending is the batch now. -/
theorem Inv.pull (h : s.Inv) (hworker : s.worker = .pulling) {jobArray : Fin 2}
    {q : JobQueue (Ticketed J)} (hpull : tweakAppQueuePull s.queue = some (some jobArray, q)) :
    Inv { s with queue := q, worker := .looping jobArray 0 } := by
  have hrunning : s.queue.isStopped = false := by
    rw [tweakAppQueuePull] at hpull
    split at hpull
    · cases hpull
    · cases hrunning : s.queue.isStopped with
      | true => simp [hrunning] at hpull
      | false => rfl
  obtain ⟨harray, hcurrent, hbatch⟩ := tweakAppQueuePull_running hrunning hpull
  cases harray
  refine ⟨fun _ r hr => h.accounted_of hrunning ?_ hr, fun i hi => ?_, h.expected, h.waits⟩
  · rintro job (hdone | hleft | hpending)
    · exact .inl hdone
    · rw [remaining, hworker] at hleft
      cases hleft
    · refine .inr (.inl ?_)
      rw [remaining]
      dsimp only
      rw [hbatch]
      exact hpending
  · cases hi
    show s.queue.currentArray ≠ q.currentArray
    rw [hcurrent]
    exact ne_add_one _

private theorem Inv.workerStep (h : s.Inv) (hstep : s.workerStep = some s') : s'.Inv := by
  rw [Flushing.workerStep] at hstep
  split at hstep
  · next hworker =>
      split at hstep
      · cases hstep
      · next hpull =>
          cases hstep
          exact h.pullStopped hpull
      · next hpull =>
          cases hstep
          exact h.pull hworker hpull
  · next jobArray ix hworker =>
      have haside := h.aside jobArray (by rw [hworker]; rfl)
      split at hstep
      · next hend =>
          -- the batch is done
          cases hstep
          refine ⟨fun hrunning r hr => h.accounted_of hrunning ?_ hr, (by rintro _ ⟨⟩), h.expected,
            h.waits⟩
          rintro job (hdone | hleft | hpending)
          · exact .inl hdone
          · rw [remaining_looping hworker,
              List.drop_eq_nil_of_le (List.getElem?_eq_none_iff.mp hend)] at hleft
            cases hleft
          · exact .inr (.inr hpending)
      · next job hjob =>
          cases hstep
          refine ⟨fun hrunning r hr => h.accounted_of hrunning ?_ hr, ?_, h.expected, h.waits⟩
          · have hdrop : (s.queue.arrays jobArray).drop ix =
                job :: (s.queue.arrays jobArray).drop (ix + 1) := by
              rw [List.drop_eq_getElem?_toList_append, hjob]
              rfl
            rintro job' (hdone | hleft | hpending)
            · exact .inl hdone
            · rw [remaining_looping hworker, hdrop] at hleft
              exact .inr (.inl hleft)
            · exact .inr (.inr hpending)
          · rintro _ ⟨⟩
            exact haside
  · next jobArray ix job hworker =>
      cases hstep
      refine ⟨fun hrunning r hr => h.accounted_of hrunning ?_ hr, ?_, h.expected, h.waits⟩
      · rintro job' (hdone | hleft | hpending)
        · exact .inl (List.mem_append_left _ hdone)
        · rw [remaining, hworker] at hleft
          rcases List.mem_cons.mp hleft with rfl | hleft
          · exact .inl (List.mem_append_right _ (List.mem_singleton.mpr rfl))
          · exact .inr (.inl hleft)
        · exact .inr (.inr hpending)
      · rintro _ ⟨⟩
        exact h.aside jobArray (by rw [hworker]; rfl)
  · cases hstep

/-- A flush returns when there is nothing left of what it waits for. -/
theorem Inv.waitEmpty [DecidableEq J] (h : s.Inv) {i : Nat} (hcareful : s.Careful (.waitEmpty i))
    (hstep : s.step (.waitEmpty i) = some s') : s'.Inv := by
  simp only [step] at hstep
  cases hget : s.flushes[i]? with
  | none => simp only [hget, reduceCtorEq] at hstep
  | some expected =>
    simp only [hget] at hstep
    split at hstep
    · next hempty =>
        cases hstep
        refine ⟨h.accounted, h.aside, ?_, ?_⟩
        · intro expected' hexpected'
          exact h.expected expected' (List.mem_of_mem_eraseIdx hexpected')
        · intro f hf
          cases hrunning : s.queue.isStopped with
          | true =>
            simp only [hrunning, if_true] at hf
            exact h.waits f hf
          | false =>
            simp only [hrunning, Bool.false_eq_true, if_false] at hf
            rcases List.mem_append.mp hf with hf | hf
            · exact h.waits f hf
            · rw [List.mem_singleton.mp hf]
              intro r hr
              have hreturned := h.expected expected (List.mem_of_getElem? hget) r hr
              simp only [Careful, hget, hempty, List.isEmpty_nil, true_implies] at hcareful
              obtain ⟨job, hstands, hdone | hleft | hpending⟩ :=
                h.accounted hrunning r hreturned
              · exact ⟨job, hdone, hstands⟩
              · exact absurd hstands (hcareful r hr job hleft) -- excluded by `Careful`
              · rw [hempty] at hpending -- the array is empty
                cases hpending
    · cases hstep
      exact h

private theorem inv_step [DecidableEq J] {a : Action J} (h : s.Inv) (hcareful : s.Careful a)
    (hstep : s.step a = some s') : s'.Inv := by
  cases a with
  | push job => exact h.push hstep
  | resume i => exact h.resume hcareful hstep
  | worker => exact h.workerStep hstep
  | stop =>
    cases hstep
    exact ⟨(by rintro ⟨⟩), h.aside, h.expected, h.waits⟩
  | flush =>
    cases hstep
    refine ⟨h.accounted, h.aside, fun expected hexpected => ?_, h.waits⟩
    rcases List.mem_append.mp hexpected with hexpected | hexpected
    · exact h.expected expected hexpected
    · rw [List.mem_singleton.mp hexpected]
      exact fun r hr => hr
  | waitEmpty i => exact h.waitEmpty hcareful hstep

/-- A flush waits for all that was pushed before it. -/
theorem flush_waits [DecidableEq J] (maxSize : Nat) (as : List (Action J))
    (h : Along step Careful (create maxSize) as) :
    Throughout step FlushWaits (create maxSize) as :=
  throughout_invariant_along (P := Inv) inv_step Inv.waits (inv_create maxSize) h

/-- Two jobs are pushed, one of them twice, and the flush comes back after both have been executed. -/
theorem flush_waits_twoJobs :
    Throughout step FlushWaits (create 2)
      [.push 'a', .push 'b', .push 'b', .flush, .waitEmpty 0, .worker, .worker, .worker, .worker,
        .worker, .waitEmpty 0] :=
  flush_waits 2 _ (by decide +kernel)

/-- The flush comes when the job has been pulled and not yet executed. -/
theorem flush_returns_early :
    ∃ s, run step (create 1) [.push 'a', .worker, .flush, .waitEmpty 0] = some s ∧ ¬ s.FlushWaits := by
  refine ⟨_, rfl, fun h => ?_⟩
  obtain ⟨_, hcompleted, _⟩ := h ⟨[⟨⟨'a', 0⟩, []⟩], []⟩ (List.mem_singleton.mpr rfl) _
    (List.mem_singleton.mpr rfl)
  cases hcompleted

end Flushing

end TweakTool.App.Queue
