import TweakTool.Lib.Run
import TweakTool.Common.Variant

/-! # The job queue

`tweakappqueue.c`: the queue between the threads that request work and the worker thread that
does it. Two job arrays take turns: producers fill `arrays[current_array]`, `tweak_app_queue_pull`
hands that array to the worker and directs the producers to the other one.

Every function runs under the queue's mutex, which it gives up only inside
`tweak_common_cond_wait`. A step is therefore one such section. A push whose array is full waits
in the middle of its body, and what it remembers across the wait is the *pointer* `job_array` it
took on entry — not the index of the array being filled when it goes on. -/

namespace TweakTool.App.Queue

open TweakTool.Lib

/-- `struct job`. Two jobs are equal if all three fields are. -/
structure Job (P C : Type) where
  jobProc : P
  tweakId : TweakId
  cookie : C
  deriving DecidableEq

/-- `struct job_queue`. An array is listed up to its `size`, so that `size = 0` is `[]`; the
storage behind it (`capacity`, `realloc`) is not modelled. -/
structure JobQueue (J : Type) where
  currentArray : Fin 2
  arrays : Fin 2 → List J
  maxSize : Nat
  isStopped : Bool

variable {J : Type}

namespace JobQueue

def create (maxSize : Nat) : JobQueue J where
  currentArray := 0
  arrays := fun _ => []
  maxSize := maxSize
  isStopped := false

/-- `arrays[current_array]`, the array the producers are filling. -/
def filling (q : JobQueue J) : List J := q.arrays q.currentArray

/-- The test of the waiting loop of `tweak_app_queue_push`. -/
def isFull (q : JobQueue J) : Bool := decide (q.maxSize ≤ q.filling.length)

/-- `job_array->jobs[job_array->size] = *job; ++job_array->size`. -/
def append (q : JobQueue J) (jobArray : Fin 2) (job : J) : JobQueue J :=
  { q with arrays := Function.update q.arrays jobArray (q.arrays jobArray ++ [job]) }

end JobQueue

/-! ## The sections of the functions -/

/-- How a section of `tweak_app_queue_push` ends. -/
inductive PushResult (J : Type) where
  | itemPresent -- an equal job is already in the array: nothing is appended and the call returns
  | appended (q : JobQueue J) -- the job has been appended and the call returns
  /-- The array being filled is full: the call waits, keeping its `job_array`. -/
  | wait (jobArray : Fin 2)

/-- The waiting loop of `tweak_app_queue_push` and what follows it, for a call that holds
`jobArray`: entered after the search for an equal job, and again on every wake-up. -/
def pushLoop (q : JobQueue J) (jobArray : Fin 2) (job : J) : PushResult J :=
  if q.isFull then .wait jobArray else .appended (q.append jobArray job)

/-- `tweak_app_queue_push` up to its return or its first wait. -/
def tweakAppQueuePush [DecidableEq J] (q : JobQueue J) (job : J) : PushResult J :=
  if job ∈ q.arrays q.currentArray then .itemPresent else pushLoop q q.currentArray job

/-- `tweak_app_queue_pull`, from the wake-up that finds work or a stop request; `none` while it
has to wait. The first component is `result.job_array`: the index of the array handed out, or
`none` for the null pointer of a stopped queue. -/
def tweakAppQueuePull (q : JobQueue J) : Option (Option (Fin 2) × JobQueue J) :=
  if q.isStopped = false ∧ q.filling = [] then none
  else
    let jobArray := if q.isStopped then none else some q.currentArray
    let next := q.currentArray + 1
    some (jobArray, { q with currentArray := next, arrays := Function.update q.arrays next [] })

def tweakAppQueueStop (q : JobQueue J) : JobQueue J := { q with isStopped := true }

/-! ## Producers and the consumer

The system around one queue: any number of producers, one consumer. What has happened so far is
recorded beside the queue; no step reads the record. -/

structure BlockedPush (J : Type) where
  job : J
  jobArray : Fin 2
  pending : List J -- the array being filled when the push began

/-- A push that has returned before the queue was stopped. -/
structure ReturnedPush (J : Type) where
  job : J
  pending : List J -- the array being filled when the push began
  batches : Nat -- how many batches had been returned when the push returned
  deriving DecidableEq

structure System (J : Type) where
  queue : JobQueue J
  blocked : List (BlockedPush J)
  returned : List (ReturnedPush J)
  /-- The contents of each batch at the moment `tweak_app_queue_pull` returned it. -/
  delivered : List (List J)
  /-- The array the consumer got from its latest pull, with its contents at that moment. -/
  batch : Option (Fin 2 × List J)

def System.create (maxSize : Nat) : System J where
  queue := JobQueue.create maxSize
  blocked := []
  returned := []
  delivered := []
  batch := none

inductive Action (J : Type) where
  | push (job : J) -- a producer calls `tweak_app_queue_push`
  | resume (i : Nat) -- the waiting push number `i` is woken and takes the mutex
  | pull -- the consumer's `tweak_app_queue_pull` runs to its end
  | stop -- some thread calls `tweak_app_queue_stop`

/-- A push returns: recorded if the queue has not been stopped. -/
def System.return (s : System J) (q : JobQueue J) (job : J) (pending : List J) : System J :=
  { s with
    queue := q
    returned :=
      if q.isStopped then s.returned else s.returned ++ [⟨job, pending, s.delivered.length⟩] }

def step [DecidableEq J] (s : System J) : Action J → Option (System J)
  | .push job =>
    match tweakAppQueuePush s.queue job with
    | .itemPresent => some (s.return s.queue job s.queue.filling)
    | .appended q => some (s.return q job s.queue.filling)
    | .wait jobArray => some { s with blocked := s.blocked ++ [⟨job, jobArray, s.queue.filling⟩] }
  | .resume i =>
    match s.blocked[i]? with
    | none => none
    | some b =>
      match pushLoop s.queue b.jobArray b.job with
      | .appended q => some { s.return q b.job b.pending with blocked := s.blocked.eraseIdx i }
      | _ => some s
  | .pull =>
    match tweakAppQueuePull s.queue with
    | none => none
    | some (none, q) => some { s with queue := q, batch := none }
    | some (some jobArray, q) =>
      some { s with
        queue := q
        delivered := s.delivered ++ [q.arrays jobArray]
        batch := some (jobArray, q.arrays jobArray) }
  | .stop => some { s with queue := tweakAppQueueStop s.queue }

/-! ## What the queue is for -/

/-- Every push that returned left its job where the consumer finds it: it is in the array being
filled, or in a batch that a pull has returned since — unless an equal job was pending. -/
def NoJobLost (s : System J) : Prop :=
  ∀ r ∈ s.returned, r.job ∈ r.pending ∨ r.job ∈ s.queue.filling ∨
    ∃ b ∈ s.delivered.drop r.batches, r.job ∈ b

/-- The batch the consumer works on is as it was when the pull returned it. -/
def BatchUnchanged (s : System J) : Prop :=
  ∀ jobArray contents, s.batch = some (jobArray, contents) → s.queue.arrays jobArray = contents

/-- The steps the queue survives: a push that goes on after a wait still holds the array that is
being filled, and no pull runs on a stopped queue (which abandons what is pending). -/
def Meets (s : System J) : Action J → Prop
  | .resume i =>
    match s.blocked[i]? with
    | none => True
    | some b => s.queue.isFull = false → b.jobArray = s.queue.currentArray
  | .pull => s.queue.isStopped = false
  | .push _ | .stop => True

instance (s : System J) : (a : Action J) → Decidable (Meets s a)
  | .resume i =>
    match h : s.blocked[i]? with
    | none => .isTrue (by simp [Meets, h])
    | some b =>
      decidable_of_iff (s.queue.isFull = false → b.jobArray = s.queue.currentArray)
        (by simp [Meets, h])
  | .pull => inferInstanceAs (Decidable (s.queue.isStopped = false))
  | .push _ | .stop => .isTrue trivial

/-! ## Appending and flipping -/

namespace JobQueue

private theorem append_arrays_self (q : JobQueue J) (i : Fin 2) (job : J) :
    (q.append i job).arrays i = q.arrays i ++ [job] :=
  Function.update_self ..

theorem append_arrays_of_ne (q : JobQueue J) {i k : Fin 2} (job : J) (h : k ≠ i) :
    (q.append i job).arrays k = q.arrays k :=
  Function.update_of_ne h ..

theorem filling_append_current (q : JobQueue J) (job : J) :
    (q.append q.currentArray job).filling = q.filling ++ [job] :=
  append_arrays_self ..

end JobQueue

variable {q : JobQueue J}

/-- The call has to wait. -/
theorem pushLoop_of_full (i : Fin 2) (job : J) (h : q.isFull = true) :
    pushLoop q i job = .wait i := by
  simp [pushLoop, h]

/-- The job is appended. -/
theorem pushLoop_of_free (i : Fin 2) (job : J) (h : q.isFull = false) :
    pushLoop q i job = .appended (q.append i job) := by
  simp [pushLoop, h]

/-- Of the two arrays, one is the other's successor. -/
theorem ne_add_one (i : Fin 2) : i ≠ i + 1 := by
  revert i
  decide

/-- What is not the next array is the current one. -/
theorem eq_of_ne_add_one {i k : Fin 2} (h : i ≠ k + 1) : i = k := by
  revert i k
  decide

variable {jobArray : Option (Fin 2)}

/-- What a pull on a queue that has not been stopped does. -/
theorem tweakAppQueuePull_running {q' : JobQueue J} (hrun : q.isStopped = false)
    (h : tweakAppQueuePull q = some (jobArray, q')) :
    jobArray = some q.currentArray ∧ q'.currentArray = q.currentArray + 1 ∧
      q'.arrays q.currentArray = q.filling := by
  unfold tweakAppQueuePull at h
  split at h
  · cases h
  · cases h
    exact ⟨by simp [hrun], rfl, Function.update_of_ne (ne_add_one _) ..⟩

variable {s : System J} {job : J} {pending : List J} {r : ReturnedPush J}

private theorem mem_returned (h : r ∈ (s.return q job pending).returned) :
    r ∈ s.returned ∨ r = ⟨job, pending, s.delivered.length⟩ := by
  unfold System.return at h
  cases hq : q.isStopped with
  | true => exact .inl (by simpa [hq] using h)
  | false => simpa [hq] using h

/-! ## The invariant -/

/-- What a run keeps as long as its steps are those of `Meets`: besides the two properties, the
batch is the array that is *not* being filled, and a waiting push that lost its array to a pull
holds exactly that batch. -/
structure Sound (s : System J) : Prop where
  kept : NoJobLost s
  unchanged : BatchUnchanged s
  aside : ∀ jobArray contents, s.batch = some (jobArray, contents) →
    jobArray ≠ s.queue.currentArray
  stale : ∀ b ∈ s.blocked, b.jobArray ≠ s.queue.currentArray →
    ∃ contents, s.batch = some (b.jobArray, contents)
  counted : ∀ r ∈ s.returned, r.batches ≤ s.delivered.length

private theorem sound_create (maxSize : Nat) : Sound (System.create (J := J) maxSize) where
  kept := by intro r hr; cases hr
  unchanged := by intro _ _ h; cases h
  aside := by intro _ _ h; cases h
  stale := by intro b hb; cases hb
  counted := by intro r hr; cases hr

/-- The push that returns is counted from the batches so far. -/
theorem Sound.counted_return (hs : Sound s) (hr : r ∈ (s.return q job pending).returned) :
    r.batches ≤ s.delivered.length := by
  rcases mem_returned hr with hr | rfl
  · exact hs.counted r hr
  · exact Nat.le_refl _

/-- A push that appends to the array being filled loses nothing and leaves the batch alone. -/
theorem Sound.append (hs : Sound s) (job : J) (pending : List J) (blocked : List (BlockedPush J))
    (hb : ∀ b ∈ blocked, b ∈ s.blocked) :
    Sound { s.return (s.queue.append s.queue.currentArray job) job pending with
      blocked := blocked } where
  kept := by
    intro r hr
    show _ ∨ r.job ∈ (s.queue.append s.queue.currentArray job).filling ∨ _
    rw [JobQueue.filling_append_current]
    rcases mem_returned hr with hr | rfl
    · rcases hs.kept r hr with h | h | h
      · exact .inl h
      · exact .inr (.inl (List.mem_append_left _ h))
      · exact .inr (.inr h)
    · exact .inr (.inl (List.mem_append_right _ (List.mem_singleton.mpr rfl)))
  unchanged := by
    intro jobArray contents hbatch
    show (s.queue.append s.queue.currentArray job).arrays jobArray = contents
    rw [JobQueue.append_arrays_of_ne _ _ (hs.aside _ _ hbatch)]
    exact hs.unchanged _ _ hbatch
  aside := hs.aside
  stale := fun b hmem hne => hs.stale b (hb b hmem) hne
  counted _ hr := hs.counted_return hr

/-- A pull hands out everything that was pending. -/
theorem Sound.pull (hs : Sound s) (hcur : q.currentArray = s.queue.currentArray + 1)
    (hbatch : q.arrays s.queue.currentArray = s.queue.filling) :
    Sound { s with
      queue := q
      delivered := s.delivered ++ [s.queue.filling]
      batch := some (s.queue.currentArray, s.queue.filling) } where
  kept := by
    intro r hr
    -- the new batch comes after those that the push was counted from
    show _ ∨ _ ∨ ∃ b ∈ (s.delivered ++ [s.queue.filling]).drop r.batches, r.job ∈ b
    rw [List.drop_append_of_le_length (hs.counted r hr)]
    rcases hs.kept r hr with h | h | ⟨b, hb, h⟩
    · exact .inl h
    · exact .inr (.inr ⟨_, List.mem_append_right _ (List.mem_singleton.mpr rfl), h⟩)
    · exact .inr (.inr ⟨b, List.mem_append_left _ hb, h⟩)
  unchanged := by
    intro jobArray contents heq
    cases heq
    exact hbatch
  aside := by
    intro jobArray contents heq
    cases heq
    show s.queue.currentArray ≠ q.currentArray
    rw [hcur]
    exact ne_add_one _
  stale := by
    intro b _ hne
    -- the array a waiting push holds is either the new one or the one just handed out
    have hb : b.jobArray = s.queue.currentArray := by
      apply eq_of_ne_add_one
      rw [← hcur]
      exact hne
    exact ⟨s.queue.filling, by rw [hb]⟩
  counted r hr := by
    rw [List.length_append]
    exact Nat.le_add_right_of_le (hs.counted r hr)

variable {t : System J} {a : Action J}

/-- One step of `Meets` keeps the invariant. -/
theorem Sound.step [DecidableEq J] (hs : Sound s) (hok : Meets s a) (h : step s a = some t) :
    Sound t := by
  cases a with
  | push job =>
    simp only [Queue.step, tweakAppQueuePush] at h
    by_cases hmem : job ∈ s.queue.arrays s.queue.currentArray
    · -- an equal job is pending: only the record changes
      simp only [hmem, if_true, Option.some.injEq] at h
      subst h
      refine ⟨?_, hs.unchanged, hs.aside, hs.stale, fun _ hr => hs.counted_return hr⟩
      intro r hr
      rcases mem_returned hr with hr | rfl
      · exact hs.kept r hr
      · exact .inl hmem
    · cases hfull : s.queue.isFull with
      | true =>
        simp only [hmem, if_false, pushLoop_of_full _ _ hfull, Option.some.injEq] at h
        subst h
        refine ⟨hs.kept, hs.unchanged, hs.aside, ?_, hs.counted⟩
        intro b hb hne
        rcases List.mem_append.mp hb with hb | hb
        · exact hs.stale b hb hne
        · obtain rfl := List.mem_singleton.mp hb
          exact absurd rfl hne
      | false =>
        simp only [hmem, if_false, pushLoop_of_free _ _ hfull, Option.some.injEq] at h
        subst h
        exact hs.append job _ s.blocked (fun _ hb => hb)
  | resume i =>
    simp only [Queue.step] at h
    cases hget : s.blocked[i]? with
    | none => simp only [hget, reduceCtorEq] at h
    | some b =>
      cases hfull : s.queue.isFull with
      | true =>
        simp only [hget, pushLoop_of_full _ _ hfull, Option.some.injEq] at h
        exact h ▸ hs
      | false =>
        have hcur : b.jobArray = s.queue.currentArray := by
          simp only [Meets, hget] at hok
          exact hok hfull
        simp only [hget, pushLoop_of_free _ _ hfull, hcur, Option.some.injEq] at h
        subst h
        exact hs.append b.job _ _ (fun _ hb => List.mem_of_mem_eraseIdx hb)
  | pull =>
    simp only [Queue.step] at h
    cases hpull : tweakAppQueuePull s.queue with
    | none => simp only [hpull, reduceCtorEq] at h
    | some r =>
      obtain ⟨jobArray, q⟩ := r
      obtain ⟨rfl, hcur, hbatch⟩ := tweakAppQueuePull_running hok hpull
      simp only [hpull, hbatch, Option.some.injEq] at h
      subst h
      exact hs.pull hcur hbatch
  | stop =>
    cases h
    exact ⟨hs.kept, hs.unchanged, hs.aside, hs.stale, hs.counted⟩

/-! ## Results -/

/-- **No job is lost** in a run all of whose steps meet `Meets`, for every queue size, any number
of producers and every order of the sections; and the batch the consumer holds stays as it was
returned. -/
theorem tweakAppQueue_no_job_lost [DecidableEq J] (maxSize : Nat) (as : List (Action J))
    (s : System J) (hrun : run step (System.create maxSize) as = some s)
    (hmeets : Along step Meets (System.create maxSize) as) :
    NoJobLost s ∧ BatchUnchanged s := by
  have hs : Sound s := run_invariant_along (fun hs hok h => hs.step hok h) (sound_create maxSize)
    hmeets hrun
  exact ⟨hs.kept, hs.unchanged⟩

/-- Jobs of one procedure and one context, told apart by their tweak id. -/
def jobOf (tweakId : TweakId) : Job Unit Unit := ⟨(), tweakId, ()⟩

/-- Job 2 waits for two pulls, until its array is being filled again; job 1 is pushed a second time
after its batch has been returned. -/
theorem tweakAppQueue_no_job_lost_two_pulls :
    ∃ s : System (Job Unit Unit),
      run step (System.create 1) [.push (jobOf 1), .push (jobOf 2), .pull, .push (jobOf 1),
        .resume 0, .pull, .resume 0, .pull] = some s ∧
      s.delivered = [[jobOf 1], [jobOf 1], [jobOf 2]] ∧ NoJobLost s ∧ BatchUnchanged s :=
  ⟨_, rfl, rfl, tweakAppQueue_no_job_lost 1 [.push (jobOf 1), .push (jobOf 2), .pull,
    .push (jobOf 1), .resume 0, .pull, .resume 0, .pull] _ rfl (by decide)⟩

/-- A producer waits on the full array; the pull hands that array to the consumer; the producer
goes on and appends to it. The next pull empties it for the producers: job 2 has been pushed, is
not pending, and was in neither batch when it was returned. Before that the first batch grew
while the consumer held it. -/
theorem tweakAppQueue_loses_job :
    (∃ s : System (Job Unit Unit),
      run step (System.create 1)
        [.push (jobOf 1), .push (jobOf 2), .pull, .resume 0, .push (jobOf 3), .pull] = some s ∧
      s.delivered = [[jobOf 1], [jobOf 3]] ∧ ¬ NoJobLost s) ∧
    ∃ s : System (Job Unit Unit),
      run step (System.create 1)
        [.push (jobOf 1), .push (jobOf 2), .pull, .resume 0] = some s ∧ ¬ BatchUnchanged s := by
  refine ⟨⟨_, rfl, rfl, ?_⟩, ⟨_, rfl, ?_⟩⟩
  · intro h
    have := h ⟨jobOf 2, [jobOf 1], 1⟩ (by decide)
    revert this
    decide
  · intro h
    have := h 0 [jobOf 1] rfl
    revert this
    decide

/-- The condition on a resumed push is not too strong: one that goes on with an array it lost to
a pull writes into the batch the consumer holds. -/
theorem resume_changes_batch [DecidableEq J] {i : Nat} (hs : Sound s) (hok : ¬ Meets s (.resume i))
    (h : step s (.resume i) = some t) : ¬ BatchUnchanged t := by
  obtain ⟨b, hget, hfull, hne⟩ : ∃ b, s.blocked[i]? = some b ∧ s.queue.isFull = false ∧
      b.jobArray ≠ s.queue.currentArray := by
    cases hget : s.blocked[i]? with
    | none => simp [Meets, hget] at hok
    | some b => simpa [Meets, hget] using hok
  obtain ⟨contents, hbatch⟩ := hs.stale b (List.mem_of_getElem? hget) hne
  simp only [Queue.step, hget, pushLoop_of_free _ _ hfull, Option.some.injEq] at h
  subst h
  intro hunchanged
  have hnow : (s.queue.append b.jobArray b.job).arrays b.jobArray = contents :=
    hunchanged b.jobArray contents hbatch
  rw [JobQueue.append_arrays_self, hs.unchanged _ _ hbatch] at hnow
  simp at hnow

/-! ## The bound and equal jobs

Both tests of a push, for an equal job and for a free place, are about the array being filled when
they are made. A push that has waited does not repeat the first one, and makes the second one about
an array that need not be the one it appends to. -/

/-- Both arrays are within the bound, and no job is in one of them twice. -/
def Bounded (s : System J) : Prop :=
  ∀ i, (s.queue.arrays i).length ≤ s.queue.maxSize ∧ (s.queue.arrays i).Nodup

/-- A push that goes on after a wait finds a place in its array, and no equal job. -/
def Room (s : System J) : Action J → Prop
  | .resume i =>
    match s.blocked[i]? with
    | none => True
    | some b => s.queue.isFull = false →
        (s.queue.arrays b.jobArray).length < s.queue.maxSize ∧ b.job ∉ s.queue.arrays b.jobArray
  | .push _ | .pull | .stop => True

/-- Appending keeps both arrays as they should be exactly if there is room. -/
theorem bounded_append_iff (hs : Bounded s) (i : Fin 2) (job : J) :
    (∀ k, ((s.queue.append i job).arrays k).length ≤ s.queue.maxSize ∧
        ((s.queue.append i job).arrays k).Nodup) ↔
      (s.queue.arrays i).length < s.queue.maxSize ∧ job ∉ s.queue.arrays i := by
  constructor
  · intro h
    have hi := h i
    rw [JobQueue.append_arrays_self, List.length_append, List.length_singleton,
      List.nodup_append] at hi
    refine ⟨hi.1, fun hmem => ?_⟩
    exact hi.2.2.2 job hmem job (List.mem_singleton.mpr rfl) rfl
  · rintro ⟨hroom, hnew⟩ k
    by_cases hk : k = i
    · rw [hk, JobQueue.append_arrays_self, List.length_append, List.length_singleton]
      refine ⟨hroom, List.nodup_append.mpr ⟨(hs i).2, by simp, ?_⟩⟩
      intro a ha b hb hab
      rw [List.mem_singleton.mp hb] at hab
      exact hnew (hab ▸ ha)
    · rw [JobQueue.append_arrays_of_ne _ _ hk]
      exact hs k

private theorem bounded_pull (hs : Bounded s) (h : tweakAppQueuePull s.queue = some (jobArray, q))
    (i : Fin 2) : (q.arrays i).length ≤ q.maxSize ∧ (q.arrays i).Nodup := by
  unfold tweakAppQueuePull at h
  split at h
  · cases h
  · cases h
    dsimp only
    by_cases hi : i = s.queue.currentArray + 1
    · rw [hi, Function.update_self]
      exact ⟨Nat.zero_le _, List.nodup_nil⟩
    · rw [Function.update_of_ne hi]
      exact hs i

private theorem bounded_step_iff [DecidableEq J] (hs : Bounded s) (h : step s a = some t) :
    Room s a ↔ Bounded t := by
  cases a with
  | push job =>
    refine iff_of_true trivial ?_
    simp only [step, tweakAppQueuePush] at h
    by_cases hmem : job ∈ s.queue.arrays s.queue.currentArray
    · simp only [hmem, if_true, Option.some.injEq] at h
      subst h
      exact hs
    · cases hfull : s.queue.isFull with
      | true =>
        simp only [hmem, if_false, pushLoop_of_full _ _ hfull, Option.some.injEq] at h
        subst h
        exact hs
      | false =>
        -- the first section of a push makes both tests about the array it appends to
        simp only [hmem, if_false, pushLoop_of_free _ _ hfull, Option.some.injEq] at h
        subst h
        refine (bounded_append_iff hs _ _).mpr ⟨?_, hmem⟩
        rw [JobQueue.isFull, decide_eq_false_iff_not, Nat.not_le] at hfull
        exact hfull
  | resume i =>
    simp only [step] at h
    cases hget : s.blocked[i]? with
    | none => simp only [hget, reduceCtorEq] at h
    | some b =>
      simp only [Room, hget]
      cases hfull : s.queue.isFull with
      | true =>
        simp only [hget, pushLoop_of_full _ _ hfull, Option.some.injEq] at h
        subst h
        exact iff_of_true (by rintro ⟨⟩) hs
      | false =>
        simp only [hget, pushLoop_of_free _ _ hfull, Option.some.injEq] at h
        subst h
        rw [← bounded_append_iff hs]
        exact ⟨fun hroom => hroom rfl, fun hbounded _ => hbounded⟩
  | pull =>
    refine iff_of_true trivial ?_
    simp only [step] at h
    cases hpull : tweakAppQueuePull s.queue with
    | none => simp only [hpull, reduceCtorEq] at h
    | some r =>
      obtain ⟨jobArray, q⟩ := r
      cases jobArray <;> simp only [hpull, Option.some.injEq] at h <;> subst h <;>
        exact bounded_pull hs hpull
  | stop =>
    cases h
    exact iff_of_true trivial hs

private theorem room_of_step_none [DecidableEq J] (h : step s a = none) : Room s a := by
  cases a with
  | resume i =>
    simp only [step] at h
    cases hget : s.blocked[i]? with
    | none => simp only [Room, hget]
    | some b =>
      simp only [hget] at h
      split at h <;> cases h
  | push job | pull | stop => trivial

/-- For every bound, any number of producers and every order of the sections: the arrays stay within
the bound and free of equal jobs exactly if every push that goes on after a wait finds room. -/
theorem arrays_bounded_iff [DecidableEq J] (maxSize : Nat) (as : List (Action J)) :
    Throughout step Bounded (System.create maxSize) as ↔
      Along step Room (System.create maxSize) as := by
  refine throughout_iff_along bounded_step_iff room_of_step_none ?_ as
  exact fun i => ⟨Nat.zero_le _, List.nodup_nil⟩

/-- Two producers wait on the full array, one pull releases both, and both append to the array that
the consumer has got: it has more jobs than the bound, and if they push the same job, it is there
twice. -/
theorem arrays_overflow :
    (∃ s : System (Job Unit Unit),
      run step (System.create 1) [.push (jobOf 1), .push (jobOf 2), .pull, .resume 0] = some s ∧
      (s.queue.arrays 0).length = 2) ∧
    ∃ s : System (Job Unit Unit),
      run step (System.create 1)
        [.push (jobOf 1), .push (jobOf 2), .push (jobOf 2), .pull, .resume 0, .resume 0] = some s ∧
      s.queue.arrays 0 = [jobOf 1, jobOf 2, jobOf 2] :=
  ⟨⟨_, rfl, rfl⟩, ⟨_, rfl, rfl⟩⟩

end TweakTool.App.Queue
