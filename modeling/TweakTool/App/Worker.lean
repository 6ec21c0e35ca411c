import TweakTool.App.Owner

/-! # The worker of the server

The worker turns jobs into messages. A subscribe job starts the feed: while it walks over the index
it holds the lock, and the items that it has not reached are jobs of the feed like those in the
queue. -/

namespace TweakTool.App

open TweakTool.Lib

namespace ServerProcess

variable {known : TweakId → VariantType → Prop} {p p' : ServerProcess Unit}
  {message : Option ServerMessage}

/-- What the worker guarantees to the other side when it sends `message`. -/
structure Works (known : TweakId → VariantType → Prop) (p : ServerProcess Unit)
    (message : Option ServerMessage) (p' : ServerProcess Unit) : Prop where
  follows : Follows known known 0 p p'
  knows : ∀ m ∈ message.toList, m.Known known
  finished : p.locked = true → p'.locked = false → p'.impl.connected = true -- a walk ends well
  feeds : ∀ copy sent token, p.Feeds copy sent token →
    p'.Feeds copy (sent ++ message.toList.filterMap ServerMessage.event) token

/-- While the client is told nothing, the worker has nothing but subscribe jobs. -/
theorem Owns.tracking_of_running (h : p.Owns known) {job : ServerJob} (hworker : p.worker = .running job)
    (hjob : job ≠ .subscribe) : p.tracking = true := by
  rw [← Bool.not_eq_false]
  intro hp
  refine hjob ((h.quiet hp).1 job ?_)
  rw [mem_pending, hworker]
  exact .inl (List.mem_singleton.mpr rfl)

/-- The worker hands a job on, and sends nothing that the client could tell. -/
theorem works_same (h : p.Owns known) (hframe : Frame p p')
    (hconnected : p'.impl.connected = p.impl.connected) (hlocked : p'.locked = p.locked)
    (hhand : p'.worker.hand = p.worker.hand) (hjobs : p'.jobs = p.jobs)
    (htoken : ∀ k, p.Token k → p'.Token k)
    (hsubscriptions : p'.pending.count .subscribe + p'.worker.preparing ≤
      p.pending.count .subscribe + p.worker.preparing)
    (hknown : ∀ m ∈ message.toList, m.Known known)
    (hevents : message.toList.filterMap ServerMessage.event = []) : Works known p message p' where
  follows := h.hand_on hframe hconnected hlocked hhand hsubscriptions
  knows := hknown
  finished := by
    intro hp hp'
    rw [hlocked, hp] at hp'
    cases hp'
  feeds := by
    intro copy sent token hfeeds
    rw [hevents, List.append_nil]
    exact hfeeds.hand_on hframe hconnected hlocked hhand (fun _ => hjobs) htoken

/-- The worker executes the next job of the feed. -/
theorem works_take (h : p.Owns known) (hframe : Frame p p')
    (hconnected : p'.impl.connected = p.impl.connected) (hlocked : p'.locked = p.locked)
    (htracking : p.tracking = true) (job : Job TweakId) (hjobs : p.jobs = job :: p'.jobs)
    (hhand : p.worker.hand = []) (hsends : ∀ m ∈ message.toList ++ p'.worker.hand, m.Known known)
    (hevents : (message.toList ++ p'.worker.hand).filterMap ServerMessage.event = job.events p.view)
    (htoken : ∀ k, p.Token k → p'.Token k)
    (hsubscriptions : p'.pending.count .subscribe + p'.worker.preparing ≤
      p.pending.count .subscribe + p.worker.preparing) : Works known p message p' := by
  have hsame : p'.tracking = p.tracking := by rw [tracking, tracking, hconnected, hlocked]
  have hempty : p.hand = [] := by
    rw [hand, hhand]
    rfl
  refine ⟨Owns.follows (h.frame hframe ?_ ?_) hframe.model ?_ ?_, ?_, ?_, ?_⟩
  · exact fun m hm => .inr (hsends m (List.mem_append_right _ hm))
  · intro hp
    rw [hsame, htracking] at hp
    cases hp
  · rw [subscriptions, subscriptions, hsame]
    omega
  · exact fun hp => hconnected.trans hp
  · exact fun m hm => hsends m (List.mem_append_left _ hm)
  · intro hp hp'
    rw [hlocked, hp] at hp'
    cases hp'
  · intro copy sent token hfeeds
    constructor
    · intro _
      have htracks := hfeeds.tracks htracking
      rw [hempty, List.append_nil, hjobs] at htracks
      rw [view, hframe.model, List.append_assoc, hand, ← List.filterMap_append, hevents]
      exact htracks.take.mono fun k => Or.imp_left (htoken k)
    · intro hp
      rw [hsame, htracking] at hp
      cases hp

private theorem works_idle (h : p.Owns known) (hworker : p.worker = .idle)
    (hstep : p.work = some (message, p')) : Works known p message p' := by
  simp only [work, hworker] at hstep
  split at hstep
  · cases hstep
  · next job queue hqueue =>
      cases hstep
      have hmem (job' : ServerJob) : job' ∈ pending { p with
          impl := { p.impl with queue := queue }, worker := .running job } ↔ job' ∈ p.pending := by
        simp only [mem_pending, hworker, hqueue, ServerWorker.jobs, List.mem_cons,
          List.not_mem_nil, false_or, or_assoc]
      refine works_same h ⟨rfl, rfl, fun _ => .inl, fun _ hjob => .inl ((hmem _).mp hjob),
        fun _ _ _ => .inl⟩ rfl ?_ ?_ ?_ (fun k hk => (hmem _).mpr hk) ?_ (fun _ hm => nomatch hm) rfl
      · rw [locked, locked, hworker]
      · rw [hworker]
        rfl
      · simp only [jobs_eq, hworker, hqueue, ServerWorker.jobs, ServerWorker.walk]
        cases hjob : job.feedJob <;> simp [hjob]
      · simp only [count_pending, hworker, hqueue, ServerWorker.jobs, ServerWorker.preparing,
          List.count_cons, List.count_nil]
        omega

/-! ## Subscriptions -/

/-- A subscribe job gets ready to walk. -/
theorem works_preparing (h : p.Owns known) {worker : ServerWorker} {featuresAnnounced : Bool}
    (hworker : p.worker = .running .subscribe ∨ p.worker = .announced)
    (hnext : worker = .announced ∨ worker = .subscribing)
    (hknown : ∀ m ∈ message.toList, m.Known known)
    (hevents : message.toList.filterMap ServerMessage.event = []) :
    Works known p message { p with
      impl := { p.impl with featuresAnnounced := featuresAnnounced }, worker := worker } := by
  have hjobs : worker.jobs = [] ∧ worker.walk = [] ∧ worker.hand = [] ∧ worker.preparing = 1 := by
    rcases hnext with rfl | rfl <;> exact ⟨rfl, rfl, rfl, rfl⟩
  have hold : p.worker.walk = [] ∧ p.worker.hand = [] ∧
      p.worker.jobs.filterMap ServerJob.feedJob = [] ∧ (∀ k, .change k ∉ p.worker.jobs) ∧
      p.worker.jobs.count .subscribe + p.worker.preparing = 1 := by
    rcases hworker with hworker | hworker <;> rw [hworker] <;>
      simp [ServerWorker.walk, ServerWorker.hand, ServerWorker.jobs, ServerWorker.preparing,
        ServerJob.feedJob]
  obtain ⟨hnewJobs, hnewWalk, hnewHand, hnewPreparing⟩ := hjobs
  obtain ⟨hwalk, hhand, hfeed, hchange, hpreparing⟩ := hold
  refine works_same h ⟨rfl, rfl, fun _ => .inl, ?_, fun _ _ _ => .inl⟩ rfl ?_ ?_ ?_ ?_ ?_ hknown hevents
  · intro job hjob
    simp only [mem_pending, hnewJobs, List.not_mem_nil, false_or] at hjob ⊢
    exact .inl (.inr hjob)
  · have hlocked : p.locked = false := by
      rcases hworker with hworker | hworker <;> rw [locked, hworker]
    rw [hlocked]
    rcases hnext with rfl | rfl <;> rfl
  · rw [hhand]
    exact hnewHand
  · simp only [jobs_eq, hnewJobs, hnewWalk, hwalk, hfeed, List.filterMap_nil]
  · intro k hk
    simp only [Token, mem_pending, hchange, hnewJobs, List.not_mem_nil, false_or] at hk ⊢
    exact hk
  · simp only [count_pending, hnewJobs, hnewPreparing, List.count_nil]
    omega

/-- The walk begins, and with it the feed. -/
theorem works_subscribing (h : p.Owns known) (honce : p.subscriptions ≤ 1)
    (hworker : p.worker = .subscribing) (hstep : p.work = some (message, p')) :
    Works known p message p' := by
  simp only [work, hworker] at hstep
  cases hstep
  have hpreparing : p.worker.preparing = 1 := by rw [hworker]; rfl
  have htracking : p.tracking = false := by -- otherwise there would be two subscriptions
    rw [subscriptions, hpreparing] at honce
    cases hp : p.tracking with
    | false => rfl
    | true =>
      rw [hp] at honce
      simp only [Bool.toNat_true] at honce
      omega
  obtain ⟨hquiet, _⟩ := h.quiet htracking
  refine ⟨Owns.follows (h.frame ⟨rfl, rfl, fun _ => .inl, ?_, fun _ _ _ => .inl⟩ ?_ ?_) rfl ?_ id,
    (by rintro _ ⟨⟩), ?_, ?_⟩
  · intro job hjob
    simp only [mem_pending, hworker] at hjob ⊢
    exact .inl hjob
  · rintro m ⟨⟩
  · intro hp
    cases (Bool.or_eq_false_iff.mp hp).2
  · rw [subscriptions, subscriptions, count_pending, count_pending, htracking, hpreparing, hworker]
    have hnew : tracking { p with worker := .walking p.impl.modelImpl.index.entries } = true :=
      Bool.or_true _
    rw [hnew]
    exact Nat.le_refl _
  · intro hp
    rw [locked, hworker] at hp
    cases hp
  · intro copy sent token hfeeds -- the walk is over all that there is
    obtain ⟨rfl, rfl⟩ := hfeeds.quiet htracking
    refine ⟨fun _ => ?_, (by intro hp; cases (Bool.or_eq_false_iff.mp hp).2)⟩
    have hjobs : jobs { p with worker := .walking p.impl.modelImpl.index.entries } =
        (p.impl.modelImpl.index.entries.map Prod.snd).map .append := by
      have hqueued : p.queued.filterMap ServerJob.feedJob = [] := by
        rw [List.filterMap_eq_nil_iff]
        intro job hjob
        rw [hquiet job (List.mem_append_left _ hjob)]
        rfl
      rw [queued, hworker] at hqueued
      rw [jobs, queued]
      show _ ++ List.filterMap ServerJob.feedJob
        (ServerWorker.subscribing.jobs ++ (p.impl.queue ++ (p.calls ()).jobs)) = _
      rw [hqueued, List.append_nil]
      rfl
    rw [hjobs]
    refine Tracks.start h.consistent.bijective.nodup_ids ?_ ?_
    · intro k hk
      rw [view, ne_eq, ModelImpl.view_eq_none] at hk
      exact h.consistent.bijective.mem_ids.mpr (Option.isSome_iff_ne_none.mpr hk)
    · intro k k' entry entry' hk hk' hname
      obtain ⟨item, hitem, rfl⟩ := ModelImpl.view_eq_some.mp hk
      obtain ⟨item', hitem', rfl⟩ := ModelImpl.view_eq_some.mp hk'
      exact h.consistent.bijective.unique hitem hitem' hname

/-- The walk has reached the end of the index. -/
theorem works_walked (h : p.Owns known) (hworker : p.worker = .walking [])
    (hstep : p.work = some (message, p')) : Works known p message p' := by
  simp only [work, hworker] at hstep
  cases hstep
  have htracking : p.tracking = true := by
    rw [tracking, locked, hworker, Bool.or_true]
  have hmem (job : ServerJob) : job ∈ pending { p with
      impl := { p.impl with connected := true }, worker := .idle } ↔ job ∈ p.pending := by
    simp only [mem_pending, hworker, ServerWorker.jobs]
  refine ⟨Owns.follows (h.frame ⟨rfl, rfl, fun _ => .inl, fun _ hjob => .inl ((hmem _).mp hjob),
    fun _ _ _ => .inl⟩ ?_ ?_) rfl ?_ (fun _ => rfl), (by rintro _ ⟨⟩), fun _ _ => rfl, ?_⟩
  · rintro m ⟨⟩
  · rintro ⟨⟩
  · rw [subscriptions, subscriptions, count_pending, count_pending, htracking, hworker]
    exact Nat.le_refl _
  · intro copy sent token hfeeds
    refine ⟨fun _ => ?_, (by rintro ⟨⟩)⟩
    have htracks := hfeeds.tracks htracking
    rw [hand, jobs_eq, hworker] at htracks
    show Tracks _ _ _ ((sent ++ []) ++ []) _ _
    rw [List.append_nil, jobs_eq]
    exact htracks.mono fun k => Or.imp_left fun hk => (hmem _).mpr hk

private theorem Owns.knows_item (h : p.Owns known) {k : TweakId} {item : Item}
    (hitem : p.impl.find? k = some item) :
    (ServerMessage.addItem item.toAddItem).Known known ∧
      (ServerMessage.addItem item.toAddItem).event.toList = Job.events p.view (.append k) := by
  obtain ⟨hid, hvalid⟩ := h.consistent.bijective.ids k item hitem
  obtain ⟨hknown, _, huri⟩ := h.items k item hitem
  refine ⟨⟨?_, ?_, huri⟩, ?_⟩
  · rw [hid]
    exact hknown
  · rw [hid]
    exact hvalid
  · have hview : p.view k = some item.toAddItem.entry := ModelImpl.view_of_find hitem
    rw [events_append_some hview, ServerMessage.event, hid]
    rfl

/-- The walk sends an item. -/
theorem works_walking (h : p.Owns known) {uri : Text} {id : TweakId} {rest : List (Text × TweakId)}
    (hworker : p.worker = .walking ((uri, id) :: rest)) (hstep : p.work = some (message, p')) :
    Works known p message p' := by
  simp only [work, hworker] at hstep
  cases hitem : p.impl.find? id with
  | none =>
    simp only [hitem] at hstep
    cases hstep
  | some item =>
    obtain ⟨hknown, hevent⟩ := h.knows_item hitem
    have htype := (h.items id item hitem).2.1
    simp only [hitem, htype, h.compatible hitem, hknown.accepted h.types, if_true] at hstep
    cases hstep
    have hmem (job : ServerJob) : job ∈ pending { p with worker := .walking rest } ↔
        job ∈ p.pending := by
      simp only [mem_pending, hworker, ServerWorker.jobs]
    refine works_take h ⟨rfl, rfl, fun _ => .inl, fun _ hjob => .inl ((hmem _).mp hjob),
      fun _ _ _ => .inl⟩ rfl ?_ ?_ (.append id) ?_ ?_ ?_ ?_ (fun k hk => (hmem _).mpr hk) ?_
    · rw [locked, locked, hworker]
    · rw [tracking, locked, hworker, Bool.or_true]
    · simp only [jobs_eq, hworker, ServerWorker.walk, ServerWorker.jobs, List.map_cons,
        List.cons_append]
    · rw [hworker]
      rfl
    · intro m hm
      rw [List.mem_singleton.mp hm]
      exact hknown
    · rw [← hevent]
      rfl
    · simp only [count_pending, hworker, ServerWorker.jobs, ServerWorker.preparing, Nat.le_refl]

/-! ## The other jobs -/

/-- A job of the feed goes from the worker's hand into a message, if there is something to tell. -/
theorem works_running (h : p.Owns known) {job : ServerJob} {feedJob : Job TweakId}
    {worker : ServerWorker} (hworker : p.worker = .running job) (hjob : job.feedJob = some feedJob)
    (hnext : worker.jobs = [] ∧ worker.walk = [] ∧ worker.preparing = 0)
    (hlocked : locked { p with worker := worker } = false)
    (hsends : ∀ m ∈ worker.hand, m.Known known)
    (hevents : worker.hand.filterMap ServerMessage.event = feedJob.events p.view) :
    Works known p none { p with worker := worker } := by
  obtain ⟨hjobs, hwalk, hpreparing⟩ := hnext
  have hne : job ≠ .subscribe := by
    rintro rfl
    cases hjob
  have hchange (k : TweakId) : ServerJob.change k ≠ job := by
    rintro rfl
    cases hjob
  obtain ⟨holdJobs, holdWalk, holdHand, holdPreparing⟩ : p.worker.jobs = [job] ∧ p.worker.walk = [] ∧
      p.worker.hand = [] ∧ p.worker.preparing = 0 := by
    rw [hworker]
    exact ⟨rfl, rfl, rfl, rfl⟩
  refine works_take h ⟨rfl, rfl, fun _ => .inl, ?_, fun _ _ _ => .inl⟩ rfl ?_
    (h.tracking_of_running hworker hne) feedJob ?_ holdHand hsends hevents ?_ ?_
  · intro job' hjob'
    simp only [mem_pending, hjobs, List.not_mem_nil, false_or] at hjob' ⊢
    exact .inl (.inr hjob')
  · rw [hlocked, locked, hworker]
  · simp only [jobs_eq, holdJobs, holdWalk, hjobs, hwalk, List.filterMap_cons_some hjob]
    rfl
  · intro k hk
    simp only [Token, mem_pending, holdJobs, hjobs, List.mem_singleton, hchange, List.not_mem_nil,
      false_or] at hk ⊢
    exact hk
  · simp only [count_pending, hjobs, hpreparing, holdPreparing, List.count_nil]
    omega

/-- The worker fetches an item, unless it has been removed. -/
theorem works_append (h : p.Owns known) {id : TweakId} (hworker : p.worker = .running (.append id))
    (hstep : p.work = some (message, p')) : Works known p message p' := by
  simp only [work, hworker] at hstep
  cases hitem : p.impl.find? id with
  | none =>
    simp only [hitem] at hstep
    cases hstep
    have hview : p.view id = none := ModelImpl.view_eq_none.mpr hitem
    exact works_running h hworker rfl ⟨rfl, rfl, rfl⟩ rfl (fun _ hm => nomatch hm)
      (events_append_none hview).symm
  | some item =>
    simp only [hitem] at hstep
    cases hstep
    obtain ⟨hknown, hevent⟩ := h.knows_item hitem
    refine works_running h hworker rfl ⟨rfl, rfl, rfl⟩ rfl ?_ hevent
    intro m hm
    rw [List.mem_singleton.mp hm]
    exact hknown

/-- The worker is about to tell of a removal. -/
theorem works_remove (h : p.Owns known) {id : TweakId} (hworker : p.worker = .running (.remove id))
    (hstep : p.work = some (message, p')) : Works known p message p' := by
  simp only [work, hworker] at hstep
  cases hstep
  refine works_running h hworker rfl ⟨rfl, rfl, rfl⟩ rfl ?_ rfl
  intro m hm
  rw [List.mem_singleton.mp hm]
  refine h.named (.remove id) ?_ id rfl
  rw [mem_pending, hworker]
  exact .inl (List.mem_singleton.mpr rfl)

section Change

variable {id : TweakId} (hworker : p.worker = .running (.change id))
include hworker

/-- The token of the item is used up, all others stay. -/
theorem token_of_change (worker : ServerWorker) {k : TweakId} (hk : p.Token k) :
    k = id ∨ Token { p with worker := worker } k := by
  have hjobs : p.worker.jobs = [.change id] := by
    rw [hworker]
    rfl
  -- the worker's own job was the token of `id`; the queue and the threads have not changed
  simp only [Token, mem_pending, hjobs, List.mem_singleton, ServerJob.change.injEq] at hk ⊢
  tauto

private theorem Owns.connected_of_change (h : p.Owns known) : p.impl.connected = true := by
  have htracking := h.tracking_of_running hworker (by rintro ⟨⟩)
  rw [tracking, locked, hworker, Bool.or_false] at htracking
  exact htracking

/-- The change job is over: what the client is going to be told is in the worker's hand. -/
theorem works_changed (h : p.Owns known) {worker : ServerWorker}
    (hnext : worker.jobs = [] ∧ worker.walk = [] ∧ worker.preparing = 0)
    (hsends : ∀ m ∈ worker.hand, m.Known known)
    (hfeeds : ∀ copy sent (token : TweakId → Prop),
      (Tracks Declaration.uri copy p.view sent p.jobs fun k => p.Token k ∨ token k) →
      Tracks Declaration.uri copy p.view (sent ++ worker.hand.filterMap ServerMessage.event) p.jobs
        fun k => Token { p with worker := worker } k ∨ token k) :
    Works known p none { p with worker := worker } := by
  have htracking := h.tracking_of_running hworker (by rintro ⟨⟩)
  obtain ⟨holdJobs, holdWalk, holdPreparing⟩ : p.worker.jobs = [.change id] ∧ p.worker.walk = [] ∧
      p.worker.preparing = 0 := by
    rw [hworker]
    exact ⟨rfl, rfl, rfl⟩
  obtain ⟨hjobs, hwalk, hpreparing⟩ := hnext
  have hnew : tracking { p with worker := worker } = true := by
    rw [tracking, h.connected_of_change hworker]
    rfl
  refine ⟨Owns.follows (h.frame ⟨rfl, rfl, fun _ => .inl, ?_, fun _ _ _ => .inl⟩ ?_ ?_) rfl ?_
    (fun hp => hp), (by rintro _ ⟨⟩), ?_, ?_⟩
  · intro job hjob
    simp only [mem_pending, hjobs, List.not_mem_nil, false_or] at hjob ⊢
    exact .inl (.inr hjob)
  · exact fun m hm => .inr (hsends m hm)
  · intro hp
    cases hnew.symm.trans hp
  · rw [subscriptions, subscriptions, count_pending, count_pending, htracking, hnew]
    simp only [hjobs, hpreparing, holdPreparing, List.count_nil]
    omega
  · intro hp
    rw [locked, hworker] at hp
    cases hp
  · intro copy sent token h'
    refine ⟨fun _ => ?_, (by intro hp; cases hnew.symm.trans hp)⟩
    have hsame : jobs { p with worker := worker } = p.jobs := by
      simp only [jobs_eq, holdJobs, holdWalk, hjobs, hwalk]
      rfl
    have htracks := h'.tracks htracking
    rw [hand, hworker] at htracks
    rw [hsame]
    show Tracks _ _ _ ((sent ++ []) ++ _) _ _
    exact hfeeds copy (sent ++ []) token htracks

private theorem works_change (h : p.Owns known) (hstep : p.work = some (message, p')) :
    Works known p message p' := by
  simp only [work, hworker] at hstep
  cases hitem : p.impl.find? id with
  | none =>
    simp only [hitem] at hstep
    cases hstep
    refine works_changed hworker h ⟨rfl, rfl, rfl⟩ (by rintro _ ⟨⟩) ?_
    intro copy sent token htracks
    show Tracks _ _ _ (sent ++ []) _ _
    rw [List.append_nil]
    refine htracks.forget (k := id) (ModelImpl.view_eq_none.mpr hitem) ?_
    rintro k (hk | hk)
    · exact (token_of_change hworker _ hk).imp_right .inl
    · exact .inr (.inr hk)
  | some item =>
    simp only [hitem, h.connected_of_change hworker, if_true] at hstep
    cases hstep
    refine works_changed hworker h ⟨rfl, rfl, rfl⟩ ?_ ?_
    · intro m hm
      rw [List.mem_singleton.mp hm]
      exact (h.items id item hitem).1
    · intro copy sent token htracks
      refine htracks.change (ModelImpl.view_of_find hitem) ?_
      rintro k (hk | hk)
      · exact (token_of_change hworker _ hk).imp_right .inl
      · exact .inr (.inr hk)

end Change

/-- The message in the hand of the worker is sent. -/
theorem works_sending (h : p.Owns known) {m : ServerMessage} (hworker : p.worker = .sending m)
    (hstep : p.work = some (message, p')) : Works known p message p' := by
  have hknown : m.Known known := by
    apply h.sends
    rw [hworker]
    exact List.mem_singleton.mpr rfl
  simp only [work, hworker, hknown.accepted h.types, if_true] at hstep -- the endpoint accepts it
  cases hstep
  have hlocked : p.locked = false := by rw [locked, hworker]
  have htracking : tracking { p with worker := .idle } = p.tracking := by
    rw [tracking, tracking, hlocked]
    rfl
  have hmem (job : ServerJob) : job ∈ pending { p with worker := .idle } ↔ job ∈ p.pending := by
    simp only [mem_pending, hworker, ServerWorker.jobs]
  refine ⟨Owns.follows (h.frame ⟨rfl, rfl, fun _ => .inl, fun _ hjob => .inl ((hmem _).mp hjob),
    fun _ _ _ => .inl⟩ ?_ ?_) rfl ?_ id, ?_, ?_, ?_⟩
  · rintro m ⟨⟩
  · exact fun hp => ⟨htracking ▸ hp, rfl⟩
  · rw [subscriptions, subscriptions, count_pending, count_pending, htracking, hworker]
    exact Nat.le_refl _
  · intro m' hm'
    rw [List.mem_singleton.mp hm']
    exact hknown
  · intro hp
    rw [hlocked] at hp
    cases hp
  · intro copy sent token hfeeds
    constructor
    · intro hp
      have htracks := hfeeds.tracks (htracking ▸ hp)
      rw [hand, jobs_eq, hworker] at htracks -- the event moves from the hand to the channel
      show Tracks _ _ _ ((sent ++ _) ++ []) _ _
      rw [List.append_nil, jobs_eq]
      exact htracks.mono fun k => Or.imp_left fun hk => (hmem _).mpr hk
    · intro hp
      rw [htracking] at hp
      obtain ⟨hcopy, hsent⟩ := hfeeds.quiet hp
      have hhand := (h.quiet hp).2
      rw [hand, hworker] at hhand
      exact ⟨hcopy, by rw [hsent]; exact hhand⟩

/-- Every step of the worker keeps its side of the session. -/
theorem works (h : p.Owns known) (honce : p.subscriptions ≤ 1) (hstep : p.work = some (message, p')) :
    Works known p message p' := by
  cases hworker : p.worker with
  | idle => exact works_idle h hworker hstep
  | running job =>
    cases job with
    | subscribe =>
      simp only [work, hworker] at hstep
      split at hstep <;> cases hstep
      · refine works_preparing h (.inl hworker) (.inl rfl) ?_ rfl
        intro m hm
        rw [List.mem_singleton.mp hm]
        trivial
      · exact works_preparing h (.inl hworker) (.inr rfl) (fun _ hm => nomatch hm) rfl
    | append id => exact works_append h hworker hstep
    | change id => exact works_change hworker h hstep
    | remove id => exact works_remove h hworker hstep
  | announced =>
    simp only [work, hworker] at hstep
    cases hstep
    exact works_preparing h (.inr hworker) (.inr rfl) (fun _ hm => nomatch hm) rfl
  | subscribing => exact works_subscribing h honce hworker hstep
  | walking rest =>
    cases rest with
    | nil => exact works_walked h hworker hstep
    | cons entry rest => exact works_walking h hworker hstep
  | sending m => exact works_sending h hworker hstep

end ServerProcess

end TweakTool.App
