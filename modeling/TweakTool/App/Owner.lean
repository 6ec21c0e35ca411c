import TweakTool.App.Session
import TweakTool.App.Tables
import TweakTool.App.View
import TweakTool.Lib.Tracks

/-! # The server's side of a session

The model of the server is the map that is fed to the client. The jobs that wait to be executed, in
the queue, in the hand of the worker or about to be pushed, are the jobs of the feed; a change job is
a token for the value of its item. -/

namespace TweakTool.App

open TweakTool.Lib

/-! ## What is under way -/

def ServerMessage.event : ServerMessage → Option (Event TweakId Declaration Variant)
  | .announceFeatures _ => none
  | .addItem a => some (.add a.id a.entry)
  | .changeItem id value => some (.change id value)
  | .removeItem id => some (.remove id)

namespace ServerJob

def feedJob : ServerJob → Option (Job TweakId)
  | .append id => some (.append id)
  | .remove id => some (.remove id)
  | .subscribe | .change _ => none

def id? : ServerJob → Option TweakId
  | .subscribe => none
  | .append id | .change id | .remove id => some id

end ServerJob

namespace ServerWorker

def jobs : ServerWorker → List ServerJob
  | .running job => [job]
  | _ => []

/-- The items still to be walked over. -/
def walk : ServerWorker → List TweakId
  | .walking rest => rest.map Prod.snd
  | _ => []

def hand : ServerWorker → List ServerMessage
  | .sending message => [message]
  | _ => []

/-- A subscribe job that has not begun to walk. -/
def preparing : ServerWorker → Nat
  | .announced | .subscribing => 1
  | _ => 0

end ServerWorker

def ServerCall.jobs : ServerCall → List ServerJob
  | .pushing job => [job]
  | _ => []

def ServerReceiver.jobs : ServerReceiver → List ServerJob
  | .pushing job => [job]
  | .idle => []

/-- The types of the items there have been, whose ids are below the seed. -/
structure Types (known : TweakId → VariantType → Prop) (seed : TweakId) : Prop where
  lt : ∀ {k t}, known k t → k < seed
  unique : ∀ {k t t'}, known k t → known k t' → t = t'
  scalar : ∀ {k t}, known k t → t.isBoolOrInteger = true

def declare (known : TweakId → VariantType → Prop) (seed : TweakId) (type : VariantType) :
    TweakId → VariantType → Prop :=
  fun k t => known k t ∨ k = seed ∧ t = type

variable {known : TweakId → VariantType → Prop} {seed : TweakId}

private theorem Types.mono {seed' : TweakId} (h : Types known seed) (hseed : seed ≤ seed') :
    Types known seed' :=
  { h with lt := fun hk => Nat.lt_of_lt_of_le (h.lt hk) hseed }

private theorem Types.declare {type : VariantType} (h : Types known seed)
    (htype : type.isBoolOrInteger = true) : Types (declare known seed type) (seed + 1) where
  lt := by
    rintro k t (hk | ⟨rfl, _⟩)
    · exact Nat.lt_succ_of_lt (h.lt hk)
    · exact Nat.lt_succ_self _
  unique := by
    rintro k t t' (hk | ⟨rfl, rfl⟩) (hk' | ⟨hseed, rfl⟩)
    · exact h.unique hk hk'
    · exact absurd (h.lt hk) (hseed ▸ Nat.lt_irrefl _)
    · exact absurd (h.lt hk') (Nat.lt_irrefl _)
    · rfl
  scalar := by
    rintro k t (hk | ⟨_, rfl⟩)
    · exact h.scalar hk
    · exact htype

/-- A message about items of known types. -/
def ServerMessage.Known (known : TweakId → VariantType → Prop) : ServerMessage → Prop
  | .announceFeatures _ => True
  | .addItem a => known a.id a.currentValue.type ∧ a.id ≠ tweakInvalidId ∧ a.uri ≠ []
  | .changeItem id value => known id value.type
  | .removeItem id => ∃ t, known id t

theorem ServerMessage.Known.mono {known' : TweakId → VariantType → Prop}
    (hknown : ∀ k t, known k t → known' k t) {message : ServerMessage} (h : message.Known known) :
    message.Known known' := by
  cases message with
  | announceFeatures features => trivial
  | addItem a => exact ⟨hknown _ _ h.1, h.2⟩
  | changeItem id value => exact hknown _ _ h
  | removeItem id =>
    obtain ⟨t, ht⟩ := h
    exact ⟨t, hknown _ _ ht⟩

theorem ne_null_of_scalar {t : VariantType} (h : t.isBoolOrInteger = true) : t ≠ .null := by
  rintro rfl
  cases h

private theorem checkValueCompatibility_scalar {a b : Variant} (ha : a.type.isBoolOrInteger = true)
    (h : a.type = b.type) : checkValueCompatibility a b = true := by
  rw [checkValueCompatibility, if_neg (not_not.mpr h)]
  cases a with
  | bool x | num t x => rfl
  | null | string x | vector t x => cases ha

/-- The endpoint refuses no such message. -/
theorem ServerMessage.Known.accepted (htypes : Types known seed) {message : ServerMessage}
    (h : message.Known known) : message.accepted = true := by
  cases message with
  | announceFeatures features | removeItem id => rfl
  | addItem a =>
    obtain ⟨htype, hid, huri⟩ := h
    simp [ServerMessage.accepted, hid, huri, ne_null_of_scalar (htypes.scalar htype)]
  | changeItem id value =>
    simp [ServerMessage.accepted, ne_null_of_scalar (htypes.scalar h)]

namespace ServerProcess

section

variable (p : ServerProcess Unit)

def view : View TweakId Declaration Variant := p.impl.modelImpl.view

/-- The events of the message in the hand of the worker. -/
def hand : List (Event TweakId Declaration Variant) := p.worker.hand.filterMap ServerMessage.event

def queued : List ServerJob := p.worker.jobs ++ (p.impl.queue ++ (p.calls ()).jobs)

def pending : List ServerJob := p.queued ++ p.receiver.jobs

def jobs : List (Job TweakId) := p.worker.walk.map .append ++ p.queued.filterMap ServerJob.feedJob

/-- The present value of an item is going to be sent. -/
def Token (k : TweakId) : Prop := .change k ∈ p.pending

/-- The client is told of all changes, or of the whole model. -/
def tracking : Bool := p.impl.connected || p.locked

def subscriptions : Nat :=
  p.pending.count .subscribe + p.worker.preparing + p.tracking.toNat

end

variable {job : ServerJob}

/-- The places where a job can be. -/
theorem mem_pending {p : ServerProcess Unit} :
    job ∈ p.pending ↔ job ∈ p.worker.jobs ∨ job ∈ p.impl.queue ∨ job ∈ (p.calls ()).jobs ∨
      job ∈ p.receiver.jobs := by
  simp only [pending, queued, List.mem_append, or_assoc]

theorem count_pending (p : ServerProcess Unit) (job : ServerJob) :
    p.pending.count job = p.worker.jobs.count job +
      (p.impl.queue.count job + (p.calls ()).jobs.count job) + p.receiver.jobs.count job := by
  simp only [pending, queued, List.count_append]

theorem jobs_eq (p : ServerProcess Unit) :
    p.jobs = p.worker.walk.map .append ++ (p.worker.jobs.filterMap ServerJob.feedJob ++
      (p.impl.queue.filterMap ServerJob.feedJob ++ (p.calls ()).jobs.filterMap ServerJob.feedJob)) := by
  simp only [jobs, queued, List.filterMap_append]

/-- The invariant of the server's side. -/
structure Owns (known : TweakId → VariantType → Prop) (p : ServerProcess Unit) : Prop where
  types : Types known p.impl.seed
  consistent : p.impl.Consistent
  items : ∀ k item, p.impl.find? k = some item →
    known k item.currentValue.type ∧ item.variantType = item.currentValue.type ∧ item.uri ≠ []
  adding : ∀ alloc new itemIsCompatible, p.calls () = .adding alloc new itemIsCompatible →
    new.initialValue.type.isBoolOrInteger = true ∧ new.uri ≠ [] ∧ itemIsCompatible = true
  sends : ∀ message ∈ p.worker.hand, message.Known known
  named : ∀ job ∈ p.pending, ∀ k, job.id? = some k → ∃ t, known k t
  received : ∀ job ∈ p.receiver.jobs, job.feedJob = none
  quiet : p.tracking = false → (∀ job ∈ p.pending, job = .subscribe) ∧ p.hand = []

/-- How the copy of a client, the messages on the way to it and its tokens fit with the server: while
the server does not track, the client has nothing and is told nothing. -/
structure Feeds (p : ServerProcess Unit) (copy : View TweakId Declaration Variant)
    (sent : List (Event TweakId Declaration Variant)) (token : TweakId → Prop) : Prop where
  tracks : p.tracking = true →
    Tracks Declaration.uri copy p.view (sent ++ p.hand) p.jobs fun k => p.Token k ∨ token k
  quiet : p.tracking = false → copy = (fun _ => none) ∧ sent = []

variable {known : TweakId → VariantType → Prop} {p p' : ServerProcess Unit}
  {copy : View TweakId Declaration Variant} {sent : List (Event TweakId Declaration Variant)}
  {token : TweakId → Prop}

/-- What every step of the server guarantees to the other side, when `n` more subscriptions are taken
in. -/
structure Follows (known known' : TweakId → VariantType → Prop) (n : Nat) (p p' : ServerProcess Unit) :
    Prop where
  owns : p'.Owns known'
  types : ∀ k t, known k t → known' k t
  subscriptions : p'.subscriptions ≤ p.subscriptions + n
  view : ∀ k t, known k t → p'.view k ≠ none → p.view k ≠ none -- items with known ids do not appear
  connected : p.impl.connected = true → p'.impl.connected = true

/-! ## Steps that leave the model alone -/

/-- What a step leaves as it is. -/
structure Frame (p p' : ServerProcess Unit) : Prop where
  model : p'.impl.modelImpl = p.impl.modelImpl
  seed : p'.impl.seed = p.impl.seed
  received : ∀ job ∈ p'.receiver.jobs, job ∈ p.receiver.jobs ∨ job = .subscribe
  pending : ∀ job ∈ p'.pending, job ∈ p.pending ∨ job = .subscribe
  adding : ∀ alloc new itemIsCompatible, p'.calls () = .adding alloc new itemIsCompatible →
    p.calls () = .adding alloc new itemIsCompatible ∨
      new.initialValue.type.isBoolOrInteger = true ∧ new.uri ≠ [] ∧ itemIsCompatible = true

/-- The model stays as it is, and the worker has nothing unknown in its hand. -/
theorem Owns.frame (h : p.Owns known) (hframe : Frame p p')
    (hsends : ∀ message ∈ p'.worker.hand, message ∈ p.worker.hand ∨ message.Known known)
    (hquiet : p'.tracking = false → p.tracking = false ∧ p'.hand = []) : p'.Owns known where
  types := hframe.seed ▸ h.types
  consistent := by
    refine h.consistent.updates ?_ (Nat.le_of_eq hframe.seed.symm)
    rw [hframe.model]
    exact .same
  items := by
    intro k item hk
    apply h.items
    rw [Context.find?, ← hframe.model]
    exact hk
  adding := fun alloc new itemIsCompatible hcall =>
    (hframe.adding alloc new itemIsCompatible hcall).elim (h.adding alloc new itemIsCompatible) id
  sends := fun message hmem => (hsends message hmem).elim (h.sends message) id
  named := by
    intro job hjob k hk
    rcases hframe.pending job hjob with hjob | rfl
    · exact h.named job hjob k hk
    · cases hk
  received := by
    intro job hjob
    rcases hframe.received job hjob with hjob | rfl
    · exact h.received job hjob
    · rfl
  quiet := by
    intro hp
    obtain ⟨htracking, hhand⟩ := hquiet hp
    refine ⟨fun job hjob => ?_, hhand⟩
    exact (hframe.pending job hjob).elim ((h.quiet htracking).1 job) id

variable {n : Nat}

/-- What a step guarantees that leaves the model as it is. -/
theorem Owns.follows (h : p'.Owns known) (hmodel : p'.impl.modelImpl = p.impl.modelImpl)
    (hsubscriptions : p'.subscriptions ≤ p.subscriptions + n)
    (hconnected : p.impl.connected = true → p'.impl.connected = true) :
    Follows known known n p p' where
  owns := h
  types := fun _ _ hk => hk
  subscriptions := hsubscriptions
  view := by
    intro k t _ hk
    rw [view, hmodel] at hk
    exact hk
  connected := hconnected

/-- Steps that only hand a job on. -/
theorem Owns.hand_on (h : p.Owns known) (hframe : Frame p p')
    (hconnected : p'.impl.connected = p.impl.connected) (hlocked : p'.locked = p.locked)
    (hhand : p'.worker.hand = p.worker.hand)
    (hsubscriptions : p'.pending.count .subscribe + p'.worker.preparing ≤
      p.pending.count .subscribe + p.worker.preparing + n) : Follows known known n p p' := by
  have htracking : p'.tracking = p.tracking := by
    rw [tracking, tracking, hconnected, hlocked]
  refine Owns.follows (h.frame hframe ?_ ?_) hframe.model ?_ ?_
  · intro message hmem
    exact .inl (hhand ▸ hmem)
  · intro hp
    rw [htracking] at hp
    exact ⟨hp, (congrArg (List.filterMap ServerMessage.event) hhand).trans (h.quiet hp).2⟩
  · rw [subscriptions, subscriptions, htracking]
    omega
  · intro hp
    rw [hconnected]
    exact hp

/-- The hand of the worker and the jobs are what they were. -/
theorem Feeds.hand_on (hfeeds : p.Feeds copy sent token) (hframe : Frame p p')
    (hconnected : p'.impl.connected = p.impl.connected) (hlocked : p'.locked = p.locked)
    (hhand : p'.worker.hand = p.worker.hand) (hjobs : p.jobs.Nodup → p'.jobs = p.jobs)
    (htoken : ∀ k, p.Token k → p'.Token k) : p'.Feeds copy sent token := by
  have htracking : p'.tracking = p.tracking := by
    rw [tracking, tracking, hconnected, hlocked]
  have hhand' : p'.hand = p.hand := congrArg (List.filterMap ServerMessage.event) hhand
  constructor
  · intro hp
    have htracks := hfeeds.tracks (htracking ▸ hp)
    rw [view, hframe.model, hhand', hjobs htracks.nodup]
    exact htracks.mono fun k => Or.imp_left (htoken k)
  · exact fun hp => hfeeds.quiet (htracking ▸ hp)

private theorem follows_same (h : p.Owns known) (hframe : Frame p p')
    (hconnected : p'.impl.connected = p.impl.connected) (hlocked : p'.locked = p.locked)
    (hhand : p'.worker.hand = p.worker.hand) (hjobs : p.jobs.Nodup → p'.jobs = p.jobs)
    (htoken : ∀ k, p.Token k → p'.Token k)
    (hsubscriptions : p'.pending.count .subscribe + p'.worker.preparing ≤
      p.pending.count .subscribe + p.worker.preparing + n) :
    Follows known known n p p' ∧ (p.Feeds copy sent token → p'.Feeds copy sent token) :=
  ⟨h.hand_on hframe hconnected hlocked hhand hsubscriptions,
    fun hfeeds => hfeeds.hand_on hframe hconnected hlocked hhand hjobs htoken⟩

variable {new : NewItem}

/-- A call of the application begins; nothing has changed yet. -/
theorem follows_addItem (h : p.Owns known) {alloc : Allocations}
    (hscalar : new.initialValue.type.isBoolOrInteger = true) (hnamed : new.uri ≠ [])
    (hstep : p.addItem () alloc new = some p') :
    Follows known known 0 p p' ∧ (p.Feeds copy sent token → p'.Feeds copy sent token) := by
  unfold addItem at hstep
  split at hstep
  · next hcall =>
      cases hstep
      have hcompatible :
          p.impl.remotePeerFeatures.checkTypeCompatibility new.initialValue.type = true :=
        Features.checkTypeCompatibility_scalar _ hscalar
      refine follows_same h ⟨rfl, rfl, fun _ => .inl, ?_, ?_⟩ rfl rfl rfl ?_ ?_ ?_
      · intro job hjob
        simp only [mem_pending, Function.update_self, hcall, ServerCall.jobs] at hjob ⊢
        exact .inl hjob
      · rintro _ _ _ heq
        cases heq
        exact .inr ⟨hscalar, hnamed, hcompatible⟩
      · simp only [jobs_eq, Function.update_self, hcall, ServerCall.jobs, implies_true]
      · simp only [Token, mem_pending, Function.update_self, hcall, ServerCall.jobs, imp_self,
          implies_true]
      · simp only [count_pending, Function.update_self, hcall, ServerCall.jobs, Nat.add_zero,
          Nat.le_refl]
  · cases hstep

variable {drop : Bool}

/-- The job of a call is pushed, unless it is pending already. -/
theorem follows_push (h : p.Owns known) (hcall : p.calls () = .pushing job)
    (hstep : p.proceed () drop = some p') :
    Follows known known 0 p p' ∧ (p.Feeds copy sent token → p'.Feeds copy sent token) := by
  simp only [proceed, hcall, Option.some.injEq] at hstep
  subst hstep
  have hmem (job' : ServerJob) : job' ∈ pending { p with
      impl := { p.impl with queue := enqueue drop job p.impl.queue }
      calls := Function.update p.calls () .idle } ↔ job' ∈ p.pending := by
    simp only [mem_pending, Function.update_self, hcall, ServerCall.jobs, mem_enqueue,
      List.mem_singleton, List.not_mem_nil, false_or, or_assoc]
  refine follows_same h ⟨rfl, rfl, fun _ => .inl, ?_, ?_⟩ rfl rfl rfl ?_ ?_ ?_
  · exact fun job' hjob' => .inl ((hmem job').mp hjob')
  · rintro _ _ _ heq
    cases heq
  · intro hnodup
    simp only [jobs_eq, Function.update_self, hcall, ServerCall.jobs] at hnodup ⊢
    rw [filterMap_enqueue, List.filterMap_nil, List.append_nil]
    intro job' hjob' hold
    rw [List.filterMap_cons_some hjob'] at hnodup
    have htail := hnodup.of_append_right.of_append_right
    exact (List.nodup_append.mp htail).2.2 job' hold job' List.mem_cons_self rfl
  · exact fun k hk => (hmem _).mpr hk
  · have hcount := count_enqueue_le drop job p.impl.queue .subscribe
    simp only [count_pending, Function.update_self, hcall, ServerCall.jobs, List.count_nil]
    omega

/-- The receiving thread pushes jobs that are no part of the feed. -/
theorem follows_receiverPush (h : p.Owns known) (hstep : p.receiverPush drop = some p') :
    Follows known known 0 p p' ∧ (p.Feeds copy sent token → p'.Feeds copy sent token) := by
  unfold receiverPush at hstep
  split at hstep
  · cases hstep
  · next job hreceiver =>
      cases hstep
      have hjob : job.feedJob = none := h.received job (by rw [hreceiver]; exact .head _)
      have hmem (job' : ServerJob) : job' ∈ pending { p with
          impl := { p.impl with queue := enqueue drop job p.impl.queue }
          receiver := .idle } ↔ job' ∈ p.pending := by
        simp only [mem_pending, hreceiver, ServerReceiver.jobs, mem_enqueue, List.mem_singleton,
          List.not_mem_nil, false_or, or_assoc, or_comm, or_left_comm]
      refine follows_same h ⟨rfl, rfl, ?_, ?_, fun _ _ _ => .inl⟩ rfl rfl rfl ?_ ?_ ?_
      · exact fun job' hjob' => nomatch hjob'
      · exact fun job' hjob' => .inl ((hmem job').mp hjob')
      · intro _
        simp only [jobs_eq]
        rw [filterMap_enqueue, List.filterMap_cons_none hjob, List.filterMap_nil, List.append_nil]
        intro y hy
        rw [hjob] at hy
        cases hy
      · exact fun k hk => (hmem _).mpr hk
      · have hcount := count_enqueue_le drop job p.impl.queue .subscribe
        simp only [count_pending, hreceiver, ServerReceiver.jobs, List.count_nil]
        omega

/-- A new connection concerns the features, not the items. -/
theorem follows_connectionState (h : p.Owns known) :
    Follows known known 0 p (p.connectionState true) ∧
      (p.Feeds copy sent token → (p.connectionState true).Feeds copy sent token) :=
  follows_same h ⟨rfl, rfl, fun _ => .inl, fun _ => .inl, fun _ _ _ => .inl⟩ rfl rfl rfl
    (fun _ => rfl) (fun _ hk => hk) (Nat.le_refl _)

theorem follows_receive_announceFeatures (h : p.Owns known) {features : Features}
    (hstep : p.receive (.announceFeatures features) = some p') :
    Follows known known 0 p p' ∧ (p.Feeds copy sent token → p'.Feeds copy sent token) := by
  cases hreceiver : p.receiver with
  | pushing job =>
    simp only [receive, hreceiver] at hstep
    cases hstep
  | idle =>
    simp only [receive, hreceiver] at hstep
    cases hstep
    have hsame : { p with impl := p.impl.announceFeaturesImpl (some features) } =
        (⟨p.impl.announceFeaturesImpl (some features), p.calls, p.worker, .idle⟩ :
          ServerProcess Unit) := by rw [hreceiver]
    rw [← hsame]
    exact follows_same h ⟨rfl, rfl, fun _ => .inl, fun _ => .inl, fun _ _ _ => .inl⟩ rfl rfl rfl
      (fun _ => rfl) (fun _ hk => hk) (Nat.le_refl _)

/-- A client subscribes once more. -/
theorem follows_receive_subscribe (h : p.Owns known) (hstep : p.receive .subscribe = some p') :
    Follows known known 1 p p' ∧ (p.Feeds copy sent token → p'.Feeds copy sent token) := by
  cases hreceiver : p.receiver with
  | pushing job =>
    simp only [receive, hreceiver] at hstep
    cases hstep
  | idle =>
    simp only [receive, hreceiver] at hstep
    cases hstep
    refine follows_same h ⟨rfl, rfl, ?_, ?_, fun _ _ _ => .inl⟩ rfl rfl rfl (fun _ => rfl) ?_ ?_
    · exact fun job hjob => .inr (List.mem_singleton.mp hjob)
    · intro job hjob
      simp only [mem_pending, hreceiver, ServerReceiver.jobs, List.mem_singleton,
        List.not_mem_nil, or_false] at hjob ⊢
      tauto
    · intro k hk
      simp only [Token, mem_pending, hreceiver, ServerReceiver.jobs, List.not_mem_nil,
        or_false] at hk ⊢
      tauto
    · simp only [count_pending, hreceiver, ServerReceiver.jobs, List.count_nil,
        List.count_singleton_self]
      omega

/-! ## Sections of the model -/

/-- A call or a message changes the model while the worker does not hold the lock. -/
theorem tracking_eq (h : p.locked = false) : p.tracking = p.impl.connected := by
  rw [tracking, h, Bool.or_false]

/-- Items with scalar values are compatible with all features. -/
theorem Owns.compatible (h : p.Owns known) {k : TweakId} {item : Item}
    (hitem : p.impl.find? k = some item) (features : Features) :
    features.checkTypeCompatibility item.currentValue.type = true :=
  features.checkTypeCompatibility_scalar (h.types.scalar (h.items k item hitem).1)

private theorem Owns.update (h : p.Owns known) (hworker : p'.worker = p.worker)
    (hupdates : p.impl.modelImpl.Updates p'.impl.modelImpl) (hseed : p'.impl.seed = p.impl.seed)
    (hconnected : p'.impl.connected = p.impl.connected)
    (hitems : ∀ k item, p'.impl.find? k = some item →
      known k item.currentValue.type ∧ item.variantType = item.currentValue.type ∧ item.uri ≠ [])
    (hadding : ∀ alloc new itemIsCompatible, p'.calls () = .adding alloc new itemIsCompatible →
      p.calls () = .adding alloc new itemIsCompatible)
    (hpending : ∀ job ∈ p'.pending, job ∈ p.pending ∨
      p.tracking = true ∧ ∃ k t, job.id? = some k ∧ known k t)
    (hreceived : ∀ job ∈ p'.receiver.jobs, job.feedJob = none) : p'.Owns known where
  types := hseed ▸ h.types
  consistent := h.consistent.updates hupdates (Nat.le_of_eq hseed.symm)
  items := hitems
  adding := fun alloc new itemIsCompatible hcall =>
    h.adding alloc new itemIsCompatible (hadding alloc new itemIsCompatible hcall)
  sends := by
    rw [hworker]
    exact h.sends
  named := by
    intro job hjob k hk
    rcases hpending job hjob with hjob | ⟨_, k', t, hk', ht⟩
    · exact h.named job hjob k hk
    · cases hk.symm.trans hk'
      exact ⟨t, ht⟩
  received := hreceived
  quiet := by
    intro hp
    rw [tracking, locked, hworker, hconnected] at hp
    have hquiet := h.quiet hp
    rw [hand, hworker]
    refine ⟨fun job hjob => ?_, hquiet.2⟩
    rcases hpending job hjob with hjob | ⟨htracking, _⟩
    · exact hquiet.1 job hjob
    · rw [tracking, locked, hp] at htracking
      cases htracking

section Unlock

variable {impl : Server} {shouldPushChange : Bool} {job : ServerJob}

/-- A call leaves its own job to be pushed, if any. -/
theorem mem_pending_unlock (hcall : (p.calls ()).jobs = []) (hqueue : impl.queue = p.impl.queue)
    {job' : ServerJob} : job' ∈ (p.unlock () impl shouldPushChange job).pending ↔
      job' ∈ p.pending ∨ shouldPushChange = true ∧ job' = job := by
  simp only [mem_pending, unlock, Function.update_self, hqueue, hcall, List.not_mem_nil, false_or]
  cases shouldPushChange with
  | false => simp [ServerCall.jobs]
  | true =>
    simp only [if_true, ServerCall.jobs, List.mem_singleton, true_and, or_assoc, or_comm,
      or_left_comm]

theorem subscriptions_unlock (hcall : (p.calls ()).jobs = []) (hqueue : impl.queue = p.impl.queue)
    (hconnected : impl.connected = p.impl.connected) (hjob : job ≠ .subscribe) :
    (p.unlock () impl shouldPushChange job).subscriptions = p.subscriptions := by
  have htracking : (p.unlock () impl shouldPushChange job).tracking = p.tracking := by
    rw [tracking, tracking, unlock, hconnected]
    rfl
  rw [subscriptions, subscriptions, htracking, count_pending, count_pending]
  simp only [unlock, Function.update_self, hqueue, hcall]
  cases shouldPushChange with
  | false => rfl
  | true => simp [ServerCall.jobs, hjob]

private theorem jobs_unlock (hcall : (p.calls ()).jobs = []) (hqueue : impl.queue = p.impl.queue) :
    (p.unlock () impl shouldPushChange job).jobs =
      p.jobs ++ if shouldPushChange then job.feedJob.toList else [] := by
  simp only [jobs_eq, unlock, Function.update_self, hqueue, hcall]
  cases shouldPushChange with
  | false => simp [ServerCall.jobs]
  | true =>
    cases hjob : job.feedJob with
    | none => simp [ServerCall.jobs, hjob]
    | some job' => simp [ServerCall.jobs, hjob]

/-- A call that adds nothing leaves the section. -/
theorem follows_unlock (h : p.Owns known) (hcall : (p.calls ()).jobs = [])
    (hqueue : impl.queue = p.impl.queue) (hupdates : p.impl.modelImpl.Updates impl.modelImpl)
    (hseed : impl.seed = p.impl.seed) (hconnected : impl.connected = p.impl.connected)
    (hitems : ∀ k item, impl.find? k = some item →
      known k item.currentValue.type ∧ item.variantType = item.currentValue.type ∧ item.uri ≠ [])
    (hjob : shouldPushChange = true →
      p.impl.connected = true ∧ ∃ k t, job.id? = some k ∧ known k t)
    (hsubscribe : job ≠ .subscribe) :
    Follows known known 0 p (p.unlock () impl shouldPushChange job) where
  owns := by
    refine h.update rfl hupdates hseed hconnected hitems ?_ ?_ h.received
    · intro alloc new itemIsCompatible hadding
      replace hadding : (if shouldPushChange = true then ServerCall.pushing job else .idle) =
        .adding alloc new itemIsCompatible := hadding
      split at hadding <;> cases hadding
    · intro job' hjob'
      rcases (mem_pending_unlock hcall hqueue).mp hjob' with hjob' | ⟨hpush, rfl⟩
      · exact .inl hjob'
      · obtain ⟨hp, hid⟩ := hjob hpush
        exact .inr ⟨by rw [tracking, hp]; rfl, hid⟩
  types := fun _ _ hk => hk
  subscriptions := Nat.le_of_eq (subscriptions_unlock hcall hqueue hconnected hsubscribe)
  view := by
    intro k t _ hk
    rw [view, ne_eq, ModelImpl.view_eq_none] at hk ⊢
    obtain ⟨item', hitem'⟩ := Option.ne_none_iff_exists'.mp hk
    obtain ⟨item, hitem⟩ := hupdates.mem_of_mem hitem'
    rw [hitem]
    exact Option.some_ne_none item
  connected := fun hp => hconnected.trans hp

private theorem Feeds.unlock_same (h : p.Feeds copy sent token) (hcall : (p.calls ()).jobs = [])
    (hqueue : impl.queue = p.impl.queue) (hcontext : impl.toContext = p.impl.toContext) :
    (p.unlock () impl false job).Feeds copy sent token := by
  have htracking : (p.unlock () impl false job).tracking = p.tracking :=
    congrArg (fun context : Context => context.connected || p.locked) hcontext
  have hview : (p.unlock () impl false job).view = p.view :=
    congrArg (fun context : Context => context.modelImpl.view) hcontext
  have hjobs : (p.unlock () impl false job).jobs = p.jobs := by
    rw [jobs_unlock hcall hqueue]
    exact List.append_nil _
  constructor
  · intro hp
    rw [hjobs, hview]
    exact (h.tracks (htracking ▸ hp)).mono fun k => Or.imp_left fun hk =>
      (mem_pending_unlock hcall hqueue).mpr (.inl hk)
  · exact fun hp => h.quiet (htracking ▸ hp)

/-- The client is told of what a section has done, if it is told of anything. -/
theorem Feeds.unlock (h : p.Feeds copy sent token) (hlocked : p.locked = false)
    (hcall : (p.calls ()).jobs = []) (hqueue : impl.queue = p.impl.queue)
    (hconnected : impl.connected = p.impl.connected)
    (htracks : ∀ token', (∀ k, p.Token k ∨ token k → token' k) → (∀ k, job = .change k → token' k) →
      Tracks Declaration.uri copy p.view (sent ++ p.hand) p.jobs (fun k => p.Token k ∨ token k) →
      Tracks Declaration.uri copy impl.modelImpl.view (sent ++ p.hand) (p.jobs ++ job.feedJob.toList)
        token') :
    (p.unlock () impl p.impl.connected job).Feeds copy sent token := by
  have htracking : (p.unlock () impl p.impl.connected job).tracking = p.tracking := by
    rw [tracking, tracking, ServerProcess.unlock, hconnected]
    rfl
  constructor
  · intro hp
    rw [htracking] at hp
    have hpush : p.impl.connected = true := (tracking_eq hlocked).symm.trans hp
    rw [jobs_unlock hcall hqueue, if_pos hpush]
    refine htracks _ ?_ ?_ (h.tracks hp)
    · exact fun k => Or.imp_left fun hk => (mem_pending_unlock hcall hqueue).mpr (.inl hk)
    · exact fun k hjob => .inl ((mem_pending_unlock hcall hqueue).mpr (.inr ⟨hpush, hjob.symm⟩))
  · exact fun hp => h.quiet (htracking ▸ hp)

end Unlock

variable {id : TweakId}

/-- An item is removed, by a call that is going to push the removal. -/
theorem follows_removeItem (h : p.Owns known) (hstep : p.removeItem () id = some p') :
    Follows known known 0 p p' ∧ (p.Feeds copy sent token → p'.Feeds copy sent token) := by
  unfold removeItem at hstep
  split at hstep
  · next hcall hlocked =>
      replace hcall : (p.calls ()).jobs = [] := by rw [hcall]; rfl
      simp only [Server.removeItemLocked, Context.removeItemSection, Option.some.injEq] at hstep
      cases hitem : p.impl.find? id with
      | none =>
        simp only [hitem] at hstep
        subst hstep
        exact ⟨follows_unlock h hcall rfl .same rfl rfl h.items (by rintro ⟨⟩)
          (by rintro ⟨⟩), fun hfeeds => hfeeds.unlock_same hcall rfl rfl⟩
      | some item =>
        obtain ⟨hknown, htype, _⟩ := h.items id item hitem
        simp only [hitem, htype, h.compatible hitem, Bool.true_and] at hstep
        subst hstep
        constructor
        · refine follows_unlock h hcall rfl (.removed id item hitem) rfl rfl ?_ ?_ ?_
          · intro k item' hk
            apply h.items
            replace hk : (p.impl.modelImpl.removeItem item id).model.find? k = some item' := hk
            rw [ModelImpl.removeItem_model] at hk
            split at hk
            · cases hk
            · exact hk
          · exact fun hpush => ⟨hpush, id, _, rfl, hknown⟩
          · rintro ⟨⟩
        · intro hfeeds
          refine hfeeds.unlock hlocked hcall rfl rfl ?_
          intro token' htoken _ htracks
          have hthere : p.view id ≠ none := by
            rw [view, ModelImpl.view_of_find hitem]
            exact Option.some_ne_none _
          rw [ModelImpl.view_removeItem]
          exact (htracks.erase hthere).mono htoken
  · cases hstep

variable {value : Variant}

private theorem Owns.setCurrentValue (h : p.Owns known) {impl : Server}
    (himpl : impl.modelImpl = p.impl.modelImpl.setCurrentValue id value)
    (hvalue : known id value.type) (k : TweakId) (item : Item) (hk : impl.find? k = some item) :
    known k item.currentValue.type ∧ item.variantType = item.currentValue.type ∧ item.uri ≠ [] := by
  rw [Context.find?, himpl, ModelImpl.setCurrentValue_model] at hk
  split at hk
  · next hkid =>
      obtain ⟨old, hold, rfl⟩ := Option.map_eq_some_iff.mp hk
      obtain ⟨hknown, htype, huri⟩ := h.items id old hold
      rw [hkid]
      exact ⟨hvalue, htype.trans (h.types.unique hknown hvalue), huri⟩
  · exact h.items k item hk

/-- A value is replaced, by a call that is going to push the change. -/
theorem follows_replaceCurrentValue (h : p.Owns known)
    (hvalue : ∀ item, p.impl.find? id = some item → value.type = item.currentValue.type)
    (hstep : p.replaceCurrentValue () id value = some p') :
    Follows known known 0 p p' ∧ (p.Feeds copy sent token → p'.Feeds copy sent token) := by
  unfold replaceCurrentValue at hstep
  split at hstep
  · next hcall hlocked =>
      replace hcall : (p.calls ()).jobs = [] := by rw [hcall]; rfl
      simp only [Server.replaceLocked, Context.itemReplaceCurrentValue, Option.some.injEq] at hstep
      have hsame : Follows known known 0 p (p.unlock () p.impl false (.change id)) ∧
          (p.Feeds copy sent token → (p.unlock () p.impl false (.change id)).Feeds copy sent token) :=
        ⟨follows_unlock h hcall rfl .same rfl rfl h.items (by rintro ⟨⟩)
          (by rintro ⟨⟩), fun hfeeds => hfeeds.unlock_same hcall rfl rfl⟩
      cases hitem : p.impl.find? id with
      | none =>
        simp only [hitem] at hstep
        subst hstep
        exact hsame
      | some item =>
        by_cases hequal : tweakVariantIsEqual item.currentValue value = true
        · simp only [hitem, hequal, if_true] at hstep
          subst hstep
          exact hsame
        · obtain ⟨hknown, _, _⟩ := h.items id item hitem
          replace hvalue : known id value.type := hvalue item hitem ▸ hknown
          simp only [hitem, hequal, Bool.false_eq_true, if_false, h.compatible hitem,
            Bool.true_and] at hstep
          subst hstep
          constructor
          · refine follows_unlock h hcall rfl (.value id value) rfl rfl ?_ ?_ ?_
            · exact h.setCurrentValue rfl hvalue
            · exact fun hpush => ⟨hpush, id, _, rfl, hknown⟩
            · rintro ⟨⟩
          · intro hfeeds
            refine hfeeds.unlock hlocked hcall rfl rfl ?_
            intro token' htoken hchange htracks
            show Tracks _ _ _ _ (p.jobs ++ []) _
            rw [ModelImpl.view_setCurrentValue, List.append_nil]
            exact htracks.modify value htoken (hchange id rfl)
  · cases hstep

/-- The value of a message replaces the one of the item, and is going to be sent back. -/
theorem follows_receive_changeItem (h : p.Owns known) (hvalue : known id value.type)
    (htracking : p.view id ≠ none → p.tracking = true)
    (hstep : p.receive (.changeItem id value) = some p') :
    Follows known known 0 p p' ∧ ∀ token token' : TweakId → Prop,
      (∀ k, token k → k = id ∨ token' k) →
        p.Feeds copy sent token → p'.Feeds copy sent token' := by
  cases hreceiver : p.receiver with
  | pushing job =>
    simp only [receive, hreceiver] at hstep
    cases hstep
  | idle =>
    simp only [receive, hreceiver] at hstep
    split at hstep
    · cases hstep -- the worker has the lock
    · cases hitem : p.impl.find? id with
      | none =>
        simp only [Server.changeItemLocked, Context.changeItemSection, hitem] at hstep
        cases hstep -- the null pointer
      | some item =>
        obtain ⟨hknown, _, _⟩ := h.items id item hitem
        have hid : item.id = id := (h.consistent.bijective.ids id item hitem).1
        have hcheck : checkValueCompatibility item.currentValue value = true :=
          checkValueCompatibility_scalar (h.types.scalar hknown) (h.types.unique hknown hvalue)
        have hp : p.tracking = true := by -- what the client has, the server tells it about
          apply htracking
          rw [view, ModelImpl.view_of_find hitem]
          exact Option.some_ne_none _
        simp only [Server.changeItemLocked, Context.changeItemSection, hitem, hcheck, if_true,
          Option.map_some, hid, Option.some.injEq] at hstep
        subst hstep
        have hmem (job : ServerJob) : job ∈ pending { p with
            impl := { p.impl with modelImpl := p.impl.modelImpl.setCurrentValue id value }
            receiver := .pushing (.change id) } ↔ job ∈ p.pending ∨ job = .change id := by
          simp only [mem_pending, hreceiver, ServerReceiver.jobs, List.mem_singleton,
            List.not_mem_nil, or_false, or_assoc]
        refine ⟨⟨?_, fun _ _ hk => hk, ?_, ?_, fun hp => hp⟩, ?_⟩
        · refine h.update rfl (.value id value) rfl rfl ?_ (fun _ _ _ hcall => hcall) ?_ ?_
          · exact h.setCurrentValue rfl hvalue
          · intro job hjob
            refine ((hmem job).mp hjob).imp_right fun hjob => ?_
            exact ⟨hp, id, _, hjob ▸ rfl, hknown⟩
          · intro job hjob
            rw [List.mem_singleton.mp hjob]
            rfl
        · have hcount : List.count ServerJob.subscribe [ServerJob.change id] = 0 := rfl
          rw [subscriptions, subscriptions, count_pending, count_pending]
          simp only [hreceiver, ServerReceiver.jobs, List.count_nil, hcount]
          exact Nat.le_refl _
        · intro k t _ hk
          replace hk : (p.impl.modelImpl.setCurrentValue id value).view k ≠ none := hk
          rw [ModelImpl.view_setCurrentValue, ne_eq, ← View.outline_eq_none, View.outline_modify,
            View.outline_eq_none] at hk
          exact hk
        · intro token token' htoken hfeeds
          constructor
          · intro _
            have hnew : Token { p with
                impl := { p.impl with modelImpl := p.impl.modelImpl.setCurrentValue id value }
                receiver := .pushing (.change id) } id := (hmem _).mpr (.inr rfl)
            have hkept : ∀ k, p.Token k ∨ token k → Token { p with
                impl := { p.impl with modelImpl := p.impl.modelImpl.setCurrentValue id value }
                receiver := .pushing (.change id) } k ∨ token' k := by
              rintro k (hk | hk)
              · exact .inl ((hmem _).mpr (.inl hk))
              · -- the token of the client becomes one of the server
                rcases htoken k hk with rfl | hk
                · exact .inl hnew
                · exact .inr hk
            have htracks := (hfeeds.tracks hp).modify value hkept (.inl hnew)
            have hview : (p.impl.modelImpl.setCurrentValue id value).view = p.view.modify id value :=
              ModelImpl.view_setCurrentValue ..
            rw [← hview] at htracks
            exact htracks
          · intro hp'
            cases hp.symm.trans hp'

/-- The id of a new item is in no job and no message. -/
theorem Owns.seed_fresh (h : p.Owns known) (hjob : job ∈ p.pending) :
    job.id? ≠ some p.impl.seed := by
  intro hid
  obtain ⟨t, ht⟩ := h.named job hjob _ hid
  exact absurd (h.types.lt ht) (Nat.lt_irrefl _)

private theorem mem_jobs {job : Job TweakId} (h : job ∈ p.jobs) :
    (∃ k ∈ p.worker.walk, job = .append k) ∨ ∃ job' ∈ p.pending, job'.feedJob = some job := by
  rw [jobs, List.mem_append] at h
  rcases h with h | h
  · obtain ⟨k, hk, rfl⟩ := List.mem_map.mp h
    exact .inl ⟨k, hk, rfl⟩
  · obtain ⟨job', hjob', hfeed⟩ := List.mem_filterMap.mp h
    exact .inr ⟨job', List.mem_append_left _ hjob', hfeed⟩

/-- The state after an item was added. -/
theorem Owns.added (h : p.Owns known) (hcall : (p.calls ()).jobs = [])
    (hscalar : new.initialValue.type.isBoolOrInteger = true) (hnamed : new.uri ≠ [])
    (huri : p.impl.modelImpl.index.find? new.uri = none) :
    (p.unlock () (p.impl.added new) p.impl.connected (.append p.impl.seed)).Owns
      (declare known p.impl.seed new.initialValue.type) where
  types := h.types.declare hscalar
  consistent := h.consistent.added huri
  items := by
    intro k item hk
    replace hk : (p.impl.modelImpl.model.insert p.impl.seed _).find? k = some item := hk
    rw [Table.find?_insert h.consistent.find?_seed] at hk
    split at hk
    · next hkseed =>
        cases hk
        exact ⟨.inr ⟨hkseed, rfl⟩, rfl, hnamed⟩
    · exact (h.items k item hk).imp_left .inl
  adding := by
    intro alloc new' itemIsCompatible hadding
    replace hadding : (if p.impl.connected = true then ServerCall.pushing _ else .idle) =
      .adding alloc new' itemIsCompatible := hadding
    split at hadding <;> cases hadding
  sends := fun message hmem => (h.sends message hmem).mono fun _ _ => .inl
  named := by
    intro job hjob k hk -- the new job is about the new item
    rcases (mem_pending_unlock hcall rfl).mp hjob with hjob | ⟨_, rfl⟩
    · obtain ⟨t, ht⟩ := h.named job hjob k hk
      exact ⟨t, .inl ht⟩
    · cases hk
      exact ⟨_, .inr ⟨rfl, rfl⟩⟩
  received := h.received
  quiet := by
    intro hp
    obtain ⟨hjobs, hhand⟩ := h.quiet hp
    refine ⟨fun job hjob => ?_, hhand⟩
    rcases (mem_pending_unlock hcall rfl).mp hjob with hjob | ⟨hpush, _⟩
    · exact hjobs job hjob
    · replace hp : (p.impl.connected || p.locked) = false := hp
      rw [hpush] at hp
      cases hp

/-- No memory was left, or the uri is in use. An id may have been used up. -/
theorem Owns.notAdded (h : p.Owns known) (hcall : (p.calls ()).jobs = []) {seed : TweakId}
    (hseed : p.impl.seed ≤ seed) :
    (p.unlock () { p.impl with seed := seed } false job).Owns known where
  types := h.types.mono hseed
  consistent := h.consistent.updates .same hseed
  items := h.items
  adding := fun _ _ _ hadding => nomatch hadding
  sends := h.sends
  named := by
    intro job' hjob' k hk
    rcases (mem_pending_unlock hcall rfl).mp hjob' with hjob' | ⟨hpush, _⟩
    · exact h.named job' hjob' k hk
    · cases hpush
  received := h.received
  quiet := by
    intro hp
    obtain ⟨hjobs, hhand⟩ := h.quiet hp
    refine ⟨fun job' hjob' => ?_, hhand⟩
    rcases (mem_pending_unlock hcall rfl).mp hjob' with hjob' | ⟨hpush, _⟩
    · exact hjobs job' hjob'
    · cases hpush

/-- An item is added, by a call that is going to push it. -/
theorem follows_add (h : p.Owns known) {alloc : Allocations} {itemIsCompatible : Bool}
    (hcall : p.calls () = .adding alloc new itemIsCompatible)
    (hsent : ∀ k, .remove k ∈ sent ++ p.hand → ∃ t, known k t)
    (hstep : p.proceed () drop = some p') :
    ∃ known', Follows known known' 0 p p' ∧ (p.Feeds copy sent token → p'.Feeds copy sent token) := by
  obtain ⟨hscalar, hnamed, hcompatible⟩ := h.adding alloc new itemIsCompatible hcall
  have hjobs : (p.calls ()).jobs = [] := by rw [hcall]; rfl
  simp only [proceed, hcall] at hstep
  split at hstep
  · cases hstep
  · next hlocked =>
      replace hlocked : p.locked = false := Bool.eq_false_iff.mpr hlocked
      rw [Server.addItemLocked_eq h.consistent, hcompatible, Bool.true_and] at hstep
      split at hstep
      · next hadd =>
          simp only [Option.some.injEq] at hstep
          subst hstep
          have hnew : p.impl.find? p.impl.seed = none := h.consistent.find?_seed
          have hview : (p.impl.added new).modelImpl.view =
              Function.update p.view p.impl.seed (some (new.withId p.impl.seed).entry) :=
            ModelImpl.view_insert (a := new.withId p.impl.seed) hnew _
          have hlt {k : TweakId} {t : VariantType} (hk : known k t) : k ≠ p.impl.seed :=
            Nat.ne_of_lt (h.types.lt hk)
          refine ⟨declare known p.impl.seed new.initialValue.type,
            ⟨h.added hjobs hscalar hnamed hadd.1, fun _ _ => .inl, ?_, ?_, fun hp => hp⟩, ?_⟩
          · exact Nat.le_of_eq (subscriptions_unlock hjobs rfl rfl (by rintro ⟨⟩))
          · intro k t hk hthere
            replace hthere : (p.impl.added new).modelImpl.view k ≠ none := hthere
            rw [hview, Function.update_of_ne (hlt hk)] at hthere
            exact hthere
          · intro hfeeds
            refine hfeeds.unlock hlocked hjobs rfl rfl ?_
            intro token' htoken _ htracks
            have hseed (job : Job TweakId) (hjob : job ∈ p.jobs) :
                job ≠ .append p.impl.seed ∧ job ≠ .remove p.impl.seed := by
              rcases mem_jobs hjob with ⟨k, hk, _⟩ | ⟨job', hjob', hfeed⟩
              · -- a walk would hold the lock
                unfold ServerWorker.walk at hk
                unfold locked at hlocked
                cases hworker : p.worker <;> rw [hworker] at hk hlocked <;> simp at hk hlocked
              · have hfresh := h.seed_fresh hjob'
                constructor <;> rintro rfl <;> cases job' <;> cases hfeed <;> exact hfresh rfl
            rw [hview]
            refine (htracks.insert _ (ModelImpl.view_eq_none.mpr hnew) ?_ ?_ ⟨?_, ?_⟩).mono htoken
            · intro k entry hk huri
              obtain ⟨item, hitem, rfl⟩ := ModelImpl.view_eq_some.mp hk
              have hindexed := h.consistent.bijective.find?_uri hitem
              replace huri : item.uri = new.uri := huri
              rw [huri, hadd.1] at hindexed
              cases hindexed
            · exact fun hmem => (hseed _ hmem).1 rfl
            · intro hmem
              obtain ⟨t, ht⟩ := hsent _ hmem
              exact hlt ht rfl
            · exact fun hmem => (hseed _ hmem).2 rfl
      · simp only [Option.some.injEq] at hstep
        subst hstep
        refine ⟨known, ⟨h.notAdded hjobs (p.impl.seed_le_refused new.uri), fun _ _ hk => hk, ?_,
          fun _ _ _ hk => hk, fun hp => hp⟩, fun hfeeds => hfeeds.unlock_same hjobs rfl rfl⟩
        exact Nat.le_of_eq (subscriptions_unlock hjobs rfl rfl (by rintro ⟨⟩))

end ServerProcess

end TweakTool.App
