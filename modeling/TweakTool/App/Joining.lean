import TweakTool.App.Service

/-! # A client joins while strings and vectors are added

One server, whose application adds strings and vectors from any number of threads, and one client
that connects, announces that it can handle them and subscribes. `tweak_app_server_add_item` looks at
the features of the client before it takes the lock, and at the connected flag under it. -/

namespace TweakTool

def VariantType.isText : VariantType → Bool
  | .string | .vector _ => true
  | .null | .bool | .num _ => false

theorem tweakVariantIsEqual_self {v : Variant} (h : v.type.isText = true) :
    tweakVariantIsEqual v v = true := by
  cases v with
  | string text => simp [tweakVariantIsEqual]
  | vector t buffer => simp [tweakVariantIsEqual]
  | null | bool b | num t bits => cases h

namespace App

open TweakTool.Lib

structure Joining (ι : Type) where
  server : ServerProcess ι
  client : ClientProcess Unit
  toClient : List ServerMessage
  toServer : List ClientMessage
  taken : Option ServerJob -- the job that the worker of the server has taken last
  subscribed : Bool -- the server has executed a subscribe job
  aborted : Option Fatal -- how the client has ended

namespace Joining

variable {ι : Type}

def init : Joining ι := ⟨.init, .init, [], [], none, false, none⟩

inductive Action (ι : Type) where
  | addItem (thread : ι) (alloc : Allocations) (new : NewItem)
  | application (thread : ι) (drop : Bool)
  | serverConnected
  | serverReceive
  | serverReceiver (drop : Bool)
  | serverWorker
  | clientConnection (drop : Bool)
  | clientReceive
  | clientWorker

def step [DecidableEq ι] (j : Joining ι) (action : Action ι) : Option (Joining ι) :=
  if j.aborted.isSome then none
  else
    match action with
    | .addItem thread alloc new =>
      if new.initialValue.type.isText then
        (j.server.addItem thread alloc new).map fun p => { j with server := p }
      else none
    | .application thread drop => (j.server.proceed thread drop).map fun p => { j with server := p }
    | .serverConnected => some { j with server := j.server.connectionState true }
    | .serverReceive =>
      match j.toServer with
      | [] => none
      | message :: toServer =>
        (j.server.receive message).map fun p => { j with server := p, toServer := toServer }
    | .serverReceiver drop => (j.server.receiverPush drop).map fun p => { j with server := p }
    | .serverWorker =>
      j.server.work.map fun (message, p) =>
        { j with
          server := p
          toClient := j.toClient ++ message.toList
          taken := j.server.taking j.taken
          subscribed := j.subscribed || j.server.endsSubscribe p j.taken }
    | .clientConnection drop => (j.client.connect drop).map fun c => { j with client := c }
    | .clientReceive =>
      match j.toClient with
      | [] => none
      | message :: toClient =>
        match j.client.receive message with
        | .ok c => some { j with client := c, toClient := toClient }
        | .error fatal => some { j with toClient := toClient, aborted := some fatal }
    | .clientWorker =>
      j.client.work.map fun (message, c) =>
        { j with client := c, toServer := j.toServer ++ message.toList }

structure Quiescent (j : Joining ι) : Prop where
  serverQueue : j.server.impl.queue = []
  serverWorker : j.server.worker = .idle
  serverReceiver : j.server.receiver = .idle
  serverCalls : ∀ thread, j.server.calls thread = .idle
  clientQueue : j.client.impl.queue = []
  clientWorker : j.client.worker = .idle
  toClient : j.toClient = []
  toServer : j.toServer = []

/-- Once all is quiet after a subscribe job, the client has the items of the server. -/
def Arrived (j : Joining ι) : Prop :=
  j.subscribed = true → j.Quiescent → ∀ k item, j.server.impl.find? k = some item →
    ∃ item', j.client.impl.find? k = some item' ∧ item'.toAddItem = item.toAddItem

/-- Items have uris; the server knows of the connection when the worker begins to walk; and an item
that was found to be incompatible is not added once the flag is set. -/
def Careful (j : Joining ι) : Action ι → Prop
  | .addItem _ _ new => new.uri ≠ []
  | .application thread _ =>
    match j.server.calls thread with
    | .adding _ _ itemIsCompatible => itemIsCompatible = true ∨ j.server.impl.connected = false
    | .idle | .pushing _ => True
  | .serverWorker =>
    match j.server.worker with
    | .subscribing => j.server.impl.remotePeerFeatures.vectors = true
    | _ => True
  | _ => True

instance (j : Joining ι) : DecidablePred j.Careful
  | .addItem _ _ _ => inferInstanceAs (Decidable (_ ≠ _))
  | .application _ _ => by
    unfold Careful
    dsimp only
    split <;> infer_instance
  | .serverWorker => by
    unfold Careful
    dsimp only
    split <;> infer_instance
  | .serverConnected | .serverReceive | .serverReceiver _ | .clientConnection _ | .clientReceive
  | .clientWorker => .isTrue trivial

end Joining

/-! ## The server -/

/-- What is known of an item: the endpoint accepts it and it has its first value. -/
structure Item.Textual (item : Item) : Prop where
  named : item.uri ≠ []
  text : item.variantType.isText = true
  default : item.defaultValue.type = item.variantType
  current : item.currentValue = item.defaultValue

def ServerCall.Textual : ServerCall → Prop
  | .adding _ new _ => new.initialValue.type.isText = true ∧ new.uri ≠ []
  | .idle | .pushing _ => True

/-- The worker is sending an item of the model. -/
def ServerMessage.Copies (m : ModelImpl) : ServerMessage → Prop
  | .addItem a => ∃ k item, m.model.find? k = some item ∧ item.toAddItem = a
  | .announceFeatures _ => True
  | .changeItem _ _ | .removeItem _ => False

theorem ServerMessage.Copies.mono {m m' : ModelImpl} {message : ServerMessage}
    (h : message.Copies m)
    (hkeeps : ∀ k item, m.model.find? k = some item → m'.model.find? k = some item) :
    message.Copies m' := by
  cases message with
  | addItem a =>
    obtain ⟨k, item, hitem, ha⟩ := h
    exact ⟨k, item, hkeeps k item hitem, ha⟩
  | announceFeatures features => trivial
  | changeItem id value | removeItem id => exact h

private theorem Features.compatible_of_text {features : Features} (h : features.vectors = true)
    {t : VariantType} (ht : t.isText = true) : features.checkTypeCompatibility t = true := by
  cases t with
  | string | vector t => exact h
  | null | bool | num t => cases ht

namespace ServerWorker

def isWalking : ServerWorker → Bool
  | .walking _ => true
  | .idle | .running _ | .announced | .subscribing | .sending _ => false

/-- The worker is about to send the item, or will be told to send all items. -/
def Handles (worker : ServerWorker) (connected : Bool) (k : TweakId) (item : Item) : Prop :=
  .addItem item.toAddItem ∈ worker.hand ∨ .append k ∈ worker.jobs ∨ k ∈ worker.walk ∨
    connected = false ∧ worker.isWalking = false

variable {connected : Bool} {k : TweakId} {item : Item}

@[simp] theorem handles_idle : idle.Handles connected k item ↔ connected = false := by
  simp [Handles, hand, jobs, walk, isWalking]

@[simp] theorem handles_running {job : ServerJob} :
    (running job).Handles connected k item ↔ .append k = job ∨ connected = false := by
  simp [Handles, hand, jobs, walk, isWalking]

@[simp] theorem handles_announced : announced.Handles connected k item ↔ connected = false := by
  simp [Handles, hand, jobs, walk, isWalking]

@[simp] theorem handles_subscribing : subscribing.Handles connected k item ↔ connected = false := by
  simp [Handles, hand, jobs, walk, isWalking]

@[simp] theorem handles_walking {rest : List (Text × TweakId)} :
    (walking rest).Handles connected k item ↔ k ∈ rest.map Prod.snd := by
  simp [Handles, hand, jobs, walk, isWalking]

@[simp] theorem handles_sending {message : ServerMessage} :
    (sending message).Handles connected k item ↔
      .addItem item.toAddItem = message ∨ connected = false := by
  simp [Handles, hand, jobs, walk, isWalking]

end ServerWorker

namespace ServerProcess

variable {ι : Type} {p p' : ServerProcess ι}

/-- The server has texts only, and nothing to do but to send them. -/
structure Prepared (p : ServerProcess ι) : Prop where
  consistent : p.impl.Consistent
  items : ∀ k item, p.impl.find? k = some item → item.Textual
  calls : ∀ i, (p.calls i).Textual
  jobs : ∀ job, p.Due job → job = .subscribe ∨ ∃ k, job = .append k
  hand : ∀ message ∈ p.worker.hand, message.Copies p.impl.modelImpl
  walk : p.worker.isWalking = true → p.impl.remotePeerFeatures.vectors = true

theorem prepared_init : (init : ServerProcess ι).Prepared where
  consistent := Server.consistent_init
  items k item h := by cases h
  calls i := trivial
  jobs job h := absurd h (not_due_init job)
  hand message h := by cases h
  walk h := by cases h

/-- The item is still going to be sent. -/
def Covers (p : ServerProcess ι) (k : TweakId) (item : Item) : Prop :=
  p.worker.Handles p.impl.connected k item ∨ p.Due (.append k)

theorem locked_eq (p : ServerProcess ι) : p.locked = p.worker.isWalking := by
  rw [locked]
  cases p.worker <;> rfl

/-- What a step sends, and what it leaves to be sent. -/
structure Advances (p : ServerProcess ι) (message : Option ServerMessage) (p' : ServerProcess ι) :
    Prop where
  prepared : p'.Prepared
  sent : ∀ m ∈ message, m.Copies p'.impl.modelImpl
  keeps : ∀ k item, p.impl.find? k = some item → p'.impl.find? k = some item
  covers : ∀ k item, p'.impl.find? k = some item →
    p.impl.find? k = none ∨ p.Covers k item →
      p'.Covers k item ∨ message = some (.addItem item.toAddItem)
  connected : p.impl.connected = true → p'.impl.connected = true
  walked : p.worker.isWalking = true → p'.worker.isWalking = false → p'.impl.connected = true

/-- An item with an id, a uri and a text is accepted by the endpoint. -/
theorem accepted_of_textual {item : Item} {k : TweakId} (h : item.Textual) (hp : p.impl.Consistent)
    (hitem : p.impl.find? k = some item) : (ServerMessage.addItem item.toAddItem).accepted = true := by
  obtain ⟨hid, hk⟩ := hp.bijective.ids k item hitem
  have htype : item.currentValue.type ≠ .null := by
    rw [h.current, h.default]
    intro hnull
    have htext := h.text
    rw [hnull] at htext
    cases htext
  simp [ServerMessage.accepted, hid, hk, h.named, htype]

/-- The model stays as it is, and so do the hand of the worker and the walk. -/
theorem Prepared.same (h : p.Prepared) (hmodel : p'.impl.modelImpl = p.impl.modelImpl)
    (hseed : p'.impl.seed = p.impl.seed) (hcalls : ∀ i, (p'.calls i).Textual)
    (hjobs : ∀ job, p'.Due job → p.Due job ∨ job = .subscribe)
    (hhand : ∀ message ∈ p'.worker.hand, message.Copies p.impl.modelImpl)
    (hwalk : p'.worker.isWalking = true → p'.impl.remotePeerFeatures.vectors = true) :
    p'.Prepared where
  consistent := h.consistent.updates (hmodel ▸ .same) (Nat.le_of_eq hseed.symm)
  items := by
    intro k item hitem
    rw [Context.find?, hmodel] at hitem
    exact h.items k item hitem
  calls := hcalls
  jobs := by
    intro job hjob
    rcases hjobs job hjob with hdue | hsubscribe
    · exact h.jobs job hdue
    · exact .inl hsubscribe
  hand := hmodel ▸ hhand
  walk := hwalk

/-- A step that neither the worker nor the model takes part in. -/
theorem Advances.of_same (hprepared : p'.Prepared) (hmodel : p'.impl.modelImpl = p.impl.modelImpl)
    (hconnected : p'.impl.connected = p.impl.connected) (hworker : p'.worker = p.worker)
    (hdue : ∀ k, p.Due (.append k) → p'.Due (.append k)) : p.Advances none p' where
  prepared := hprepared
  sent m hm := by cases hm
  keeps k item hitem := by
    rw [Context.find?, hmodel]
    exact hitem
  covers := by
    intro k item hitem hcovers
    rw [Context.find?, hmodel] at hitem
    refine .inl ?_
    rcases hcovers with hnone | hhandles | hjob
    · cases hnone.symm.trans hitem
    · rw [Covers, hworker, hconnected]
      exact .inl hhandles
    · exact .inr (hdue k hjob)
  connected h := hconnected ▸ h
  walked h h' := absurd h (Bool.eq_false_iff.mp (hworker ▸ h'))

section Calls

variable [DecidableEq ι] {i : ι} {job : ServerJob}

/-- Other calls do not notice. -/
theorem Due.of_call {call : ServerCall} (h : p.Due job) (hworker : p'.worker = p.worker)
    (hqueue : p'.impl.queue = p.impl.queue) (hreceiver : p'.receiver = p.receiver)
    (hcalls : p'.calls = Function.update p.calls i call) (hidle : (p.calls i).jobs = []) :
    p'.Due job := by
  rw [Due, hworker, hqueue, hreceiver, hcalls]
  rcases h with h | h | h | ⟨j, h⟩
  · exact .inl h
  · exact .inr (.inl h)
  · exact .inr (.inr (.inl h))
  · have hj : j ≠ i := by
      rintro rfl
      rw [hidle] at h
      cases h
    refine .inr (.inr (.inr ⟨j, ?_⟩))
    rw [Function.update_of_ne hj]
    exact h

variable {alloc : Allocations} {new : NewItem}

/-- A call of the application begins. -/
theorem advances_addItem (h : p.Prepared) (htext : new.initialValue.type.isText = true)
    (hnamed : new.uri ≠ []) (hstep : p.addItem i alloc new = some p') : p.Advances none p' := by
  obtain ⟨hcall, rfl⟩ := addItem_cases hstep
  refine .of_same (h.same rfl rfl (calls_update h.calls ⟨htext, hnamed⟩) ?_ h.hand h.walk)
    rfl rfl rfl ?_
  · intro job hdue
    rcases Due.call (p := p) hdue rfl rfl rfl rfl with hdue | hnew
    · exact .inl hdue
    · cases hnew
  · intro k hdue
    exact hdue.of_call rfl rfl rfl rfl (by rw [hcall]; rfl)

variable {itemIsCompatible : Bool}

/-- A new item is pushed if it is compatible; otherwise the flag is not set, and the client is going
to be told of all items. -/
theorem advances_added (h : p.Prepared) (call : p.calls i = .adding alloc new itemIsCompatible)
    (free : p.locked = false) (hcompatible : itemIsCompatible = true ∨ p.impl.connected = false)
    (huri : p.impl.modelImpl.index.find? new.uri = none) :
    p.Advances none (p.unlock i (p.impl.added new) (itemIsCompatible && p.impl.connected)
      (.append p.impl.seed)) := by
  have hfind := Server.find?_added h.consistent new
  have hkeeps (k : TweakId) (item : Item) (hitem : p.impl.find? k = some item) :
      (p.impl.added new).find? k = some item := by
    have hk : k ≠ p.impl.seed := Nat.ne_of_lt (h.consistent.generated k item hitem)
    rw [hfind, if_neg hk]
    exact hitem
  rw [locked_eq] at free
  refine ⟨⟨h.consistent.added huri, ?_, ?_, ?_, ?_, h.walk⟩, ?_, hkeeps, ?_,
    fun hconnected => hconnected, fun hwalking => absurd hwalking (Bool.eq_false_iff.mp free)⟩
  · intro k item hitem
    replace hitem := (hfind k).symm.trans hitem
    split at hitem
    · cases hitem
      have htext := h.calls i
      rw [call] at htext
      exact ⟨htext.2, htext.1, rfl, rfl⟩
    · exact h.items k item hitem
  · refine calls_update h.calls ?_
    split <;> trivial
  · intro job hdue
    rcases hdue.unlock rfl with hdue | ⟨_, rfl⟩
    · exact h.jobs job hdue
    · exact .inr ⟨_, rfl⟩
  · exact fun message hmessage => (h.hand message hmessage).mono hkeeps
  · intro m hm
    cases hm
  · intro k item hitem hcovers -- the new item is going to be sent, and the others as before
    refine .inl ?_
    rcases hcovers with hnone | hhandles | hjob
    · have hk : k = p.impl.seed := by
        by_contra hk
        replace hitem := (hfind k).symm.trans hitem
        rw [if_neg hk, hnone] at hitem
        cases hitem
      cases hconnected : p.impl.connected with
      | false => exact .inl (.inr (.inr (.inr ⟨hconnected, free⟩))) -- the walk will find it
      | true => -- its job is about to be pushed
        have htrue : itemIsCompatible = true := by
          rcases hcompatible with h' | h'
          · exact h'
          · cases hconnected.symm.trans h'
        refine .inr (.inr (.inr (.inr ⟨i, ?_⟩)))
        show _ ∈ (Function.update p.calls i _ i).jobs
        rw [Function.update_self, htrue, hk]
        exact List.mem_singleton.mpr rfl
    · exact .inl hhandles
    · exact .inr (hjob.of_call rfl rfl rfl rfl (by rw [call]; rfl))

/-- The locked part of `tweak_app_server_add_item`. -/
theorem advances_add (h : p.Prepared) (call : p.calls i = .adding alloc new itemIsCompatible)
    (free : p.locked = false) (hcompatible : itemIsCompatible = true ∨ p.impl.connected = false) :
    p.Advances none (p.unlock i (p.impl.addItemLocked alloc itemIsCompatible new).2.2
      (p.impl.addItemLocked alloc itemIsCompatible new).2.1
      (.append (p.impl.addItemLocked alloc itemIsCompatible new).1)) := by
  rw [Server.addItemLocked_eq h.consistent]
  by_cases hadd : p.impl.modelImpl.index.find? new.uri = none ∧ alloc.all = true
  · rw [if_pos hadd]
    exact advances_added h call free hcompatible hadd.1
  · rw [if_neg hadd]
    refine .of_same ⟨h.consistent.updates .same (p.impl.seed_le_refused new.uri), h.items,
      calls_update h.calls trivial, ?_, h.hand, h.walk⟩ rfl rfl rfl ?_
    · intro job hdue
      rcases hdue.unlock rfl with hdue | ⟨hpush, _⟩
      · exact h.jobs job hdue
      · cases hpush
    · intro k hdue
      exact hdue.of_call rfl rfl rfl rfl (by rw [call]; rfl)

/-- Its job is pushed. -/
theorem advances_push (h : p.Prepared) {drop : Bool} (call : p.calls i = .pushing job) :
    p.Advances none { p with
      impl := { p.impl with queue := enqueue drop job p.impl.queue }
      calls := Function.update p.calls i .idle } := by
  refine .of_same (h.same rfl rfl (calls_update h.calls trivial)
    (fun job' hdue => .inl (hdue.push call)) h.hand h.walk) rfl rfl rfl ?_
  rintro k (hdue | hdue | hdue | ⟨j, hdue⟩)
  · exact .inl hdue
  · exact .inr (.inl ((mem_enqueue drop job _).mpr (.inl hdue)))
  · exact .inr (.inr (.inl hdue))
  · by_cases hj : j = i
    · rw [hj, call] at hdue
      exact .inr (.inl ((mem_enqueue drop job _).mpr (.inr (List.mem_singleton.mp hdue))))
    · refine .inr (.inr (.inr ⟨j, ?_⟩))
      show _ ∈ (Function.update p.calls i .idle j).jobs
      rw [Function.update_of_ne hj]
      exact hdue

end Calls

theorem advances_connectionState (h : p.Prepared) : p.Advances none (p.connectionState true) := by
  refine .of_same (h.same rfl rfl h.calls (fun _ hdue => .inl hdue) h.hand fun _ => rfl)
    rfl rfl rfl fun _ hdue => hdue

/-- The client announces what it can handle, and subscribes. -/
def Request : ClientMessage → Prop
  | .announceFeatures features => features = .initDefault
  | .subscribe => True
  | .changeItem _ _ => False

/-- The client asks for its subscription. -/
theorem advances_receive (h : p.Prepared) {message : ClientMessage} (hrequest : Request message)
    (hstep : p.receive message = some p') : p.Advances none p' := by
  cases message with
  | announceFeatures features =>
    cases hrequest
    rw [receive.eq_def] at hstep
    split at hstep
    · next heq =>
        cases heq
        cases hstep
        refine .of_same (h.same rfl rfl h.calls (fun _ hdue => .inl hdue) h.hand ?_)
          rfl rfl rfl fun _ hdue => hdue
        intro hwalking
        show (p.impl.remotePeerFeatures.vectors && true) = true
        rw [h.walk hwalking, Bool.and_true]
    · next heq => cases heq
    · next heq => cases heq
    · cases hstep
  | subscribe =>
    obtain ⟨hreceiver, rfl⟩ := receive_subscribe_cases hstep
    refine .of_same (h.same rfl rfl h.calls (fun job hdue => hdue.receive rfl) h.hand h.walk)
      rfl rfl rfl ?_
    rintro k (hdue | hdue | hdue | hdue)
    · exact .inl hdue
    · exact .inr (.inl hdue)
    · rw [hreceiver] at hdue
      cases hdue
    · exact .inr (.inr (.inr hdue))
  | changeItem id value => cases hrequest

variable {drop : Bool}

theorem advances_receiverPush (h : p.Prepared) (hstep : p.receiverPush drop = some p') :
    p.Advances none p' := by
  have hback (job : ServerJob) (hdue : p'.Due job) : p.Due job ∨ job = .subscribe :=
    .inl (Due.receiverPush hstep hdue)
  obtain ⟨job, hreceiver, rfl⟩ := receiverPush_cases hstep
  refine .of_same (h.same rfl rfl h.calls hback h.hand h.walk) rfl rfl rfl ?_
  rintro k (hdue | hdue | hdue | hdue)
  · exact .inl hdue
  · exact .inr (.inl ((mem_enqueue drop job _).mpr (.inl hdue)))
  · rw [hreceiver] at hdue
    exact .inr (.inl ((mem_enqueue drop job _).mpr (.inr (List.mem_singleton.mp hdue))))
  · exact .inr (.inr (.inr hdue))

/-! ## The worker -/

variable {message : Option ServerMessage}

/-- The worker takes a step with what it has in hand, and waiting jobs go on waiting. -/
theorem Advances.of_work (h : p.Prepared) {impl : Server} {worker : ServerWorker}
    (hp' : p' = { p with impl := impl, worker := worker })
    (hmodel : impl.modelImpl = p.impl.modelImpl) (hseed : impl.seed = p.impl.seed)
    (hqueue : impl.queue = p.impl.queue) (hworker : worker.jobs = [])
    (hsent : ∀ m ∈ message, m.Copies p.impl.modelImpl)
    (hhand : ∀ m ∈ worker.hand, m.Copies p.impl.modelImpl)
    (hwalk : worker.isWalking = true → impl.remotePeerFeatures.vectors = true)
    (hconnected : p.impl.connected = true ∨ p.worker.isWalking = true →
      impl.connected = true ∨ p.impl.connected = false ∧ worker.isWalking = true)
    (hhandles : ∀ k item, p.impl.find? k = some item → p.worker.Handles p.impl.connected k item →
      worker.Handles impl.connected k item ∨ message = some (.addItem item.toAddItem)) :
    p.Advances message p' := by
  subst hp'
  refine ⟨?_, hmodel ▸ hsent, ?_, ?_, ?_, ?_⟩
  · exact h.same hmodel hseed h.calls (fun job hdue => .inl (Due.worker hworker hqueue hdue)) hhand
      hwalk
  · intro k item hitem
    rw [Context.find?, hmodel]
    exact hitem
  · intro k item hitem hold
    replace hitem : p.impl.find? k = some item := by
      rw [Context.find?, ← hmodel]
      exact hitem
    have hhandled (hnow : p.worker.Handles p.impl.connected k item) :
        Covers { p with impl := impl, worker := worker } k item ∨
          message = some (.addItem item.toAddItem) := by
      rcases hhandles k item hitem hnow with h' | h'
      · exact .inl (.inl h')
      · exact .inr h'
    rcases hold with hnone | hnow | (hjob | hjob | hjob | hjob)
    · cases hnone.symm.trans hitem
    · exact hhandled hnow
    · exact hhandled (.inr (.inl hjob))
    · exact .inl (.inr (.inr (.inl (hqueue ▸ hjob))))
    · exact .inl (.inr (.inr (.inr (.inl hjob))))
    · exact .inl (.inr (.inr (.inr (.inr hjob))))
  · intro htrue
    rcases hconnected (.inl htrue) with h' | ⟨h', _⟩
    · exact h'
    · cases htrue.symm.trans h'
  · intro hwalking hfree
    rcases hconnected (.inr hwalking) with h' | ⟨_, h'⟩
    · exact h'
    · cases h'.symm.trans hfree

variable {job : ServerJob}

private theorem Prepared.running (h : p.Prepared) (worker : p.worker = .running job) :
    job = .subscribe ∨ ∃ k, job = .append k := by
  refine h.jobs job (.inl ?_)
  rw [worker]
  exact List.mem_singleton.mpr rfl

/-- The worker takes a job from the queue. -/
theorem advances_take (h : p.Prepared) {queue : List ServerJob} (worker : p.worker = .idle)
    (next : p.impl.queue = job :: queue)
    (hback : ∀ job', Due { p with impl := { p.impl with queue := queue }, worker := .running job }
      job' → p.Due job') :
    p.Advances none { p with impl := { p.impl with queue := queue }, worker := .running job } := by
  refine ⟨h.same rfl rfl h.calls (fun job' hdue => .inl (hback job' hdue))
    (fun m hm => by cases hm) (fun hwalking => by cases hwalking), fun m hm => (by cases hm),
    fun _ _ hitem => hitem, ?_, fun hconnected => hconnected, fun hwalking => ?_⟩
  · intro k item hitem hold
    refine .inl ?_
    rcases hold with hnone | hhandles | (hjob | hjob | hjob | hjob)
    · cases hnone.symm.trans hitem
    · rw [worker, ServerWorker.handles_idle] at hhandles
      exact .inl (ServerWorker.handles_running.mpr (.inr hhandles))
    · rw [worker] at hjob
      cases hjob
    · rw [next] at hjob
      rcases List.mem_cons.mp hjob with rfl | hjob
      · exact .inr (.inl (List.mem_singleton.mpr rfl))
      · exact .inr (.inr (.inl hjob))
    · exact .inr (.inr (.inr (.inl hjob)))
    · exact .inr (.inr (.inr (.inr hjob)))
  · rw [worker] at hwalking
    cases hwalking

/-- The worker sends an item, or leaves it to be sent. -/
theorem advances_work (h : p.Prepared)
    (hopen : p.worker = .subscribing → p.impl.remotePeerFeatures.vectors = true)
    (hstep : p.work = some (message, p')) : p.Advances message p' := by
  have hnone : ∀ m ∈ (none : Option ServerMessage), m.Copies p.impl.modelImpl := by
    intro m hm
    cases hm
  have hnil : ∀ m ∈ ([] : List ServerMessage), m.Copies p.impl.modelImpl := by
    intro m hm
    cases hm
  have hback (job : ServerJob) : p'.Due job → p.Due job := Due.work hstep
  cases work_cases hstep with
  | take worker next => exact advances_take h worker next hback
  | announce worker | prepare worker | announced worker =>
    refine .of_work h rfl rfl rfl rfl rfl (by simp [ServerMessage.Copies]) hnil
      (by simp [ServerWorker.isWalking]) (by simp [worker, ServerWorker.isWalking]) ?_
    intro k item _ hhandles
    exact .inl (by simpa [worker] using hhandles)
  | lock worker =>
    refine .of_work h rfl rfl rfl rfl rfl hnone hnil (fun _ => hopen worker)
      (by simp [worker, ServerWorker.isWalking]) ?_
    intro k item hitem _
    -- the index has the uris of all items
    have hindex := h.consistent.bijective.find?_uri hitem
    refine .inl (ServerWorker.handles_walking.mpr ?_)
    exact List.mem_map.mpr ⟨(item.uri, k), Table.mem_entries_iff.mpr hindex, rfl⟩
  | walked worker =>
    refine .of_work h rfl rfl rfl rfl rfl hnone hnil (by simp [ServerWorker.isWalking])
      (fun _ => .inl rfl) ?_
    intro k item _ hhandles
    simp [worker] at hhandles
  | @visit uri id rest item' worker found compatible accepted =>
    have hwalking : p.worker.isWalking = true := by
      rw [worker]
      rfl
    refine .of_work h rfl rfl rfl rfl rfl ?_ hnil (fun _ => h.walk hwalking) ?_ ?_
    · intro m hm
      cases hm
      exact ⟨id, item', found, rfl⟩
    · cases p.impl.connected <;> simp [ServerWorker.isWalking]
    · intro k item hitem hhandles
      rw [worker, ServerWorker.handles_walking] at hhandles
      rcases List.mem_cons.mp hhandles with rfl | hrest
      · cases found.symm.trans hitem
        exact .inr rfl
      · exact .inl (ServerWorker.handles_walking.mpr hrest)
  -- texts can be encoded, and a client with the default features takes them
  | refuse worker found refused =>
    have haccepted := accepted_of_textual (h.items _ _ found) h.consistent found
    cases haccepted.symm.trans refused
  | skip worker found incompatible =>
    have hvectors := h.walk (by rw [worker]; rfl)
    have hcompatible := Features.compatible_of_text hvectors (h.items _ _ found).text
    cases hcompatible.symm.trans incompatible
  | @append id item' worker found =>
    refine .of_work h rfl rfl rfl rfl rfl hnone ?_ (by simp [ServerWorker.isWalking])
      (by simp [worker, ServerWorker.isWalking]) ?_
    · intro m hm
      rw [List.mem_singleton.mp hm]
      exact ⟨id, item', found, rfl⟩
    · intro k item hitem hhandles
      rw [worker, ServerWorker.handles_running] at hhandles
      rcases hhandles with hjob | hconnected
      · cases hjob
        cases found.symm.trans hitem
        exact .inl (ServerWorker.handles_sending.mpr (.inl rfl))
      · exact .inl (ServerWorker.handles_sending.mpr (.inr hconnected))
  | change worker | remove worker | unheard worker =>
    rcases h.running worker with hjob | ⟨_, hjob⟩ <;> cases hjob
  | @gone job id worker about lost =>
    refine .of_work h rfl rfl rfl rfl rfl hnone hnil (by simp [ServerWorker.isWalking])
      (by simp [worker, ServerWorker.isWalking]) ?_
    intro k item hitem hhandles
    rw [worker, ServerWorker.handles_running] at hhandles
    rcases hhandles with rfl | hconnected
    · cases about
      cases lost.symm.trans hitem
    · exact .inl (ServerWorker.handles_idle.mpr hconnected)
  | @send m worker =>
    have hcopies : m.Copies p.impl.modelImpl := by
      apply h.hand
      rw [worker]
      exact List.mem_singleton.mpr rfl
    refine .of_work h rfl rfl rfl rfl rfl ?_ hnil (by simp [ServerWorker.isWalking])
      (by simp [worker, ServerWorker.isWalking]) ?_
    · intro m' hm'
      split at hm'
      · cases hm'
        exact hcopies
      · cases hm'
    · intro k item hitem hhandles
      rw [worker, ServerWorker.handles_sending] at hhandles
      rcases hhandles with rfl | hconnected
      · rw [if_pos (accepted_of_textual (h.items _ _ hitem) h.consistent hitem)]
        exact .inr rfl
      · exact .inl (ServerWorker.handles_idle.mpr hconnected)

/-! ## Before the client subscribes -/

/-- Nobody has subscribed yet, so there is nothing to do. -/
structure Silent (p : ServerProcess ι) : Prop where
  disconnected : p.impl.connected = false
  idle : p.worker = .idle
  jobless : ∀ job, ¬ p.Due job

variable {i : ι}

theorem Silent.addItem [DecidableEq ι] (h : p.Silent) {alloc : Allocations} {new : NewItem}
    (hstep : p.addItem i alloc new = some p') : p'.Silent := by
  obtain ⟨_, rfl⟩ := addItem_cases hstep
  refine ⟨h.disconnected, h.idle, ?_⟩
  intro job hdue
  rcases Due.call (p := p) hdue rfl rfl rfl rfl with hdue | hnew
  · exact h.jobless job hdue
  · cases hnew

theorem Silent.proceed [DecidableEq ι] (h : p.Silent) (hp : p.impl.Consistent)
    (hstep : p.proceed i drop = some p') : p'.Silent := by
  cases proceeds hstep with
  | @add alloc new itemIsCompatible call free =>
    refine ⟨h.disconnected, h.idle, ?_⟩
    intro job hdue
    rcases hdue.unlock rfl with hdue | ⟨hpush, _⟩
    · exact h.jobless job hdue
    · rw [Server.addItemLocked_eq hp, h.disconnected, Bool.and_false] at hpush
      split at hpush <;> cases hpush
  | @push job call =>
    refine absurd (.inr (.inr (.inr ⟨i, ?_⟩))) (h.jobless job)
    rw [call]
    exact List.mem_singleton.mpr rfl

/-- Nobody has anything for the worker to do. -/
theorem Silent.work (h : p.Silent) : p.work = none := by
  have hqueue : p.impl.queue = [] := by
    rw [List.eq_nil_iff_forall_not_mem]
    exact fun job hjob => h.jobless job (.inr (.inl hjob))
  rw [ServerProcess.work, h.idle]
  dsimp only
  rw [hqueue]

theorem Silent.receiverPush (h : p.Silent) (drop : Bool) : p.receiverPush drop = none := by
  rw [ServerProcess.receiverPush]
  split
  · rfl
  · next job hreceiver =>
      refine absurd (.inr (.inr (.inl ?_))) (h.jobless job)
      rw [hreceiver]
      exact List.mem_singleton.mpr rfl

end ServerProcess

end App

end TweakTool
