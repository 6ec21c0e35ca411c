import TweakTool.App.Service

/-! # The client's side of a session

The model of the client is the copy. A value that the application has replaced travels to the server
as a job and a message, and until the server has it, the item has a token. -/

namespace TweakTool.App

open TweakTool.Lib

namespace ClientWorker

def jobs : ClientWorker → List ClientJob
  | .running job => [job]
  | _ => []

def preparing : ClientWorker → Nat
  | .announced => 1
  | _ => 0

end ClientWorker

/-- The subscription that a new connection is going to push. -/
def Connection.preparing : Connection → Nat
  | .done => 0
  | _ => 1

/-- A message with a value for an item. -/
def ClientMessage.Tells (message : ClientMessage) (k : TweakId) : Prop :=
  ∃ value, message = .changeItem k value

def ClientMessage.isSubscribe : ClientMessage → Bool
  | .subscribe => true
  | _ => false

theorem checkValueCompatibility_type {a b : Variant} (h : checkValueCompatibility a b = true) :
    a.type = b.type := by
  rw [checkValueCompatibility] at h
  split at h
  · cases h
  · next htype => exact not_not.mp htype

namespace ClientProcess

section

variable (c : ClientProcess Nat)

def view : View TweakId Declaration Variant := c.impl.modelImpl.view

def pending : List ClientJob := c.worker.jobs ++ c.impl.queue

/-- The value of an item is going to be sent to the server. -/
def Token (k : TweakId) : Prop :=
  (∃ thread, c.calls thread = .pushing k) ∨ .change k ∈ c.pending ∨ ∃ value, c.worker = .sending k value

def subscriptions : Nat :=
  c.connection.preparing + c.pending.count .subscribe + c.worker.preparing

end

structure Copies (known : TweakId → VariantType → Prop) (c : ClientProcess Nat) : Prop where
  tables : c.impl.modelImpl.Bijective
  items : ∀ k item, c.impl.find? k = some item →
    known k item.currentValue.type ∧ item.variantType = item.currentValue.type
  allowed : ∀ thread k value, c.calls thread = .allowed k value → known k value.type
  replacing : ∀ thread k value, c.calls thread = .replacing k value →
    known k value.type ∧ c.impl.connected = true
  hand : ∀ k value, c.worker = .sending k value → known k value.type
  tokens : ∀ k, c.Token k → (∃ t, known k t) ∧ c.impl.connected = true

theorem Copies.mono {known known' : TweakId → VariantType → Prop} {c : ClientProcess Nat}
    (h : c.Copies known) (hknown : ∀ k t, known k t → known' k t) : c.Copies known' where
  tables := h.tables
  items := fun k item hk => (h.items k item hk).imp_left (hknown _ _)
  allowed := fun thread k value hcall => hknown _ _ (h.allowed thread k value hcall)
  replacing := fun thread k value hcall => (h.replacing thread k value hcall).imp_left (hknown _ _)
  hand := fun k value hworker => hknown _ _ (h.hand k value hworker)
  tokens := fun k hk => (h.tokens k hk).imp_left fun ⟨t, ht⟩ => ⟨t, hknown _ _ ht⟩

/-- What every step of the client guarantees to the other side when it sends `message`. -/
structure Serves (known : TweakId → VariantType → Prop) (c : ClientProcess Nat)
    (message : Option ClientMessage) (c' : ClientProcess Nat) : Prop where
  copies : c'.Copies known
  subscriptions : c'.subscriptions + message.toList.countP ClientMessage.isSubscribe ≤ c.subscriptions
  knows : ∀ k value, .changeItem k value ∈ message.toList → known k value.type
  view : ∀ k, c'.view k = none ↔ c.view k = none
  /-- New tokens are for items of the model. -/
  token : ∀ k, (c'.Token k ∨ ∃ m ∈ message.toList, m.Tells k) → c.Token k ∨ c.view k ≠ none
  tracks : ∀ (owner : View TweakId Declaration Variant) sent jobs (token : TweakId → Prop),
    (∀ k, c.Token k → owner k ≠ none → c.view k ≠ none) →
    Tracks Declaration.uri c.view owner sent jobs (fun k => token k ∨ c.Token k) →
    Tracks Declaration.uri c'.view owner sent jobs
      fun k => token k ∨ c'.Token k ∨ ∃ m ∈ message.toList, m.Tells k

variable {known : TweakId → VariantType → Prop} {c c' : ClientProcess Nat}
  {message : Option ClientMessage}

/-- Steps that leave the model alone, and lose no token. -/
theorem Copies.serves (h : c'.Copies known) (hmodel : c'.impl.modelImpl = c.impl.modelImpl)
    (hsubscriptions : c'.subscriptions + message.toList.countP ClientMessage.isSubscribe ≤
      c.subscriptions)
    (hknows : ∀ k value, .changeItem k value ∈ message.toList → known k value.type)
    (htoken : ∀ k, (c'.Token k ∨ ∃ m ∈ message.toList, m.Tells k) ↔ c.Token k) :
    Serves known c message c' where
  copies := h
  subscriptions := hsubscriptions
  knows := hknows
  view := by
    intro k
    rw [view, hmodel]
    rfl
  token := fun k hk => .inl ((htoken k).mp hk)
  tracks := by
    intro owner sent jobs token _ htracks
    rw [view, hmodel]
    exact htracks.mono fun k => Or.imp_right (htoken k).mpr

/-- A step that sends nothing and leaves the model as it is. -/
theorem Copies.serves_none (h : c'.Copies known) (hmodel : c'.impl.modelImpl = c.impl.modelImpl)
    (hsubscriptions : c'.subscriptions ≤ c.subscriptions) (htoken : ∀ k, c'.Token k ↔ c.Token k) :
    Serves known c none c' := by
  refine h.serves hmodel hsubscriptions (fun _ _ hm => nomatch hm) fun k => ?_
  rw [← htoken]
  exact ⟨fun hk => hk.elim id fun ⟨_, hm, _⟩ => (nomatch hm), .inl⟩

private theorem Copies.frame (h : c.Copies known) (hmodel : c'.impl.modelImpl = c.impl.modelImpl)
    (hcalls : c'.calls = c.calls) (hconnected : c.impl.connected = true → c'.impl.connected = true)
    (hhand : ∀ k value, c'.worker = .sending k value → known k value.type)
    (htoken : ∀ k, c'.Token k → c.Token k) : c'.Copies known where
  tables := hmodel ▸ h.tables
  items := by
    intro k item hk
    apply h.items
    rw [Context.find?, ← hmodel]
    exact hk
  allowed := by
    rw [hcalls]
    exact h.allowed
  replacing := by
    intro thread k value hcall
    rw [hcalls] at hcall
    exact (h.replacing thread k value hcall).imp_right hconnected
  hand := hhand
  tokens := fun k hk => (h.tokens k (htoken k hk)).imp_right hconnected

/-! ## Connection and worker -/

/-- Until the subscription is pushed, the client has been told nothing. -/
theorem serves_connect (h : c.Copies known) (hempty : c.connection ≠ .done → c.view = fun _ => none)
    {drop : Bool} (hstep : c.connect drop = some c') : Serves known c none c' := by
  unfold connect at hstep
  split at hstep
  · next hconnection =>
      cases hstep
      refine Copies.serves_none (h.frame rfl rfl id h.hand fun _ hk => hk) rfl ?_ fun _ => Iff.rfl
      rw [subscriptions, subscriptions, hconnection]
      exact Nat.le_refl _
  · next hconnection =>
      cases hstep
      replace hempty : c.view = fun _ => none := hempty (by rw [hconnection]; exact fun h => nomatch h)
      have hview : (fun _ => none) = view { c with
          impl := { c.impl with modelImpl := .empty }, connection := .connecting } := rfl
      refine ⟨⟨.empty, (fun _ _ hk => nomatch hk), h.allowed, h.replacing, h.hand, h.tokens⟩, ?_,
        (fun _ _ hm => nomatch hm), ?_, fun k hk => ?_, ?_⟩
      · rw [subscriptions, subscriptions, hconnection]
        exact Nat.le_refl _
      · intro k
        rw [← hview, hempty]
      · exact .inl (hk.elim id fun ⟨_, hm, _⟩ => (nomatch hm))
      · intro owner sent jobs token _ htracks
        rw [hempty] at htracks
        exact htracks.mono fun k => Or.imp_right .inl
  · next hconnection =>
      cases hstep
      refine Copies.serves_none (h.frame rfl rfl (fun _ => rfl) h.hand fun _ hk => hk) rfl ?_
        fun _ => Iff.rfl
      rw [subscriptions, subscriptions, hconnection]
      exact Nat.le_refl _
  · next hconnection =>
      cases hstep
      have htoken (k : TweakId) : Token { c with
          impl := { c.impl with queue := enqueue drop .subscribe c.impl.queue }
          connection := .done } k ↔ c.Token k := by
        simp only [Token, pending, List.mem_append, mem_enqueue, reduceCtorEq, or_false]
      refine Copies.serves_none (h.frame rfl rfl id h.hand fun k => (htoken k).mp) rfl ?_ htoken
      have hcount := count_enqueue_le drop ClientJob.subscribe c.impl.queue .subscribe
      rw [List.count_singleton_self] at hcount
      simp only [subscriptions, pending, List.count_append, hconnection, Connection.preparing]
      omega
  · cases hstep

variable {id : TweakId}

private theorem token_of_running (hworker : c.worker = .running (.change id)) : c.Token id := by
  simp [Token, pending, ClientWorker.jobs, hworker]

/-- The job looks at the item again. -/
theorem serves_change (h : c.Copies known) (hworker : c.worker = .running (.change id)) {item : Item}
    (hitem : c.impl.find? id = some item) :
    Serves known c none { c with worker := .sending id item.currentValue } := by
  have hsame (k : TweakId) : Token { c with worker := .sending id item.currentValue } k ↔
      c.Token k := by
    simp only [Token, pending, ClientWorker.jobs, hworker, List.mem_append, List.mem_singleton,
      List.not_mem_nil, false_or, reduceCtorEq, exists_false, or_false,
      ClientWorker.sending.injEq, ClientJob.change.injEq, exists_and_left, exists_eq', and_true]
    grind
  refine Copies.serves_none (h.frame rfl rfl (fun hp => hp) ?_ fun k => (hsame k).mp) rfl ?_ hsame
  · intro k value hsending
    cases hsending
    exact (h.items id item hitem).1
  · simp only [subscriptions, pending, ClientWorker.jobs, ClientWorker.preparing, hworker,
      List.count_append, List.count_nil]
    omega

/-- If the item is gone, the server does not have it either. -/
theorem serves_gone (h : c.Copies known) (hworker : c.worker = .running (.change id))
    (hitem : c.impl.find? id = none) : Serves known c none { c with worker := .idle } := by
  -- the token is used up
  have hless (k : TweakId) (hk : Token { c with worker := .idle } k) : c.Token k := by
    simp only [Token, pending, ClientWorker.jobs, hworker, List.mem_append, List.mem_singleton,
      List.not_mem_nil, false_or, reduceCtorEq, exists_false, or_false] at hk ⊢
    tauto
  have hmore (k : TweakId) (hk : c.Token k) : k = id ∨ Token { c with worker := .idle } k := by
    simp only [Token, pending, ClientWorker.jobs, hworker, List.mem_append, List.mem_singleton,
      List.not_mem_nil, false_or, reduceCtorEq, exists_false, or_false,
      ClientJob.change.injEq] at hk ⊢
    tauto
  refine ⟨h.frame rfl rfl (fun hp => hp) (fun _ _ hm => nomatch hm) hless, ?_,
    (fun _ _ hm => nomatch hm), fun _ => Iff.rfl, ?_, ?_⟩
  · simp only [subscriptions, pending, ClientWorker.jobs, ClientWorker.preparing, hworker,
      List.count_append, List.count_nil, Option.toList_none, List.countP_nil]
    omega
  · exact fun k hk => .inl (hk.elim (hless k) fun ⟨_, hm, _⟩ => (nomatch hm))
  · intro owner sent jobs token hheld htracks
    have hgone : owner id = none := by
      by_contra howner
      exact hheld id (token_of_running hworker) howner (ModelImpl.view_eq_none.mpr hitem)
    refine htracks.forget hgone ?_
    rintro k (hk | hk)
    · exact .inr (.inl hk)
    · exact (hmore k hk).imp_right fun hk => .inr (.inl hk)

variable {seed : TweakId}

/-- A step of the worker of the client. -/
theorem serves_work (h : c.Copies known) (htypes : Types known seed)
    (hstep : c.work = some (message, c')) : Serves known c message c' := by
  cases work_cases hstep with
  | @take job queue hworker hqueue =>
    have htoken (k : TweakId) : Token { c with
        impl := { c.impl with queue := queue }, worker := .running job } k ↔ c.Token k := by
      simp only [Token, pending, ClientWorker.jobs, hworker, hqueue, List.mem_append,
        List.mem_cons, List.not_mem_nil, or_false, false_or, reduceCtorEq, exists_false]
    refine Copies.serves_none (h.frame rfl rfl id (fun _ _ hm => nomatch hm)
      fun k => (htoken k).mp) rfl ?_ htoken
    simp only [subscriptions, pending, ClientWorker.jobs, ClientWorker.preparing, hworker, hqueue,
      List.count_append, List.count_cons, List.count_nil]
    omega
  | announce hworker =>
    have htoken (k : TweakId) : Token { c with worker := .announced } k ↔ c.Token k := by
      simp only [Token, pending, ClientWorker.jobs, hworker, List.mem_append, List.mem_singleton,
        List.not_mem_nil, false_or, reduceCtorEq, exists_false]
    refine Copies.serves (h.frame rfl rfl id (fun _ _ hm => nomatch hm) fun k => (htoken k).mp) rfl
      ?_ ?_ ?_
    · simp only [subscriptions, pending, ClientWorker.jobs, ClientWorker.preparing, hworker,
        List.count_append, List.count_singleton_self, List.count_nil, Option.toList_some,
        List.countP_singleton, ClientMessage.isSubscribe, Bool.false_eq_true, if_false]
      omega
    · intro k value hm
      cases List.mem_singleton.mp hm
    · intro k
      rw [htoken]
      simp [ClientMessage.Tells]
  | subscribe hworker =>
    have htoken (k : TweakId) : Token { c with worker := .idle } k ↔ c.Token k := by
      simp only [Token, pending, ClientWorker.jobs, hworker, List.mem_append, List.not_mem_nil,
        false_or, reduceCtorEq, exists_false]
    refine Copies.serves (h.frame rfl rfl id (fun _ _ hm => nomatch hm) fun k => (htoken k).mp) rfl
      ?_ ?_ ?_
    · simp only [subscriptions, pending, ClientWorker.jobs, ClientWorker.preparing, hworker,
        List.count_append, List.count_nil, Option.toList_some, List.countP_singleton,
        ClientMessage.isSubscribe]
      simp
    · intro k value hm
      cases List.mem_singleton.mp hm
    · intro k
      rw [htoken]
      simp [ClientMessage.Tells]
  | change hworker hitem => exact serves_change h hworker hitem
  | gone hworker hitem => exact serves_gone h hworker hitem
  | unheard hworker hdisconnected => -- there is a token, so the client is connected
    cases hdisconnected.symm.trans (h.tokens _ (token_of_running hworker)).2
  | @send id value hworker =>
    have hknown := h.hand id value hworker
    have haccepted : (ClientMessage.changeItem id value).accepted = true := by
      simp [ClientMessage.accepted, ne_null_of_scalar (htypes.scalar hknown)]
    rw [if_pos haccepted]
    refine Copies.serves (h.frame rfl rfl (fun hp => hp) (fun _ _ hm => nomatch hm) ?_) rfl ?_ ?_ ?_
    · intro k hk
      simp only [Token, pending, ClientWorker.jobs, hworker, List.mem_append, List.not_mem_nil,
        false_or, reduceCtorEq, exists_false, or_false] at hk ⊢
      tauto
    · simp only [subscriptions, pending, ClientWorker.jobs, ClientWorker.preparing, hworker,
        Option.toList_some, List.countP_singleton, ClientMessage.isSubscribe]
      simp
    · intro k value' hm
      cases List.mem_singleton.mp hm
      exact hknown
    · intro k
      simp only [Token, pending, ClientWorker.jobs, hworker, List.mem_append, List.not_mem_nil,
        false_or, reduceCtorEq, exists_false, or_false, Option.toList_some, List.mem_singleton,
        exists_eq_left, ClientMessage.Tells, ClientMessage.changeItem.injEq,
        ClientWorker.sending.injEq, or_assoc]

/-! ## Calls -/

variable {thread : Nat}

private theorem Copies.call (h : c.Copies known) {call : ClientCall}
    (hcalls : c'.calls = Function.update c.calls thread call) (hworker : c'.worker = c.worker)
    (hconnected : c'.impl.connected = c.impl.connected) (htables : c'.impl.modelImpl.Bijective)
    (hitems : ∀ k item, c'.impl.find? k = some item →
      known k item.currentValue.type ∧ item.variantType = item.currentValue.type)
    (hallowed : ∀ k value, call = .allowed k value → known k value.type)
    (hreplacing : ∀ k value, call = .replacing k value →
      known k value.type ∧ c.impl.connected = true)
    (htokens : ∀ k, c'.Token k → (∃ t, known k t) ∧ c.impl.connected = true) : c'.Copies known where
  tables := htables
  items := hitems
  allowed := by
    intro thread' k value hcall
    rw [hcalls] at hcall
    by_cases hthread : thread' = thread
    · rw [hthread, Function.update_self] at hcall
      exact hallowed k value hcall
    · rw [Function.update_of_ne hthread] at hcall
      exact h.allowed thread' k value hcall
  replacing := by
    intro thread' k value hcall
    rw [hcalls] at hcall
    rw [hconnected]
    by_cases hthread : thread' = thread
    · rw [hthread, Function.update_self] at hcall
      exact hreplacing k value hcall
    · rw [Function.update_of_ne hthread] at hcall
      exact h.replacing thread' k value hcall
  hand := by
    rw [hworker]
    exact h.hand
  tokens := by
    rw [hconnected]
    exact htokens

/-- Which threads push, after one of them has gone on. -/
theorem pushing_update {calls : Nat → ClientCall} {call : ClientCall} {k : TweakId} :
    (∃ thread', Function.update calls thread call thread' = .pushing k) ↔
      call = .pushing k ∨ ∃ thread', thread' ≠ thread ∧ calls thread' = .pushing k := by
  constructor
  · rintro ⟨thread', hcall⟩
    by_cases hthread : thread' = thread
    · rw [hthread, Function.update_self] at hcall
      exact .inl hcall
    · rw [Function.update_of_ne hthread] at hcall
      exact .inr ⟨thread', hthread, hcall⟩
  · rintro (hcall | ⟨thread', hthread, hcall⟩)
    · exact ⟨thread, by rw [Function.update_self]; exact hcall⟩
    · exact ⟨thread', by rw [Function.update_of_ne hthread]; exact hcall⟩

private theorem pushing_iff (calls : Nat → ClientCall) (thread : Nat) {k : TweakId} :
    (∃ thread', calls thread' = .pushing k) ↔
      calls thread = .pushing k ∨ ∃ thread', thread' ≠ thread ∧ calls thread' = .pushing k := by
  rw [← pushing_update, Function.update_eq_self]

/-- A call goes on before it has changed anything. -/
theorem serves_call (h : c.Copies known) {call : ClientCall}
    (hold : ∀ k, c.calls thread ≠ .pushing k) (hnew : ∀ k, call ≠ .pushing k)
    (hallowed : ∀ k value, call = .allowed k value → known k value.type)
    (hreplacing : ∀ k value, call = .replacing k value →
      known k value.type ∧ c.impl.connected = true) :
    Serves known c none { c with calls := Function.update c.calls thread call } := by
  have htoken (k : TweakId) :
      Token { c with calls := Function.update c.calls thread call } k ↔ c.Token k := by
    simp only [Token, pushing_update, pushing_iff c.calls thread, hold, hnew, false_or]
    exact Iff.rfl
  refine Copies.serves_none (h.call rfl rfl rfl h.tables h.items hallowed hreplacing ?_) rfl
    (Nat.le_refl _) htoken
  exact fun k hk => h.tokens k ((htoken k).mp hk)

variable {value : Variant}

/-- The application starts to replace a value. -/
theorem serves_replaceCurrentValue (h : c.Copies known)
    (hstep : c.replaceCurrentValue thread id value = some c') : Serves known c none c' := by
  have hsame : Serves known c none c := h.serves_none rfl (Nat.le_refl _) fun _ => Iff.rfl
  unfold replaceCurrentValue at hstep
  split at hstep
  · next item hcall hitem =>
      split at hstep
      · next hcheck =>
          cases hstep
          refine serves_call h (by rw [hcall]; exact fun _ h => nomatch h) (fun _ h => nomatch h) ?_
            (fun _ _ h => nomatch h)
          rintro k value' hallowed
          cases hallowed
          rw [← checkValueCompatibility_type hcheck]
          exact (h.items id item hitem).1
      · cases hstep
        exact hsame
  · cases hstep
    exact hsame
  · cases hstep

private theorem Copies.setCurrentValue (h : c.Copies known) (htypes : Types known seed)
    (hvalue : known id value.type) (k : TweakId) (item : Item)
    (hk : (c.impl.modelImpl.setCurrentValue id value).model.find? k = some item) :
    known k item.currentValue.type ∧ item.variantType = item.currentValue.type := by
  rw [ModelImpl.setCurrentValue_model] at hk
  split at hk
  · next hkid =>
      obtain ⟨old, hold, rfl⟩ := Option.map_eq_some_iff.mp hk
      obtain ⟨hknown, htype⟩ := h.items id old hold
      rw [hkid]
      exact ⟨hvalue, htype.trans (htypes.unique hknown hvalue)⟩
  · exact h.items k item hk

/-- The application's value is in the model, and the call is going to push the change. -/
theorem serves_replacing (h : c.Copies known) (htypes : Types known seed)
    (hcall : c.calls thread = .replacing id value) {item : Item}
    (hitem : c.impl.find? id = some item) :
    Serves known c none { c with
      impl := { c.impl with modelImpl := c.impl.modelImpl.setCurrentValue id value }
      calls := Function.update c.calls thread (.pushing id) } := by
  obtain ⟨hvalue, hconnected⟩ := h.replacing thread id value hcall
  have hview : (c.impl.modelImpl.setCurrentValue id value).view = c.view.modify id value :=
    ModelImpl.view_setCurrentValue ..
  have htoken (k : TweakId) : Token { c with
      impl := { c.impl with modelImpl := c.impl.modelImpl.setCurrentValue id value }
      calls := Function.update c.calls thread (.pushing id) } k ↔ k = id ∨ c.Token k := by
    simp only [Token, pushing_update, pushing_iff c.calls thread, hcall, reduceCtorEq,
      false_or, ClientCall.pushing.injEq, or_assoc, eq_comm (a := id)]
    exact Iff.rfl
  refine ⟨h.call rfl rfl rfl (h.tables.setCurrentValue id value) (h.setCurrentValue htypes hvalue)
    (fun _ _ h => nomatch h) (fun _ _ h => nomatch h) ?_, Nat.le_refl _, (fun _ _ hm => nomatch hm),
    ?_, ?_, ?_⟩
  · intro k hk
    rcases (htoken k).mp hk with rfl | hk
    · exact ⟨⟨_, hvalue⟩, hconnected⟩
    · exact h.tokens k hk
  · intro k
    show (c.impl.modelImpl.setCurrentValue id value).view k = none ↔ _
    rw [hview, ← View.outline_eq_none, View.outline_modify, View.outline_eq_none]
  · intro k hk
    rcases hk with hk | ⟨_, hm, _⟩
    · rcases (htoken k).mp hk with rfl | hk
      · right
        rw [view, ModelImpl.view_of_find hitem]
        exact Option.some_ne_none _
      · exact .inl hk
    · cases hm
  · intro owner sent jobs token _ htracks
    show Tracks _ (c.impl.modelImpl.setCurrentValue id value).view _ _ _ _
    rw [hview]
    refine htracks.modify_copy value ?_ (.inr (.inl ((htoken id).mpr (.inl rfl))))
    exact fun k => Or.imp_right fun hk => .inl ((htoken k).mpr (.inr hk))

/-- The application's call goes on. -/
theorem serves_proceed (h : c.Copies known) (htypes : Types known seed) {drop : Bool}
    (hstep : c.proceed thread drop = some c') : Serves known c none c' := by
  unfold proceed at hstep
  split at hstep
  · cases hstep
  · next id value hcall => -- the connection is looked at
      cases hstep
      refine serves_call h (by rw [hcall]; exact fun _ h => nomatch h) ?_ ?_ ?_
      · intro k
        split <;> exact fun h => nomatch h
      · intro k value' hallowed
        split at hallowed <;> cases hallowed
      · intro k value' hreplacing
        split at hreplacing
        · next hconnected =>
            cases hreplacing
            exact ⟨h.allowed thread id value hcall, hconnected⟩
        · cases hreplacing
  · next id value hcall =>
      have hidle : Serves known c none { c with calls := Function.update c.calls thread .idle } :=
        serves_call h (by rw [hcall]; exact fun _ h => nomatch h) (fun _ h => nomatch h)
          (fun _ _ h => nomatch h) (fun _ _ h => nomatch h)
      simp only [Context.itemReplaceCurrentValue] at hstep
      cases hitem : c.impl.find? id with
      | none =>
        simp only [hitem] at hstep
        cases hstep
        exact hidle -- the item has been removed
      | some item =>
        by_cases hequal : tweakVariantIsEqual item.currentValue value = true
        · simp only [hitem, hequal, if_true] at hstep
          cases hstep
          exact hidle -- it has the value already
        · have hcompatible : c.impl.remotePeerFeatures.checkTypeCompatibility
              item.currentValue.type = true :=
            Features.checkTypeCompatibility_scalar _ (htypes.scalar (h.items id item hitem).1)
          have hpush : (c.impl.remotePeerFeatures.checkTypeCompatibility item.currentValue.type &&
              c.impl.connected) = true :=
            Bool.and_eq_true_iff.mpr ⟨hcompatible, (h.replacing thread id value hcall).2⟩
          simp only [hitem, hequal, Bool.false_eq_true, if_false, hpush, if_true,
            Option.some.injEq] at hstep
          subst hstep
          exact serves_replacing h htypes hcall hitem
  · next id hcall => -- the push
      cases hstep
      have htoken (k : TweakId) : Token { c with
          impl := { c.impl with queue := enqueue drop (.change id) c.impl.queue }
          calls := Function.update c.calls thread .idle } k ↔ c.Token k := by
        simp only [Token, pushing_update, pushing_iff c.calls thread, hcall, pending,
          List.mem_append, mem_enqueue, reduceCtorEq, false_or, ClientJob.change.injEq,
          ClientCall.pushing.injEq]
        grind
      refine Copies.serves_none (h.call rfl rfl rfl h.tables h.items (fun _ _ h => nomatch h)
        (fun _ _ h => nomatch h) fun k hk => h.tokens k ((htoken k).mp hk)) rfl ?_ htoken
      have hcount := count_enqueue_le drop (ClientJob.change id) c.impl.queue .subscribe
      have hzero : List.count ClientJob.subscribe [ClientJob.change id] = 0 := rfl
      simp only [subscriptions, pending, List.count_append]
      omega

/-! ## Messages -/

/-- A message leaves the threads alone. -/
theorem Copies.receive (h : c.Copies known) (impl : Client) (hqueue : impl.queue = c.impl.queue)
    (hconnected : impl.connected = c.impl.connected) (htables : impl.modelImpl.Bijective)
    (hitems : ∀ k item, impl.find? k = some item →
      known k item.currentValue.type ∧ item.variantType = item.currentValue.type) :
    Copies known { c with impl := impl } ∧ Token { c with impl := impl } = c.Token ∧
      subscriptions { c with impl := impl } = c.subscriptions := by
  have htoken : Token { c with impl := impl } = c.Token := by
    funext k
    simp only [Token, pending, hqueue]
  refine ⟨⟨htables, hitems, h.allowed, ?_, h.hand, ?_⟩, htoken, ?_⟩
  · intro thread k value hcall
    rw [hconnected]
    exact h.replacing thread k value hcall
  · rw [htoken, hconnected]
    exact h.tokens
  · simp only [subscriptions, pending, hqueue]

/-- An item that fits is added. -/
theorem clientAddItem_eq {m : ModelImpl} (h : m.Bijective) {a : AddItem} (hid : a.id ≠ tweakInvalidId)
    (hfits : Fits Declaration.uri m.view (.add a.id a.entry)) :
    ModelImpl.Addable ⟨true, true, true, true⟩ m a ∧
      m.clientAddItem ⟨true, true, true, true⟩ a =
        .ok ⟨m.model.insert a.id (.create a), m.index.insert a.uri a.id⟩ := by
  obtain ⟨hnew, hname⟩ := hfits
  have huri : m.index.find? a.uri = none := by
    rw [Option.eq_none_iff_forall_ne_some]
    intro k hk
    obtain ⟨item, hitem, hitemUri⟩ := (h.indexed a.uri k).mp hk
    exact hname k _ (ModelImpl.view_of_find hitem) hitemUri
  have hadd : ModelImpl.Addable ⟨true, true, true, true⟩ m a :=
    ⟨ModelImpl.view_eq_none.mp hnew, huri, rfl⟩
  have hlookup := (h.lookup_eq_invalid_iff a.uri).mpr huri
  refine ⟨hadd, ?_⟩
  simp only [ModelImpl.clientAddItem, hlookup, ne_eq, not_true_eq_false, if_false,
    ModelImpl.addItemToModel_eq, hadd, if_true, hid]

/-- The client's part in the delivery of a message. -/
structure Receives (known : TweakId → VariantType → Prop) (c : ClientProcess Nat) (m : ServerMessage)
    (c' : ClientProcess Nat) : Prop where
  received : c.receive m = .ok c'
  view : c'.view = c.view.after m.event.toList
  copies : c'.Copies known
  token : c'.Token = c.Token
  subscriptions : c'.subscriptions = c.subscriptions

private theorem Copies.receives (h : c.Copies known) {m : ServerMessage} {modelImpl : ModelImpl}
    (hreceived : c.receive m = .ok { c with impl := { c.impl with modelImpl := modelImpl } })
    (hview : modelImpl.view = c.view.after m.event.toList) (htables : modelImpl.Bijective)
    (hitems : ∀ k item, modelImpl.model.find? k = some item →
      known k item.currentValue.type ∧ item.variantType = item.currentValue.type) :
    ∃ c', Receives known c m c' := by
  obtain ⟨hcopies, htoken, hsubscriptions⟩ :=
    h.receive { c.impl with modelImpl := modelImpl } rfl rfl htables hitems
  exact ⟨_, hreceived, hview, hcopies, htoken, hsubscriptions⟩

/-- A message that fits is handled, and does to the copy what it tells. -/
theorem receives (h : c.Copies known) (htypes : Types known seed) {m : ServerMessage}
    (hm : m.Known known) (hfits : ∀ e, m.event = some e → Fits Declaration.uri c.view e) :
    ∃ c', Receives known c m c' := by
  cases m with
  | announceFeatures features => -- no event
    obtain ⟨hcopies, htoken, hsubscriptions⟩ :=
      h.receive (c.impl.announceFeaturesImpl (some features)) rfl rfl h.tables h.items
    exact ⟨_, rfl, rfl, hcopies, htoken, hsubscriptions⟩
  | addItem a =>
    obtain ⟨hknown, hid, _⟩ := hm
    obtain ⟨hadd, heq⟩ := clientAddItem_eq h.tables hid (hfits _ rfl)
    refine h.receives (by rw [receive, heq]; rfl) (ModelImpl.view_insert hadd.1 _)
      (h.tables.add hadd hid) ?_
    intro k item hk
    replace hk : (c.impl.modelImpl.model.insert a.id (.create a)).find? k = some item := hk
    rw [Table.find?_insert hadd.1] at hk
    split at hk
    · next hkid =>
        cases hk
        exact ⟨hkid ▸ hknown, rfl⟩
    · exact h.items k item hk
  | changeItem id value =>
    cases hitem : c.impl.modelImpl.model.find? id with
    | some item =>
      exact h.receives (by rw [receive, ModelImpl.clientChangeItem, hitem])
        (ModelImpl.view_setCurrentValue c.impl.modelImpl id value)
        (h.tables.setCurrentValue id value) (h.setCurrentValue htypes hm)
    | none => -- an unknown id is ignored, and so is the event
      refine h.receives (by rw [receive, ModelImpl.clientChangeItem, hitem]) ?_ h.tables h.items
      have hnone : c.view id = none := ModelImpl.view_eq_none.mpr hitem
      show c.view = Function.update c.view id ((c.view id).map _)
      rw [hnone]
      exact (Function.update_eq_self_iff.mpr hnone.symm).symm
  | removeItem id =>
    cases hitem : c.impl.modelImpl.model.find? id with
    | some item =>
      refine h.receives (by rw [receive, ModelImpl.clientRemoveItem, hitem])
        (ModelImpl.view_removeItem c.impl.modelImpl item id) (h.tables.remove hitem) ?_
      intro k item' hk
      rw [ModelImpl.removeItem_model] at hk
      split at hk
      · cases hk
      · exact h.items k item' hk
    | none =>
      refine h.receives (by rw [receive, ModelImpl.clientRemoveItem, hitem]) ?_ h.tables h.items
      have hnone : c.view id = none := ModelImpl.view_eq_none.mpr hitem
      exact (Function.update_eq_self_iff.mpr hnone.symm).symm

end ClientProcess

end TweakTool.App
