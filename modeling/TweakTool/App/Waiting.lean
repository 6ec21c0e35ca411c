import TweakTool.App.Tables
import TweakTool.Lib.Monitor

/-! # Waiting for uris

`tweak_app_client_wait_uris`: an application waits until the client is connected and has items with
certain uris. The predicate looks at the connected flag and at the index, each under a lock of its own,
while the waiter has the mutex of the `wait_context`. The handlers for connections and messages run on
any threads; they change the flag and the index without this mutex and notify all waiters later. -/

namespace TweakTool.App.Waiting

open TweakTool.Lib

/-! ## Handlers -/

/-- A section of a handler, or what it does between two sections. -/
inductive Task where
  | setFeatures (features : Features)
  | setConnected (isConnected : Bool)
  | resetModel -- the section of `reset_model`
  | addItem (alloc : Allocations) (a : AddItem)
  | changeItem (id : TweakId) (value : Variant)
  | removeItem (id : TweakId)
  | replaceCurrentValue (id : TweakId) (value : Variant)
  | pushSubscribe
  | callbacks -- callbacks of the application, if they are set
  deriving DecidableEq

/-- `none` for `TWEAK_FATAL`. -/
def perform (c : Client) : Task → Option Client
  | .setFeatures features => some { c with remotePeerFeatures := features }
  | .setConnected isConnected => some { c with connected := isConnected }
  | .resetModel => some { c with modelImpl := .empty }
  | .addItem alloc a =>
    match c.modelImpl.clientAddItem alloc a with
    | .error _ => none
    | .ok modelImpl => some { c with modelImpl := modelImpl }
  | .changeItem id value => some { c with modelImpl := c.modelImpl.clientChangeItem id value }
  | .removeItem id => some { c with modelImpl := c.modelImpl.clientRemoveItem id }
  | .replaceCurrentValue id value =>
    let (_, shouldPushChange, modelImpl) := c.itemReplaceCurrentValue id value
    let c := { c with modelImpl := modelImpl }
    some (if shouldPushChange then c.push (.change id) else c)
  | .pushSubscribe => some (c.push .subscribe)
  | .callbacks => some c

inductive Event where
  | connectionState (isConnected : Bool)
  | announceFeatures (features : Option Features) -- features that could be parsed or not
  | addItem (alloc : Allocations) (a : AddItem)
  | changeItem (id : TweakId) (value : Variant)
  | removeItem (id : TweakId)
  | replaceCurrentValue (id : TweakId) (value : Variant) -- the application replaces a value

/-- `client_connection_state_pickle_impl`, `announce_features_impl`, `client_add_item_pickle_impl`,
`client_change_item_pickle_impl`, `client_remove_item_pickle_impl`. -/
def Event.duties : Event → List (Duty Task)
  | .connectionState true =>
    [.act (.setFeatures .initMinimal), .act .resetModel, .act .callbacks, .act (.setConnected true),
      .act .callbacks, .act .pushSubscribe, .notifyAll]
  | .connectionState false => [.act .callbacks, .act (.setConnected false), .notifyAll]
  | .announceFeatures none => []
  | .announceFeatures (some features) => [.act (.setFeatures features)]
  | .addItem alloc a => [.act (.addItem alloc a), .notifyAll, .act .callbacks]
  | .changeItem id value => [.act (.changeItem id value), .notifyAll, .act .callbacks]
  | .removeItem id => [.act (.removeItem id), .notifyAll, .act .callbacks]
  | .replaceCurrentValue id value => [.act (.replaceCurrentValue id value)]

/-! ## The predicate -/

/-- The loop of `check_wait_condition`: whether all uris were found, and the ids up to the first one
that was not. -/
def lookups (index : Table Text TweakId) : List Text → Bool × List TweakId
  | [] => (true, [])
  | uri :: uris =>
    let id := tweakModelUriToTweakIdIndexLookup index uri
    if id = tweakInvalidId then (false, [])
    else
      let (found, ids) := lookups index uris
      (found, id :: ids)

variable {index : Table Text TweakId} {uris : List Text}

/-- All uris were found. -/
theorem lookups_iff :
    (lookups index uris).1 = true ↔
      ∀ uri ∈ uris, tweakModelUriToTweakIdIndexLookup index uri ≠ tweakInvalidId := by
  induction uris with
  | nil => exact iff_of_true rfl (by rintro _ ⟨⟩)
  | cons uri uris ih =>
    rw [lookups, List.forall_mem_cons]
    split
    · next hmissing => exact iff_of_false (by rintro ⟨⟩) fun h => h.1 hmissing
    · next hfound => exact ih.trans (and_iff_right hfound).symm

/-- Whether the index has the uri. -/
theorem lookup_ne_invalid {uri : Text}
    (h : tweakModelUriToTweakIdIndexLookup index uri ≠ tweakInvalidId) :
    index.find? uri = some (tweakModelUriToTweakIdIndexLookup index uri) := by
  rw [tweakModelUriToTweakIdIndexLookup] at h ⊢
  cases hfind : index.find? uri with
  | none =>
    rw [hfind] at h
    exact absurd rfl h
  | some id => rfl

/-- The ids are those of the index. -/
theorem forall₂_lookups (h : (lookups index uris).1 = true) :
    List.Forall₂ (fun uri id => index.find? uri = some id) uris (lookups index uris).2 := by
  induction uris with
  | nil => exact .nil
  | cons uri uris ih =>
    rw [lookups] at h ⊢
    split at h
    · cases h
    · next hfound =>
        rw [if_neg hfound]
        exact .cons (lookup_ne_invalid hfound) (ih h)

/-- The two sections of `check_wait_condition`. -/
def tests : List (Client → List Text → Bool) :=
  [fun c _ => c.connected, fun c uris => (lookups c.modelImpl.index uris).1]

/-- Only a new connection and a new item can make the predicate true. -/
def Task.raises : Task → Bool
  | .setConnected isConnected => isConnected
  | .addItem _ _ => true
  | .setFeatures _ | .resetModel | .changeItem _ _ | .removeItem _ | .replaceCurrentValue _ _
  | .pushSubscribe | .callbacks => false

variable {c : Client}

/-- All tests succeed if the client is connected and has all uris. -/
theorem forall_mem_tests :
    (∀ test ∈ tests, test c uris = true) ↔
      c.connected = true ∧ (lookups c.modelImpl.index uris).1 = true := by
  rw [tests, List.forall_mem_cons, List.forall_mem_singleton]

variable {c' : Client}

/-- A predicate that holds after a step has held before, if the step leaves the flag alone and puts
nothing into the index. -/
theorem tests_of_step (h : ∀ test ∈ tests, test c' uris = true)
    (hconnected : c'.connected = c.connected)
    (hindex : ∀ uri, c'.modelImpl.index.find? uri = none ∨
      c'.modelImpl.index.find? uri = c.modelImpl.index.find? uri) :
    ∀ test ∈ tests, test c uris = true := by
  obtain ⟨hflag, hfound⟩ := forall_mem_tests.mp h
  refine forall_mem_tests.mpr ⟨hconnected.symm.trans hflag, lookups_iff.mpr fun uri huri => ?_⟩
  have hne := lookups_iff.mp hfound uri huri
  rw [tweakModelUriToTweakIdIndexLookup] at hne ⊢
  rcases hindex uri with hnone | hsame
  · rw [hnone] at hne
    exact absurd rfl hne
  · rw [hsame] at hne
    exact hne

private theorem index_clientChangeItem (m : ModelImpl) (id : TweakId) (value : Variant) :
    (m.clientChangeItem id value).index = m.index := by
  rw [ModelImpl.clientChangeItem]
  split <;> rfl

private theorem find?_index_clientRemoveItem (m : ModelImpl) (id : TweakId) (uri : Text) :
    (m.clientRemoveItem id).index.find? uri = none ∨
      (m.clientRemoveItem id).index.find? uri = m.index.find? uri := by
  rw [ModelImpl.clientRemoveItem]
  split
  · rw [ModelImpl.removeItem_index]
    split
    · exact .inl rfl
    · exact .inr rfl
  · exact .inr rfl

theorem index_itemReplaceCurrentValue (c : Context) (id : TweakId) (value : Variant) :
    (c.itemReplaceCurrentValue id value).2.2.index = c.modelImpl.index := by
  rw [Context.itemReplaceCurrentValue]
  split
  · split <;> rfl
  · rfl

theorem perform_replaceCurrentValue {id : TweakId} {value : Variant}
    (h : perform c (.replaceCurrentValue id value) = some c') :
    c'.modelImpl = (c.itemReplaceCurrentValue id value).2.2 ∧ c'.connected = c.connected := by
  rw [perform] at h
  generalize c.itemReplaceCurrentValue id value = result at h ⊢
  obtain ⟨_, shouldPushChange, m⟩ := result
  cases shouldPushChange <;> cases h <;> exact ⟨rfl, rfl⟩

/-- What `tweak_app_client_wait_uris` waits for. -/
def condition : Condition Client Task (List Text) where
  perform := perform
  tests := tests
  raises := Task.raises
  calm := by
    intro c task c' hperform hraises uris hholds
    cases task with
    | setFeatures | pushSubscribe | callbacks =>
      cases hperform
      exact tests_of_step hholds rfl fun _ => .inr rfl
    | setConnected isConnected =>
      cases hperform
      cases hraises.symm.trans (forall_mem_tests.mp hholds).1
    | resetModel =>
      cases hperform
      exact tests_of_step hholds rfl fun _ => .inl rfl
    | addItem => cases hraises
    | changeItem id value =>
      cases hperform
      refine tests_of_step hholds rfl fun uri => .inr ?_
      exact congrArg (·.find? uri) (index_clientChangeItem c.modelImpl id value)
    | removeItem id =>
      cases hperform
      exact tests_of_step hholds rfl (find?_index_clientRemoveItem c.modelImpl id)
    | replaceCurrentValue id value =>
      obtain ⟨hmodel, hconnected⟩ := perform_replaceCurrentValue hperform
      refine tests_of_step hholds hconnected fun uri => .inr ?_
      rw [hmodel, index_itemReplaceCurrentValue]

private theorem bijective_perform {task : Task} (hstep : perform c task = some c')
    (h : c.modelImpl.Bijective) : c'.modelImpl.Bijective := by
  cases task with
  | setFeatures | setConnected | pushSubscribe | callbacks =>
    cases hstep
    exact h
  | resetModel =>
    cases hstep
    exact .empty
  | addItem alloc a =>
    have hcall : c.step (.addItem alloc a) = some c' := hstep
    exact Client.bijective_step h hcall
  | changeItem id value =>
    have hcall : c.step (.changeItem id value) = some c' := hstep
    exact Client.bijective_step h hcall
  | removeItem id =>
    have hcall : c.step (.removeItem id) = some c' := hstep
    exact Client.bijective_step h hcall
  | replaceCurrentValue id value =>
    rw [(perform_replaceCurrentValue hstep).1]
    exact (c.itemReplaceCurrentValue_updates id value).bijective h

/-- Every handler that may make the predicate true notifies the waiters afterwards. -/
theorem announced_duties (event : Event) : Announced condition.raises event.duties := by
  cases event with
  | connectionState isConnected => cases isConnected <;> simp [Event.duties, Announced]
  | announceFeatures features => cases features <;> simp [Event.duties, Announced, condition, Task.raises]
  | addItem | changeItem | removeItem | replaceCurrentValue =>
    simp [Event.duties, Announced, condition, Task.raises]

/-! ## Calls -/

inductive ThreadError where
  | success
  | failure
  | timeout
  deriving DecidableEq

inductive WaitCode where
  | success
  | timeout
  deriving DecidableEq

structure Args where
  uris : List Text
  wantsIds : Bool -- `tweak_ids` is not null
  isInfinite : Bool -- `timeout_millis` is `TWEAK_COMMON_TIMESPAN_INFINITE`
  start : Nat -- the number of the state in which the call began

inductive Call where
  | idle
  /-- In `tweak_common_cond_timed_wait_with_pred`, with its variable `result`. -/
  | waiting (args : Args) (result : ThreadError)
  | checking (args : Args) -- at the `check_wait_condition` after it
  | lookingUp (args : Args) -- the client was connected

def Call.args? : Call → Option Args
  | .idle => none
  | .waiting args _ | .checking args | .lookingUp args => some args

structure Returned where
  args : Args
  stop : Nat -- the number of the state in which the call ended
  code : WaitCode
  tweakIds : Option (List TweakId) -- what was written to `tweak_ids`

/-- A client, the application's threads `ω` that wait, and the threads `η` of the handlers. -/
structure System (ω η : Type) where
  monitor : Monitor Client Task (List Text) ω η
  calls : ω → Call
  returned : List Returned
  history : List ModelImpl -- the models of all states before this one

namespace System

variable {ω η : Type}

def init : System ω η := ⟨.init .init, fun _ => .idle, [], []⟩

inductive Action (ω η : Type) where
  | call (w : ω) (uris : List Text) (wantsIds isInfinite : Bool)
  | lock (w : ω)
  | test (w : ω) -- a section of the predicate
  | wait (w : ω)
  | wake (w : ω) (result : ThreadError) -- the wait ends without a notification
  | leave (w : ω) -- the predicate holds, or there is no time left
  | check (w : ω) -- a section of the last `check_wait_condition`
  | handle (h : η) (event : Event)
  | proceed (h : η)

variable [DecidableEq ω]

def setCall (s : System ω η) (w : ω) (call : Call) : System ω η :=
  { s with calls := Function.update s.calls w call }

def exit (s : System ω η) (w : ω) (args : Args) (code : WaitCode) (tweakIds : Option (List TweakId)) :
    System ω η :=
  { s.setCall w .idle with
    returned := s.returned ++ [⟨args, s.history.length, code, tweakIds⟩] }

/-- What `tweak_app_client_wait_uris` does with the result of the wait. -/
def afterWait (s : System ω η) (w : ω) (args : Args) : ThreadError → Option (System ω η)
  | .success => some (s.setCall w (.checking args))
  -- `TWEAK_FATAL`
  | .failure => none
  | .timeout => some (s.exit w args .timeout none)

variable [DecidableEq η]

def withMonitor (s : System ω η) (action : Monitor.Action Task (List Text) ω η) :
    Option (System ω η) :=
  (s.monitor.step condition action).map fun monitor => { s with monitor := monitor }

def act (s : System ω η) : Action ω η → Option (System ω η)
  | .call w uris wantsIds isInfinite =>
    match s.calls w with
    | .idle =>
      let args := ⟨uris, wantsIds, isInfinite, s.history.length⟩
      (s.setCall w (.waiting args .success)).withMonitor (.call w uris)
    | _ => none
  | .lock w => s.withMonitor (.lock w)
  | .test w => s.withMonitor (.test w)
  | .wait w =>
    match s.calls w with
    | .waiting args result =>
      -- the loop goes on unless the wait before has failed
      if result = .failure then none
      else (s.setCall w (.waiting args .success)).withMonitor (.wait w)
    | _ => none
  | .wake w result =>
    match s.calls w with
    | .waiting args _ =>
      if args.isInfinite = true ∧ result = .timeout then none
      else (s.setCall w (.waiting args result)).withMonitor (.wake w)
    | _ => none
  | .leave w =>
    match s.calls w, s.monitor.waiters w with
    | .waiting args _, .met _ => (s.withMonitor (.leave w)).bind (·.afterWait w args .success)
    | .waiting args result, .unmet _ =>
      -- without a limit of time the loop ends only when the wait has failed
      if args.isInfinite = true ∧ result ≠ .failure then none
      else (s.withMonitor (.leave w)).bind (·.afterWait w args result)
    | _, _ => none
  | .check w =>
    match s.calls w with
    | .checking args =>
      if s.monitor.data.connected then some (s.setCall w (.lookingUp args))
      else some (s.exit w args .timeout none)
    | .lookingUp args =>
      let (found, ids) := lookups s.monitor.data.modelImpl.index args.uris
      let tweakIds := if args.wantsIds then some ids else none
      some (s.exit w args (if found then .success else .timeout) tweakIds)
    | _ => none
  | .handle h event => s.withMonitor (.handle h event.duties)
  | .proceed h => s.withMonitor (.proceed h)

def step (s : System ω η) (action : Action ω η) : Option (System ω η) :=
  (s.act action).map fun s' => { s' with history := s.history ++ [s.monitor.data.modelImpl] }

omit [DecidableEq ω] [DecidableEq η]

/-- The index has all uris, with the ids that were returned. -/
def Answers (m : ModelImpl) (r : Returned) : Prop :=
  (∀ uri ∈ r.args.uris, ∃ id, m.index.find? uri = some id) ∧
    ∀ ids, r.tweakIds = some ids →
      List.Forall₂ (fun uri id => m.index.find? uri = some id) r.args.uris ids

/-- At some time during the call the index had all uris, with the ids that were returned. -/
def Truthful (s : System ω η) (r : Returned) : Prop :=
  ∃ n m, r.args.start ≤ n ∧ n ≤ r.stop ∧ s.history[n]? = some m ∧ Answers m r

/-- Nobody is blocked in vain, and no call succeeds without reason. -/
structure Prompt (s : System ω η) : Prop where
  notified : ∀ w uris, s.monitor.waiters w = .blocked uris → s.monitor.data.connected = true →
    (∀ uri ∈ uris, ∃ id, s.monitor.data.modelImpl.index.find? uri = some id) →
    ∃ h, .notifyAll ∈ s.monitor.handlers h
  truthful : ∀ r ∈ s.returned, r.code = .success → s.Truthful r

/-! ## They are not -/

structure Inv (s : System ω η) : Prop where
  monitor : s.monitor.Inv condition
  bijective : s.monitor.data.modelImpl.Bijective
  started : ∀ w args, (s.calls w).args? = some args → args.start ≤ s.history.length
  truthful : ∀ r ∈ s.returned, r.code = .success → s.Truthful r

/-- What a step does before its end is recorded: a call that succeeds now has seen the model as it
is. -/
structure Acts (s t : System ω η) : Prop where
  history : t.history = s.history
  monitor : t.monitor.Inv condition
  bijective : t.monitor.data.modelImpl.Bijective
  started : ∀ w args, (t.calls w).args? = some args → args.start ≤ s.history.length
  returned : ∀ r ∈ t.returned, r ∈ s.returned ∨ (r.code = .success →
    r.args.start ≤ s.history.length ∧ r.stop = s.history.length ∧
      Answers s.monitor.data.modelImpl r)

variable {s t u : System ω η}

theorem inv_init : (init : System ω η).Inv where
  monitor := Monitor.inv_init _
  bijective := .empty
  started := by rintro _ _ ⟨⟩
  truthful := by rintro _ ⟨⟩

theorem Inv.acts (h : s.Inv) : s.Acts s :=
  ⟨rfl, h.monitor, h.bijective, h.started, fun _ hr => .inl hr⟩

section Acts

variable [DecidableEq ω] {w : ω}

theorem Acts.setCall (h : s.Acts t) {call : Call}
    (hcall : ∀ args, call.args? = some args → args.start ≤ s.history.length) :
    s.Acts (t.setCall w call) := by
  refine ⟨h.history, h.monitor, h.bijective, fun w' args hargs => ?_, h.returned⟩
  replace hargs : (Function.update t.calls w call w').args? = some args := hargs
  rw [Function.update_apply] at hargs
  split at hargs
  · exact hcall args hargs
  · exact h.started w' args hargs

theorem Acts.exit (h : s.Acts t) {args : Args} (hargs : args.start ≤ s.history.length)
    {code : WaitCode} {tweakIds : Option (List TweakId)} (hcode : code = .success →
      Answers s.monitor.data.modelImpl ⟨args, s.history.length, code, tweakIds⟩) :
    s.Acts (t.exit w args code tweakIds) := by
  have hidle : s.Acts (t.setCall w .idle) := h.setCall (by rintro _ ⟨⟩)
  refine ⟨h.history, h.monitor, h.bijective, hidle.started, fun r hr => ?_⟩
  rcases List.mem_append.mp hr with hr | hr
  · exact h.returned r hr
  · rw [List.mem_singleton.mp hr, h.history]
    exact .inr fun hsuccess => ⟨hargs, rfl, hcode hsuccess⟩

private theorem Acts.afterWait (h : s.Acts t) {args : Args} (hargs : args.start ≤ s.history.length)
    {result : ThreadError} (hstep : t.afterWait w args result = some u) : s.Acts u := by
  cases result with
  | success =>
    cases hstep
    refine h.setCall ?_
    rintro _ ⟨⟩
    exact hargs
  | failure => cases hstep
  | timeout =>
    cases hstep
    exact h.exit hargs (by rintro ⟨⟩)

variable [DecidableEq η]

private theorem Acts.withMonitor (h : s.Acts t) {action : Monitor.Action Task (List Text) ω η}
    (hstep : t.withMonitor action = some u) (hannounces : action.Announces condition) :
    s.Acts u := by
  obtain ⟨monitor, hmonitor, rfl⟩ := Option.map_eq_some_iff.mp hstep
  exact ⟨h.history, Monitor.inv_step h.monitor hannounces hmonitor,
    Monitor.data_step bijective_perform h.bijective hmonitor, h.started, h.returned⟩

/-- The index is read in one section, so what it had then is what is returned. -/
theorem Inv.check (h : s.Inv) (hstep : s.act (.check w) = some t) : s.Acts t := by
  rw [act] at hstep
  split at hstep
  · next args hcall =>
      have hargs := h.started w args (by rw [hcall]; rfl)
      split at hstep
      · cases hstep
        refine h.acts.setCall ?_
        rintro _ ⟨⟩
        exact hargs
      · cases hstep
        exact h.acts.exit hargs (by rintro ⟨⟩)
  · next args hcall =>
      have hargs := h.started w args (by rw [hcall]; rfl)
      cases hstep
      refine h.acts.exit hargs fun hcode => ?_
      have hfound : (lookups s.monitor.data.modelImpl.index args.uris).1 = true := by
        by_contra hmissing
        rw [if_neg hmissing] at hcode
        cases hcode
      refine ⟨fun uri huri => ?_, fun ids hids => ?_⟩
      · exact ⟨_, lookup_ne_invalid (lookups_iff.mp hfound uri huri)⟩
      · dsimp only at hids
        split at hids
        · cases hids
          exact forall₂_lookups hfound
        · cases hids
  · cases hstep

/-- What a step does, before its end is recorded. -/
theorem Inv.act (h : s.Inv) {action : Action ω η} (hstep : s.act action = some t) : s.Acts t := by
  cases action with
  | call w uris wantsIds isInfinite =>
    rw [System.act] at hstep
    split at hstep
    · refine Acts.withMonitor (h.acts.setCall ?_) hstep trivial
      rintro _ ⟨⟩
      exact Nat.le_refl _
    · cases hstep
  | lock w => exact h.acts.withMonitor hstep trivial
  | test w => exact h.acts.withMonitor hstep trivial
  | wait w => -- the predicate was false, and the call is blocked
    rw [System.act] at hstep
    split at hstep
    · next args result hcall =>
        split at hstep
        · cases hstep
        · refine Acts.withMonitor (h.acts.setCall ?_) hstep trivial
          rintro _ ⟨⟩
          exact h.started w args (by rw [hcall]; rfl)
    · cases hstep
  | wake w result => -- a timeout, or for no reason
    rw [System.act] at hstep
    split at hstep
    · next args _ hcall =>
        split at hstep
        · cases hstep
        · refine Acts.withMonitor (h.acts.setCall ?_) hstep trivial
          rintro _ ⟨⟩
          exact h.started w args (by rw [hcall]; rfl)
    · cases hstep
  | leave w => -- the predicate holds, or there is no time left
    rw [System.act] at hstep
    split at hstep
    · next args _ _ hcall _ =>
        obtain ⟨u, hleave, hafter⟩ := Option.bind_eq_some_iff.mp hstep
        exact (h.acts.withMonitor hleave trivial).afterWait
          (h.started w args (by rw [hcall]; rfl)) hafter
    · next args _ _ hcall _ =>
        split at hstep
        · cases hstep
        · obtain ⟨u, hleave, hafter⟩ := Option.bind_eq_some_iff.mp hstep
          exact (h.acts.withMonitor hleave trivial).afterWait
            (h.started w args (by rw [hcall]; rfl)) hafter
    · cases hstep
  | check w => exact h.check hstep
  | handle i event => exact h.acts.withMonitor hstep (announced_duties event)
  | proceed i => exact h.acts.withMonitor hstep trivial

/-- The model that a successful call has seen is recorded. -/
theorem inv_step {action : Action ω η} (h : s.Inv) (hstep : s.step action = some u) : u.Inv := by
  obtain ⟨t, hact, rfl⟩ := Option.map_eq_some_iff.mp hstep
  have hacts := h.act hact
  have hlength : s.history.length ≤ (s.history ++ [s.monitor.data.modelImpl]).length :=
    (List.prefix_append _ _).length_le
  refine ⟨hacts.monitor, hacts.bijective, fun w args hargs => ?_, fun r hr hcode => ?_⟩
  · exact Nat.le_trans (hacts.started w args hargs) hlength
  · rcases hacts.returned r hr with hold | hnew
    · obtain ⟨n, m, hstart, hstop, hm, hanswers⟩ := h.truthful r hold hcode
      refine ⟨n, m, hstart, hstop, ?_, hanswers⟩
      show (s.history ++ [s.monitor.data.modelImpl])[n]? = some m
      rw [List.getElem?_append_left (List.getElem?_eq_some_iff.mp hm).1]
      exact hm
    · obtain ⟨hstart, hstop, hanswers⟩ := hnew hcode
      refine ⟨s.history.length, s.monitor.data.modelImpl, hstart, Nat.le_of_eq hstop.symm, ?_,
        hanswers⟩
      exact List.getElem?_concat_length

end Acts

private theorem Inv.prompt (h : s.Inv) : s.Prompt := by
  refine ⟨fun w uris hblocked hconnected hpresent => ?_, h.truthful⟩
  apply h.monitor.not_lost hblocked
  refine forall_mem_tests.mpr ⟨hconnected, lookups_iff.mpr fun uri huri hinvalid => ?_⟩
  obtain ⟨id, hid⟩ := hpresent uri huri
  rw [h.bijective.lookup_eq_invalid_iff, hid] at hinvalid
  cases hinvalid

end System

end TweakTool.App.Waiting
