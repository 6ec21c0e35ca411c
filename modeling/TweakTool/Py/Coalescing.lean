import TweakTool.Py.GilLoop
import Mathlib.Data.List.Nodup

/-! # Coalescing of changes

A change replaces an older one of the same item in the queue, while the worker may be executing a batch
with a still older one. For each item, what has been executed, what is left of the batch and what is in
the queue is, in this order, a selection of what has been fed that ends with the last of it. Which
handler an item has, and what is fed to it, follows from the history of the calls alone. -/

namespace TweakTool.Py

open TweakTool.Lib

/-! ## Selections -/

section Selects

variable {α : Type} {selected all : List α}

/-- A selection in which the last is not left out. -/
structure Selects (selected all : List α) : Prop where
  sublist : selected.Sublist all
  last : selected.getLast? = all.getLast?

private theorem Selects.nil : Selects ([] : List α) [] := ⟨.slnil, rfl⟩

/-- What was selected last may be replaced by what is new. -/
theorem Selects.replace {kept replaced : List α} (h : Selects (kept ++ replaced) all) (a : α) :
    Selects (kept ++ [a]) (all ++ [a]) := by
  refine ⟨((List.sublist_append_left _ _).trans h.sublist).append_right [a], ?_⟩
  rw [List.getLast?_concat, List.getLast?_concat]

end Selects

namespace GilLoop

variable {I K V : Type}

def about [DecidableEq I] (id : I) (items : List (QueueItem I K V)) : List (QueueItem I K V) :=
  items.filter (·.id = id)

/-- What is left of the batch. -/
def remaining (s : GilLoop I K V) : List (QueueItem I K V) :=
  match s.worker with
  | .executing next => s.threadLocalCopy.drop next
  | _ => s.threadLocalCopy

theorem remaining_of_executing {s : GilLoop I K V} {next : Nat} (h : s.worker = .executing next) :
    s.remaining = s.threadLocalCopy.drop next := by
  rw [remaining, h]

end GilLoop

/-- The batch is there from when it is taken until all of it has been executed. -/
def Worker.hasBatch : Worker → Bool
  | .leaving true | .executing _ => true
  | .leaving false | .contending | .testing | .unmet | .blocked | .met | .finished => false

namespace GilLoop

variable {I K V : Type} [DecidableEq I] {s t : GilLoop I K V}

/-! ## The history of the calls -/

/-- A call after which the item has this handler and these changes have been fed to it. -/
def follow (id : I) (history : Option K × List (QueueItem I K V)) :
    Call I K V → Option K × List (QueueItem I K V)
  | .feed id' value =>
    if id' = id then (history.1, history.2 ++ (history.1.map (⟨id, ·, value⟩)).toList) else history
  | .setHandler id' callback => if id' = id then (some callback, history.2) else history
  | .removeHandler id' => if id' = id then (none, history.2) else history

def history (id : I) (calls : List (Call I K V)) : Option K × List (QueueItem I K V) :=
  calls.foldl (follow id) (none, [])

/-- The handler that is registered after these calls. -/
def registered (id : I) (calls : List (Call I K V)) : Option K := (history id calls).1

/-- What has been fed while a handler was registered, with the handler of that time. -/
def fed (id : I) (calls : List (Call I K V)) : List (QueueItem I K V) := (history id calls).2

theorem history_concat (id : I) (calls : List (Call I K V)) (call : Call I K V) :
    history id (calls ++ [call]) = follow id (history id calls) call :=
  List.foldl_concat ..

/-- The map of callbacks follows the calls, and the queue keeps the last change of each item. -/
structure Coalesced (s : GilLoop I K V) : Prop where
  callbacks : ∀ id, s.callbacks id = registered id s.performed
  nodup : (s.changeQueue.map QueueItem.id).Nodup
  cleared : s.worker.hasBatch = false → s.threadLocalCopy = []
  selects : ∀ id,
    Selects (about id (s.executed ++ s.remaining ++ s.changeQueue)) (fed id s.performed)

theorem coalesced_init : Coalesced (init : GilLoop I K V) :=
  ⟨fun _ => rfl, List.nodup_nil, fun _ => rfl, fun _ => .nil⟩

theorem about_append (id : I) (a b : List (QueueItem I K V)) :
    about id (a ++ b) = about id a ++ about id b :=
  List.filter_append a b

/-! ## Feeding -/

section Replace

variable (id : I) (callback : K) (value : V) (queue : List (QueueItem I K V))

theorem about_singleton (id' : I) :
    about id' [⟨id, callback, value⟩] = if id' = id then [⟨id, callback, value⟩] else [] := by
  rw [about, List.filter_singleton]
  simp [eq_comm]

/-- In the queue a change takes the place of the others of its item. -/
theorem about_replace (id' : I) :
    about id' (queue.filter (·.id ≠ id) ++ [⟨id, callback, value⟩]) =
      if id' = id then [⟨id, callback, value⟩] else about id' queue := by
  rw [about_append, about_singleton, about, List.filter_filter]
  split
  · next heq =>
    rw [List.filter_eq_nil_iff.mpr (by simp [heq]), List.nil_append]
  · next hne =>
    rw [List.append_nil]
    refine List.filter_congr fun item _ => ?_
    by_cases hitem : item.id = id'
    · simp [hitem, hne]
    · simp [hitem]

/-- A change replaces the one that was in the queue. -/
theorem nodup_replace (h : (queue.map QueueItem.id).Nodup) :
    (List.map QueueItem.id (queue.filter (·.id ≠ id) ++ [⟨id, callback, value⟩])).Nodup := by
  rw [List.map_append, List.map_singleton, List.nodup_append_comm, List.singleton_append,
    List.nodup_cons]
  refine ⟨by simp, ?_⟩
  exact h.sublist (List.filter_sublist.map _)

end Replace

/-- A change is fed to the handler of its time. -/
theorem fed_feed (id id' : I) (value : V) (calls : List (Call I K V)) :
    fed id' (calls ++ [.feed id value]) = fed id' calls ++
      if id = id' then ((registered id' calls).map (⟨id', ·, value⟩)).toList else [] := by
  rw [fed, history_concat, follow]
  split
  · rfl
  · exact (List.append_nil _).symm

theorem registered_feed (id id' : I) (value : V) (calls : List (Call I K V)) :
    registered id' (calls ++ [.feed id value]) = registered id' calls := by
  rw [registered, history_concat, follow]
  split <;> rfl

private theorem Coalesced.feed (h : s.Coalesced) (id : I) (value : V) :
    Coalesced { s.perform (.feed id value) with performed := s.performed ++ [.feed id value] } := by
  have hregistered := h.callbacks id
  rw [GilLoop.perform]
  cases hcallback : s.callbacks id with
  | none =>
    -- a change without a handler is neither queued nor counted
    refine ⟨fun id' => (h.callbacks id').trans (registered_feed ..).symm, h.nodup, h.cleared,
      fun id' => ?_⟩
    have hfed : fed id' (s.performed ++ [.feed id value]) = fed id' s.performed := by
      rw [fed_feed]
      split
      · next heq => rw [← heq, ← hregistered, hcallback, Option.map_none, Option.toList_none,
          List.append_nil]
      · exact List.append_nil _
    show Selects _ (fed id' (s.performed ++ [.feed id value]))
    rw [hfed]
    exact h.selects id'
  | some callback =>
    refine ⟨fun id' => (h.callbacks id').trans (registered_feed ..).symm,
      nodup_replace id callback value _ h.nodup, h.cleared, fun id' => ?_⟩
    have hselects := h.selects id'
    rw [about_append] at hselects
    show Selects (about id' (s.executed ++ s.remaining ++ _)) (fed id' (s.performed ++ [_]))
    rw [about_append, about_replace, fed_feed]
    by_cases hid : id' = id
    · rw [hid, if_pos rfl, if_pos rfl, ← hregistered, hcallback]
      rw [hid] at hselects
      exact hselects.replace _
    · rw [if_neg hid, if_neg (Ne.symm hid), List.append_nil]
      exact hselects

/-- A call that gives an item a handler, or takes it away. -/
theorem Coalesced.register (h : s.Coalesced) (id : I) (handler : Option K) {call : Call I K V}
    (hcall : ∀ id' history, follow id' history call = if id = id' then (handler, history.2) else history) :
    Coalesced { s with
      callbacks := Function.update s.callbacks id handler
      lock := .leaving false
      performed := s.performed ++ [call] } := by
  refine ⟨fun id' => ?_, h.nodup, h.cleared, fun id' => ?_⟩
  · show Function.update s.callbacks id handler id' = registered id' (s.performed ++ [call])
    rw [registered, history_concat, hcall, Function.update_apply]
    by_cases hid : id' = id
    · rw [if_pos hid, if_pos hid.symm]
    · rw [if_neg hid, if_neg (Ne.symm hid)]
      exact h.callbacks id'
  · have hfed : fed id' (s.performed ++ [call]) = fed id' s.performed := by
      rw [fed, history_concat, hcall]
      split <;> rfl
    show Selects _ (fed id' (s.performed ++ [call]))
    rw [hfed]
    exact h.selects id'

private theorem Coalesced.perform (h : s.Coalesced) (call : Call I K V) :
    Coalesced { s.perform call with performed := s.performed ++ [call] } := by
  cases call with
  | feed id value => exact h.feed id value
  | setHandler id callback => exact h.register id (some callback) fun _ _ => rfl
  | removeHandler id => exact h.register id none fun _ _ => rfl

/-! ## The worker -/

/-- The worker goes on, and the batch is as before. -/
theorem Coalesced.move (h : s.Coalesced) (lock : Lock I K V) {worker : Worker}
    (hbatch : worker.hasBatch = false → s.worker.hasBatch = false)
    (hremaining : remaining { s with lock := lock, worker := worker } = s.remaining) :
    Coalesced { s with lock := lock, worker := worker } := by
  refine ⟨h.callbacks, h.nodup, fun hnone => h.cleared (hbatch hnone), fun id => ?_⟩
  rw [hremaining]
  exact h.selects id

private theorem Coalesced.work (h : s.Coalesced) (hworks : Works s t) : t.Coalesced := by
  cases hworks with
  | lock hworker | met hworker | unmet hworker | block hworker | refuse hworker =>
    refine h.move _ (fun _ => by rw [hworker]; rfl) ?_
    rw [remaining, remaining, hworker]
  | take hworker hflag =>
    have hcleared := h.cleared (by rw [hworker]; rfl)
    refine ⟨h.callbacks, by rw [hcleared]; exact List.nodup_nil, by rintro ⟨⟩, fun id => ?_⟩
    -- the queue becomes the batch
    have hselects := h.selects id
    rw [remaining, hworker] at hselects
    rw [hcleared, List.append_nil] at hselects ⊢
    exact hselects
  | leave result hworker =>
    cases result with
    | false =>
      refine h.move _ (fun _ => by rw [hworker]; rfl) ?_
      rw [remaining, remaining, hworker]
      rfl
    | true =>
      refine h.move _ (by rintro ⟨⟩) ?_
      rw [remaining, remaining, hworker]
      exact List.drop_zero
  | execute next item hworker hitem =>
    refine ⟨h.callbacks, h.nodup, by rintro ⟨⟩, fun id => ?_⟩
    -- the item goes from the batch to what has been executed
    have hselects := h.selects id
    obtain ⟨hnext, hget⟩ := List.getElem?_eq_some_iff.mp hitem
    rw [remaining_of_executing hworker, List.drop_eq_getElem_cons hnext, hget] at hselects
    show Selects (about id (s.executed ++ [item] ++ s.threadLocalCopy.drop (next + 1) ++ _)) _
    rw [List.append_assoc s.executed]
    exact hselects
  | clear next hworker hend =>
    refine ⟨h.callbacks, h.nodup, fun _ => rfl, fun id => ?_⟩
    have hselects := h.selects id
    rw [remaining_of_executing hworker, List.drop_of_length_le hend] at hselects
    exact hselects

private theorem Coalesced.notifyAll (h : s.Coalesced) : s.notifyAll.Coalesced := by
  refine h.move s.lock ?_ ?_
  · cases s.worker <;> exact fun hnone => hnone
  · rw [remaining, remaining]
    cases s.worker <;> rfl

private theorem Coalesced.next (h : s.Coalesced) (hnext : Next s t) : t.Coalesced := by
  cases hnext with
  | call call hlock | unlock notify hlock | flag hdestructor | join hdestructor hworker =>
    exact ⟨h.callbacks, h.nodup, h.cleared, h.selects⟩
  | perform call hlock => exact h.perform call
  | notify | announce hdestructor =>
    exact ⟨h.callbacks, h.nodup, h.notifyAll.cleared, h.notifyAll.selects⟩
  | wake => exact h.notifyAll
  | work hworks => exact h.work hworks

/-- **Nothing recent is lost**: an item is in the queue once at most; for each item, what is executed
is a selection of what was fed, each with the handler of that time; and when nothing is left to do, the
last that was executed is the last that was fed. -/
theorem gilLoop_coalesces {as : List (Action I K V)} (hrun : run step init as = some s) :
    (s.changeQueue.map QueueItem.id).Nodup ∧
      (∀ id, (about id s.executed).Sublist (fed id s.performed)) ∧
      (s.changeQueue = [] → s.remaining = [] →
        ∀ id, (about id s.executed).getLast? = (fed id s.performed).getLast?) := by
  have h : s.Coalesced :=
    run_invariant (fun h hstep => h.next (next_of_step hstep)) coalesced_init hrun
  refine ⟨h.nodup, fun id => ?_, fun hqueue hbatch id => ?_⟩
  · refine List.Sublist.trans ?_ (h.selects id).sublist
    rw [List.append_assoc]
    exact (List.sublist_append_left _ _).filter _
  · have hlast := (h.selects id).last
    rw [hqueue, hbatch, List.append_nil, List.append_nil] at hlast
    exact hlast

/-- Two more values are fed while the batch with the first one is executed, the second of them to
another handler, and one after that handler has been removed. -/
def twoBatches : List (Action Nat Nat Nat) :=
  [.call (.setHandler 1 7), .perform, .unlock, .call (.feed 1 10), .perform, .unlock,
    .work, .work, .work, .work, .call (.feed 1 20), .perform, .unlock,
    .call (.setHandler 1 8), .perform, .unlock, .call (.feed 1 30), .perform, .unlock,
    .call (.removeHandler 1), .perform, .unlock, .call (.feed 1 40), .perform, .unlock,
    .work, .work, .work, .work, .work, .work, .work]

theorem gilLoop_coalesces_two : ∃ s, run step init twoBatches = some s ∧
    ((s.changeQueue.map QueueItem.id).Nodup ∧
      (∀ id, (about id s.executed).Sublist (fed id s.performed)) ∧
      (s.changeQueue = [] → s.remaining = [] →
        ∀ id, (about id s.executed).getLast? = (fed id s.performed).getLast?)) ∧
    s.changeQueue = [] ∧ s.remaining = [] ∧ s.executed = [⟨1, 7, 10⟩, ⟨1, 8, 30⟩] ∧
    fed 1 s.performed = [⟨1, 7, 10⟩, ⟨1, 7, 20⟩, ⟨1, 8, 30⟩] := by
  have hends : ∃ s, run step init twoBatches = some s ∧
      s.changeQueue = [] ∧ s.remaining = [] ∧ s.executed = [⟨1, 7, 10⟩, ⟨1, 8, 30⟩] ∧
      fed 1 s.performed = [⟨1, 7, 10⟩, ⟨1, 7, 20⟩, ⟨1, 8, 30⟩] :=
    ⟨_, rfl, rfl, rfl, rfl, rfl⟩
  obtain ⟨s, hrun, hend⟩ := hends
  exact ⟨s, hrun, gilLoop_coalesces hrun, hend⟩

end GilLoop

end TweakTool.Py
