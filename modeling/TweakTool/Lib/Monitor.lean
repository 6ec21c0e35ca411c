import TweakTool.Lib.Run
import Mathlib.Logic.Function.Basic

/-! # Waiting for a condition

Threads wait for a predicate with a mutex and a condition variable, but the data that the predicate is
about has locks of its own. A waiter holds the mutex while it makes the tests of the predicate, and
gives it up only to be blocked. A handler changes the data without the mutex, and takes the mutex only
to wake all that are blocked. No wake-up is lost if every change that may make the predicate true is
followed by a notification of the same handler. -/

namespace TweakTool.Lib

structure Condition (σ τ π : Type) where
  perform : σ → τ → Option σ -- an atomic change of the data; `none` if the process ends
  /-- The tests of the predicate, each of them atomic, made one after another until one fails. -/
  tests : List (σ → π → Bool)
  raises : τ → Bool -- the change may make the predicate true
  calm : ∀ {s t s'}, perform s t = some s' → raises t = false → ∀ p,
    (∀ test ∈ tests, test s' p = true) → ∀ test ∈ tests, test s p = true

def Condition.Holds {σ τ π : Type} (C : Condition σ τ π) (s : σ) (p : π) : Prop :=
  ∀ test ∈ C.tests, test s p = true

/-- What a handler has to do. -/
inductive Duty (τ : Type) where
  | act (task : τ)
  | notifyAll
  deriving DecidableEq

/-- After each change that may make the predicate true there is a notification. -/
def Announced {τ : Type} (raises : τ → Bool) : List (Duty τ) → Prop
  | [] => True
  | .act task :: duties => (raises task = true → .notifyAll ∈ duties) ∧ Announced raises duties
  | .notifyAll :: duties => Announced raises duties

inductive Waiter (π : Type) where
  | away
  | contending (p : π) -- it needs the mutex to go on
  | testing (p : π) (n : Nat) -- the first `n` tests have succeeded
  | met (p : π)
  | unmet (p : π)
  | blocked (p : π)

namespace Waiter

variable {π : Type}

/-- The waiter has the mutex. -/
def owns : Waiter π → Bool
  | .testing _ _ | .met _ | .unmet _ => true
  | .away | .contending _ | .blocked _ => false

/-- The waiter has found the predicate to be false, and will not look again before it is woken. -/
def Waits (p : π) : Waiter π → Prop
  | .unmet q | .blocked q => q = p
  | .away | .contending _ | .testing _ _ | .met _ => False

def woken : Waiter π → Waiter π
  | .blocked p => .contending p
  | .away => .away
  | .contending p => .contending p
  | .testing p n => .testing p n
  | .met p => .met p
  | .unmet p => .unmet p

@[simp] theorem owns_woken (x : Waiter π) : x.woken.owns = x.owns := by
  cases x <;> rfl

theorem unmet_of_waits_woken {x : Waiter π} {p : π} (h : x.woken.Waits p) : x.owns = true := by
  cases x <;> first | rfl | cases h

end Waiter

structure Monitor (σ τ π ω η : Type) where
  data : σ
  owner : Option ω
  waiters : ω → Waiter π
  handlers : η → List (Duty τ)

namespace Monitor

variable {σ τ π ω η : Type}

def init (data : σ) : Monitor σ τ π ω η := ⟨data, none, fun _ => .away, fun _ => []⟩

inductive Action (τ π ω η : Type) where
  | call (w : ω) (p : π)
  | lock (w : ω)
  | test (w : ω)
  | wait (w : ω)
  | leave (w : ω)
  | wake (w : ω) -- a waiter is woken without a notification
  | handle (h : η) (duties : List (Duty τ))
  | proceed (h : η)

variable [DecidableEq ω] [DecidableEq η]

def setWaiter (s : Monitor σ τ π ω η) (w : ω) (x : Waiter π) (owner : Option ω) :
    Monitor σ τ π ω η :=
  { s with owner := owner, waiters := Function.update s.waiters w x }

def setHandler (s : Monitor σ τ π ω η) (h : η) (duties : List (Duty τ)) : Monitor σ τ π ω η :=
  { s with handlers := Function.update s.handlers h duties }

/-- The next state; `none` if the step cannot be taken, or if the process ends. -/
def step (C : Condition σ τ π) (s : Monitor σ τ π ω η) :
    Action τ π ω η → Option (Monitor σ τ π ω η)
  | .call w p =>
    match s.waiters w with
    | .away => some (s.setWaiter w (.contending p) s.owner)
    | _ => none
  | .lock w =>
    match s.waiters w, s.owner with
    | .contending p, none => some (s.setWaiter w (.testing p 0) (some w))
    | _, _ => none
  | .test w =>
    match s.waiters w with
    | .testing p n =>
      match C.tests[n]? with
      | none => some (s.setWaiter w (.met p) s.owner)
      | some test =>
        some (s.setWaiter w (if test s.data p then .testing p (n + 1) else .unmet p) s.owner)
    | _ => none
  | .wait w =>
    match s.waiters w with
    | .unmet p => some (s.setWaiter w (.blocked p) none)
    | _ => none
  | .leave w =>
    match s.waiters w with
    | .met _ | .unmet _ => some (s.setWaiter w .away none)
    | _ => none
  | .wake w =>
    match s.waiters w with
    | .blocked p => some (s.setWaiter w (.contending p) s.owner)
    | _ => none
  | .handle h duties =>
    match s.handlers h with
    | [] => some (s.setHandler h duties)
    | _ :: _ => none
  | .proceed h =>
    match s.handlers h with
    | [] => none
    | .act task :: duties =>
      (C.perform s.data task).map fun data => { s.setHandler h duties with data := data }
    | .notifyAll :: duties =>
      match s.owner with
      | none => some { s.setHandler h duties with waiters := fun w => (s.waiters w).woken }
      | some _ => none

/-- A handler that starts is going to announce what it changes. -/
def Action.Announces (C : Condition σ τ π) : Action τ π ω η → Prop
  | .handle _ duties => Announced C.raises duties
  | .call _ _ | .lock _ | .test _ | .wait _ | .leave _ | .wake _ | .proceed _ => True

/-! ## No wake-up is lost -/

structure Inv (C : Condition σ τ π) (s : Monitor σ τ π ω η) : Prop where
  owned : ∀ w, (s.waiters w).owns = true → s.owner = some w
  announced : ∀ h, Announced C.raises (s.handlers h)
  pending : ∀ w p, (s.waiters w).Waits p → C.Holds s.data p → ∃ h, .notifyAll ∈ s.handlers h

variable {C : Condition σ τ π} {s s' : Monitor σ τ π ω η}

omit [DecidableEq ω] [DecidableEq η] in
theorem inv_init (data : σ) : Inv C (init data : Monitor σ τ π ω η) :=
  ⟨by rintro _ ⟨⟩, fun _ => trivial, by rintro _ _ ⟨⟩⟩

variable {w : ω}

omit [DecidableEq η] in
/-- A waiter takes a step. -/
theorem Inv.setWaiter (h : s.Inv C) {x : Waiter π} {owner : Option ω}
    (hself : x.owns = true → owner = some w)
    (hothers : ∀ w', w' ≠ w → s.owner = some w' → owner = some w')
    (hwaits : ∀ p, x.Waits p → C.Holds s.data p → ∃ h, .notifyAll ∈ s.handlers h) :
    (s.setWaiter w x owner).Inv C := by
  have hwaiters (w' : ω) :
      (s.setWaiter w x owner).waiters w' = if w' = w then x else s.waiters w' :=
    Function.update_apply s.waiters w x w'
  refine ⟨fun w' howns => ?_, h.announced, fun w' p hp => ?_⟩
  · rw [hwaiters] at howns
    split at howns
    · next heq => exact heq ▸ hself howns
    · next hne => exact hothers w' hne (h.owned w' howns)
  · rw [hwaiters] at hp
    split at hp
    · exact hwaits p hp
    · exact h.pending w' p hp

variable {i : η} {duties : List (Duty τ)}

omit [DecidableEq ω] [DecidableEq η] in
/-- A change that may make the predicate true is followed by a notification; any other keeps what was
pending. -/
theorem Inv.act (h : s.Inv C) {task : τ} (hduties : s.handlers i = .act task :: duties) {data : σ}
    (hperform : C.perform s.data task = some data) {p : π} (hwaits : (s.waiters w).Waits p)
    (hholds : C.Holds data p) :
    .notifyAll ∈ duties ∨ ∃ i', i' ≠ i ∧ .notifyAll ∈ s.handlers i' := by
  cases hraises : C.raises task with
  | true =>
    have hannounced := h.announced i
    rw [hduties] at hannounced
    exact .inl (hannounced.1 hraises)
  | false =>
    obtain ⟨i', hi'⟩ := h.pending w p hwaits (C.calm hperform hraises p hholds)
    by_cases heq : i' = i
    · rw [heq, hduties] at hi'
      rcases List.mem_cons.mp hi' with hact | hmem
      · cases hact
      · exact .inl hmem
    · exact .inr ⟨i', heq, hi'⟩

omit [DecidableEq ω] in
theorem handlers_setHandler (s : Monitor σ τ π ω η) (i : η) (duties : List (Duty τ)) (i' : η) :
    (s.setHandler i duties).handlers i' = if i' = i then duties else s.handlers i' :=
  Function.update_apply s.handlers i duties i'

omit [DecidableEq ω] in
theorem mem_setHandler {duty : Duty τ} (h : duty ∈ duties ∨ ∃ i', i' ≠ i ∧ duty ∈ s.handlers i') :
    ∃ i', duty ∈ (s.setHandler i duties).handlers i' := by
  simp only [handlers_setHandler]
  rcases h with hmem | ⟨i', hne, hmem⟩
  · exact ⟨i, by rw [if_pos rfl]; exact hmem⟩
  · exact ⟨i', by rw [if_neg hne]; exact hmem⟩

omit [DecidableEq ω] in
theorem announced_setHandler (h : s.Inv C) (hduties : Announced C.raises duties) (i' : η) :
    Announced C.raises ((s.setHandler i duties).handlers i') := by
  rw [handlers_setHandler]
  split
  · exact hduties
  · exact h.announced i'

/-- A handler changes the data, or notifies. -/
theorem Inv.proceed (h : s.Inv C) (hstep : s.step C (.proceed i) = some s') : s'.Inv C := by
  rw [step] at hstep
  split at hstep
  · cases hstep
  · next task duties hduties =>
      obtain ⟨data, hperform, rfl⟩ := Option.map_eq_some_iff.mp hstep
      have hannounced := h.announced i
      rw [hduties] at hannounced
      refine ⟨h.owned, announced_setHandler h hannounced.2, fun w p hwaits hholds => ?_⟩
      exact mem_setHandler (h.act hduties hperform hwaits hholds)
  · next duties hduties =>
      split at hstep
      · next howner =>
          cases hstep
          have hannounced := h.announced i
          rw [hduties] at hannounced
          have hnobody (w : ω) : (s.waiters w).owns ≠ true := by
            intro howns
            cases howner.symm.trans (h.owned w howns)
          refine ⟨fun w howns => ?_, announced_setHandler h hannounced, fun w p hwaits => ?_⟩
          · exact absurd ((Waiter.owns_woken _).symm.trans howns) (hnobody w)
          -- nobody has the mutex, and nobody is blocked any more
          · exact absurd (Waiter.unmet_of_waits_woken hwaits) (hnobody w)
      · cases hstep

/-- A step that announces what it changes keeps the invariant. -/
theorem inv_step {action : Action τ π ω η} (h : s.Inv C) (hannounces : action.Announces C)
    (hstep : s.step C action = some s') : s'.Inv C := by
  -- whoever gives the mutex up has it, so nobody else has
  have hfree {w : ω} (howns : (s.waiters w).owns = true) (w' : ω) (hne : w' ≠ w)
      (howner : s.owner = some w') : (none : Option ω) = some w' := by
    cases howner.symm.trans (h.owned w howns)
    exact absurd rfl hne
  cases action with
  | call w p =>
    rw [step] at hstep
    split at hstep
    · cases hstep
      exact h.setWaiter (by rintro ⟨⟩) (fun _ _ howner => howner) (by rintro _ ⟨⟩)
    · cases hstep
  | lock w =>
    rw [step] at hstep
    split at hstep
    · next howner =>
        cases hstep
        refine h.setWaiter (fun _ => rfl) (fun w' _ howner' => ?_) (by rintro _ ⟨⟩)
        cases howner.symm.trans howner'
    · cases hstep
  | test w =>
    rw [step] at hstep
    split at hstep
    · next p n hwaiter =>
        have howner : s.owner = some w := h.owned w (by rw [hwaiter]; rfl)
        split at hstep
        · cases hstep
          exact h.setWaiter (fun _ => howner) (fun _ _ howner => howner) (by rintro _ ⟨⟩)
        · next test htest =>
            cases hstep
            refine h.setWaiter (fun _ => howner) (fun _ _ howner => howner) ?_
            intro q hwaits hholds
            split at hwaits
            · cases hwaits
            · next hfails =>
                cases hwaits
                exact absurd (hholds test (List.mem_of_getElem? htest)) hfails
    · cases hstep
  | wait w =>
    rw [step] at hstep
    split at hstep
    · next p hwaiter =>
        cases hstep
        refine h.setWaiter (by rintro ⟨⟩) (hfree (by rw [hwaiter]; rfl)) ?_
        intro q hwaits
        apply h.pending w q
        rw [hwaiter]
        exact hwaits
    · cases hstep
  | leave w =>
    rw [step] at hstep
    split at hstep
    · next hwaiter =>
        cases hstep
        exact h.setWaiter (by rintro ⟨⟩) (hfree (by rw [hwaiter]; rfl)) (by rintro _ ⟨⟩)
    · next hwaiter =>
        cases hstep
        exact h.setWaiter (by rintro ⟨⟩) (hfree (by rw [hwaiter]; rfl)) (by rintro _ ⟨⟩)
    · cases hstep
  | wake w =>
    rw [step] at hstep
    split at hstep
    · cases hstep
      exact h.setWaiter (by rintro ⟨⟩) (fun _ _ howner => howner) (by rintro _ ⟨⟩)
    · cases hstep
  | handle i duties =>
    rw [step] at hstep
    split at hstep
    · next hidle =>
        cases hstep
        refine ⟨h.owned, announced_setHandler h hannounces, fun w p hwaits hholds => ?_⟩
        obtain ⟨i', hi'⟩ := h.pending w p hwaits hholds
        refine mem_setHandler (.inr ⟨i', ?_, hi'⟩)
        rintro rfl
        rw [hidle] at hi'
        cases hi'
    · cases hstep
  | proceed i => exact h.proceed hstep

/-- What every change of the data keeps is kept. -/
theorem data_step {I : σ → Prop}
    (hperform : ∀ {data task data'}, C.perform data task = some data' → I data → I data')
    {action : Action τ π ω η} (h : I s.data) (hstep : s.step C action = some s') : I s'.data := by
  cases action with
  | proceed i =>
    rw [step] at hstep
    split at hstep
    · cases hstep
    · obtain ⟨data, hdata, rfl⟩ := Option.map_eq_some_iff.mp hstep
      exact hperform hdata h
    · split at hstep
      · cases hstep
        exact h
      · cases hstep
  | test w =>
    rw [step] at hstep
    split at hstep
    · split at hstep <;> cases hstep <;> exact h
    · cases hstep
  | call | lock | wait | leave | wake | handle =>
    rw [step] at hstep
    split at hstep <;> cases hstep <;> exact h

omit [DecidableEq ω] [DecidableEq η] in
/-- A blocked waiter whose predicate holds is going to be woken. -/
theorem Inv.not_lost (h : s.Inv C) {p : π} (hblocked : s.waiters w = .blocked p)
    (hholds : C.Holds s.data p) : ∃ i, .notifyAll ∈ s.handlers i :=
  h.pending w p (by rw [hblocked]; rfl) hholds

end Monitor

end TweakTool.Lib
