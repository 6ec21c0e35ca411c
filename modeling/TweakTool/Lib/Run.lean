import Mathlib.Data.List.Basic

/-! # Runs of a step function

A component is given by a partial step function `step : σ → α → Option σ`: `step s a` is the
state after the action `a`, or `none` where `a` cannot be taken. A run is a list of actions.
Every state a run passes through is the last state of one of its prefixes, so a statement
about the last state of *every* run is a statement about every reachable state. -/

namespace TweakTool.Lib

variable {σ α : Type} {step : σ → α → Option σ}

/-- The state after the actions of a run, `none` if one of them cannot be taken. -/
def run (step : σ → α → Option σ) (s : σ) : List α → Option σ
  | [] => some s
  | a :: as =>
    match step s a with
    | none => none
    | some t => run step t as

/-- `ok` holds of every action of the run, in the state it is taken from. -/
def Along (step : σ → α → Option σ) (ok : σ → α → Prop) (s : σ) : List α → Prop
  | [] => True
  | a :: as => ok s a ∧
    match step s a with
    | none => True
    | some t => Along step ok t as

/-- `P` holds of every state the run passes through, the first and the last included. -/
def Throughout (step : σ → α → Option σ) (P : σ → Prop) (s : σ) : List α → Prop
  | [] => P s
  | a :: as => P s ∧
    match step s a with
    | none => True
    | some t => Throughout step P t as

/-- Whether a concrete run meets a decidable condition can be evaluated. -/
instance Along.decidable (step : σ → α → Option σ) (ok : σ → α → Prop)
    [∀ s a, Decidable (ok s a)] : ∀ (s : σ) (as : List α), Decidable (Along step ok s as)
  | _, [] => .isTrue trivial
  | s, a :: as =>
    match h : step s a with
    | none => decidable_of_iff (ok s a) (by simp [Along, h])
    | some t =>
      have := Along.decidable step ok t as
      decidable_of_iff (ok s a ∧ Along step ok t as) (by simp [Along, h])

@[simp] theorem run_nil (s : σ) : run step s [] = some s := rfl

theorem run_cons (s : σ) (a : α) (as : List α) :
    run step s (a :: as) = (step s a).bind (run step · as) := by
  rw [run]
  cases step s a with
  | none => rfl
  | some t => rfl

variable {s : σ} {a : α} {t : σ}

theorem run_cons_of (h : step s a = some t) (as : List α) :
    run step s (a :: as) = run step t as := by
  rw [run_cons, h]
  rfl

variable {as : List α}

theorem run_cons_eq_some {u : σ} :
    run step s (a :: as) = some u ↔ ∃ t, step s a = some t ∧ run step t as = some u := by
  rw [run]
  cases h : step s a with
  | none => simp
  | some t => simp

theorem run_append (s : σ) (as bs : List α) :
    run step s (as ++ bs) = (run step s as).bind (run step · bs) := by
  induction as generalizing s with
  | nil => rfl
  | cons a as ih =>
    rw [List.cons_append, run, run]
    cases step s a with
    | none => rfl
    | some t => exact ih t

variable {ok : σ → α → Prop}

theorem along_cons (h : step s a = some t) :
    Along step ok s (a :: as) ↔ ok s a ∧ Along step ok t as := by
  simp [Along, h]

/-- A condition on the actions alone. -/
theorem along_append {bs : List α} (has : Along step ok s as)
    (hbs : ∀ t, run step s as = some t → Along step ok t bs) : Along step ok s (as ++ bs) := by
  induction as generalizing s with
  | nil => exact hbs s rfl
  | cons a as ih =>
    refine ⟨has.1, ?_⟩
    cases ha : step s a with
    | none => trivial
    | some t => exact ih ((along_cons ha).mp has).2 fun u hu => hbs u (run_cons_eq_some.mpr ⟨t, ha, hu⟩)

/-! ## Invariants -/

variable {P : σ → Prop}

/-- A property that every step keeps holds at the end of every run. -/
theorem run_invariant (hstep : ∀ {s a t}, P s → step s a = some t → P t) :
    ∀ {as : List α} {s t : σ}, P s → run step s as = some t → P t
  | [], s, t, hs, hrun => by
    cases hrun
    exact hs
  | a :: as, s, t, hs, hrun => by
    obtain ⟨u, hu, hrest⟩ := run_cons_eq_some.mp hrun
    exact run_invariant hstep (hstep hs hu) hrest

/-- A property that every step meeting `ok` keeps holds at the end of every run all of whose
steps meet `ok`. -/
theorem run_invariant_along (hstep : ∀ {s a t}, P s → ok s a → step s a = some t → P t) :
    ∀ {as : List α} {s t : σ}, P s → Along step ok s as → run step s as = some t → P t
  | [], s, t, hs, _, hrun => by
    cases hrun
    exact hs
  | a :: as, s, t, hs, hok, hrun => by
    obtain ⟨u, hu, hrest⟩ := run_cons_eq_some.mp hrun
    obtain ⟨hnow, hlater⟩ := (along_cons hu).mp hok
    exact run_invariant_along hstep (hstep hs hnow hu) hlater hrest

variable {Q : σ → Prop}

/-- The same for every state the run passes through, whether or not it can be taken to its end. -/
theorem throughout_invariant_along (hstep : ∀ {s a t}, P s → ok s a → step s a = some t → P t)
    (hstate : ∀ {s}, P s → Q s) :
    ∀ {as : List α} {s : σ}, P s → Along step ok s as → Throughout step Q s as
  | [], _, hs, _ => hstate hs
  | a :: as, s, hs, hok => by
    refine ⟨hstate hs, ?_⟩
    cases ht : step s a with
    | none => trivial
    | some t =>
      obtain ⟨hnow, hlater⟩ := (along_cons ht).mp hok
      exact throughout_invariant_along hstep hstate (hstep hs hnow ht) hlater

/-- A property that every step keeps holds of every state a run passes through. -/
theorem throughout_invariant (hstep : ∀ {s a t}, P s → step s a = some t → P t)
    (hstate : ∀ {s}, P s → Q s) : ∀ {as : List α} {s : σ}, P s → Throughout step Q s as
  | [], _, hs => hstate hs
  | a :: as, s, hs => by
    refine ⟨hstate hs, ?_⟩
    cases ht : step s a with
    | none => trivial
    | some t => exact throughout_invariant hstep hstate (hstep hs ht)

/-- The rule for conditions on the steps themselves. -/
theorem along_invariant_along {ok' : σ → α → Prop}
    (hstep : ∀ {s a t}, P s → ok s a → step s a = some t → P t)
    (hok' : ∀ {s a}, P s → ok s a → ok' s a) :
    ∀ {as : List α} {s : σ}, P s → Along step ok s as → Along step ok' s as
  | [], _, _, _ => trivial
  | a :: as, s, hs, hok => by
    refine ⟨hok' hs hok.1, ?_⟩
    cases ht : step s a with
    | none => trivial
    | some t =>
      obtain ⟨hnow, hlater⟩ := (along_cons ht).mp hok
      exact along_invariant_along hstep hok' (hstep hs hnow ht) hlater

variable {τ : Type} {R : σ → τ → Prop} {abstract : τ → α → τ}

/-- The simulation rule: a relation between the states and an abstract state that every step
meeting `ok` keeps, holds at the end of every run all of whose steps meet `ok`. -/
theorem run_simulation_along
    (hstep : ∀ {s a s' t}, R s t → ok s a → step s a = some s' → R s' (abstract t a)) :
    ∀ {as : List α} {s s' : σ} {t : τ}, R s t → Along step ok s as → run step s as = some s' →
      R s' (as.foldl abstract t)
  | [], s, s', t, hs, _, hrun => by
    cases hrun
    exact hs
  | a :: as, s, s', t, hs, hok, hrun => by
    obtain ⟨u, hu, hrest⟩ := run_cons_eq_some.mp hrun
    obtain ⟨hnow, hlater⟩ := (along_cons hu).mp hok
    rw [List.foldl_cons]
    exact run_simulation_along hstep (hstep hs hnow hu) hlater hrest

/-- The rule for runs that come to their end: what the abstract state allows can be done, and keeps
the relation. -/
theorem run_total_simulation {ok : τ → α → Prop}
    (hstep : ∀ {s t a}, R s t → ok t a → ∃ s', step s a = some s' ∧ R s' (abstract t a)) :
    ∀ {as : List α} {s : σ} {t : τ}, R s t → Along (fun t a => some (abstract t a)) ok t as →
      ∃ s', run step s as = some s' ∧ R s' (as.foldl abstract t)
  | [], s, _, hs, _ => ⟨s, rfl, hs⟩
  | a :: as, s, t, hs, hok => by
    obtain ⟨hnow, hlater⟩ := (along_cons rfl).mp hok
    obtain ⟨u, hu, hR⟩ := hstep hs hnow
    obtain ⟨s', hrun, hs'⟩ := run_total_simulation hstep hR hlater
    exact ⟨s', run_cons_eq_some.mpr ⟨u, hu, hrun⟩, hs'⟩

/-- The exactness rule: when a step from a state with `Q` leads to a state with `Q` exactly if it
meets `ok`, a run stays in `Q` exactly if all its steps meet `ok`. -/
theorem throughout_iff_along (hstep : ∀ {s a t}, Q s → step s a = some t → (ok s a ↔ Q t))
    (hnone : ∀ {s a}, step s a = none → ok s a) (hs : Q s) (as : List α) :
    Throughout step Q s as ↔ Along step ok s as := by
  induction as generalizing s with
  | nil => exact iff_of_true hs trivial
  | cons a as ih =>
    rw [Throughout, Along]
    cases ht : step s a with
    | none => exact iff_of_true ⟨hs, trivial⟩ ⟨hnone ht, trivial⟩
    | some t =>
      dsimp only
      by_cases hok : ok s a
      · have hQ : Q t := (hstep hs ht).mp hok
        rw [and_iff_right hs, and_iff_right hok]
        exact ih hQ
      · have hQ : ¬ Q t := mt (hstep hs ht).mpr hok
        refine iff_of_false ?_ fun h => hok h.1
        rintro ⟨_, h⟩
        cases as with
        | nil => exact hQ h
        | cons b bs => exact hQ h.1

end TweakTool.Lib
