import Mathlib.Data.List.Nodup
import Mathlib.Logic.Function.Basic

/-! # Feeds

The owner of a map feeds a copy of it. An entry of the map is a declaration, which never changes, and
a value. Events tell of entries and travel in order; before they are sent they are jobs, and a job
becomes an event by what the map holds when the job is executed. -/

namespace TweakTool.Lib

variable {K A B C U : Type}

inductive Event (K A B : Type) where
  | add (k : K) (entry : A × B)
  | change (k : K) (value : B)
  | remove (k : K)

/-- A map of declared entries. -/
abbrev View (K A B : Type) := K → Option (A × B)

def withValue (value : C) (entry : A × B) : A × C := (entry.1, value)

namespace Event

def key : Event K A B → K
  | add k _ | change k _ | remove k => k

/-- What becomes of the entry of the key. -/
def effect : Event K A B → Option (A × B) → Option (A × B)
  | add _ entry, _ => some entry
  | change _ value, old => old.map (withValue value)
  | remove _, _ => none

/-- The event without its value. -/
def outline : Event K A B → Event K A Unit
  | add k entry => add k (entry.1, ())
  | change k _ => change k ()
  | remove k => remove k

end Event

namespace View

/-- The declarations. -/
def outline (v : View K A B) : View K A Unit := fun k => (v k).map (withValue ())

variable {v w : View K A B} {k : K}

theorem outline_eq_some {a : A} : v.outline k = some (a, ()) ↔ ∃ value, v k = some (a, value) := by
  unfold outline
  cases v k with
  | none => simp
  | some entry =>
    obtain ⟨a', value⟩ := entry
    simp [withValue]

theorem outline_eq_none : v.outline k = none ↔ v k = none := Option.map_eq_none_iff

variable [DecidableEq K]

def apply (v : View K A B) (e : Event K A B) : View K A B :=
  Function.update v e.key (e.effect (v e.key))

/-- The map after a list of events. -/
def after (v : View K A B) (es : List (Event K A B)) : View K A B := es.foldl apply v

/-- The map with another value for a key. -/
def modify (v : View K A B) (k : K) (value : B) : View K A B :=
  Function.update v k ((v k).map (withValue value))

theorem after_append (v : View K A B) (es fs : List (Event K A B)) :
    v.after (es ++ fs) = (v.after es).after fs := List.foldl_append

/-- An event leaves the other keys alone. -/
theorem apply_congr (h : v k = w k) (e : Event K A B) : v.apply e k = w.apply e k := by
  unfold apply
  by_cases hk : k = e.key
  · rw [hk] at h ⊢
    rw [Function.update_self, Function.update_self, h]
  · rw [Function.update_of_ne hk, Function.update_of_ne hk, h]

/-- What becomes of a key depends on its own entry only. -/
theorem after_congr (es : List (Event K A B)) (h : v k = w k) : v.after es k = w.after es k := by
  induction es generalizing v w with
  | nil => exact h
  | cons e es ih => exact ih (apply_congr h e)

theorem outline_update (v : View K A B) (k : K) (entry : Option (A × B)) :
    outline (Function.update v k entry) =
      Function.update v.outline k (entry.map (withValue ())) := by
  funext k'
  unfold outline
  by_cases hk : k' = k
  · rw [hk, Function.update_self, Function.update_self]
  · rw [Function.update_of_ne hk, Function.update_of_ne hk]

theorem outline_apply (v : View K A B) (e : Event K A B) :
    (v.apply e).outline = v.outline.apply e.outline := by
  unfold apply
  rw [outline_update]
  cases e with
  | add k entry | remove k => rfl
  | change k value =>
    have hentry : ((v k).map (withValue value)).map (withValue ()) =
        (v.outline k).map (withValue ()) := by
      unfold outline
      rw [Option.map_map, Option.map_map]
      rfl
    exact congrArg (Function.update v.outline k) hentry

/-- The declarations after some events are told by their outlines. -/
theorem outline_after (v : View K A B) (es : List (Event K A B)) :
    (v.after es).outline = v.outline.after (es.map Event.outline) := by
  induction es generalizing v with
  | nil => rfl
  | cons e es ih =>
    show ((v.apply e).after es).outline = (v.outline.apply e.outline).after _
    rw [ih, outline_apply]

/-- A new value is no news about the declarations. -/
theorem outline_modify (v : View K A B) (k : K) (value : B) : (v.modify k value).outline = v.outline := by
  unfold modify
  rw [outline_update, Option.map_map]
  exact Function.update_eq_self k v.outline

theorem modify_self (v : View K A B) (k : K) (value : B) :
    v.modify k value k = (v k).map (withValue value) := Function.update_self ..

theorem modify_of_ne {k' : K} (h : k' ≠ k) (v : View K A B) (value : B) :
    v.modify k value k' = v k' := Function.update_of_ne h ..

/-- A value does not matter for the declarations. -/
theorem outline_after_modify (v : View K A B) (k : K) (value : B) (es : List (Event K A B)) :
    ((v.modify k value).after es).outline = (v.after es).outline := by
  rw [outline_after, outline_after, outline_modify]

end View

/-! ## Events that fit

No two entries of a map have declarations of the same name. -/

section Fits

variable (name : A → U)

/-- An added entry is new, in key and name. -/
def Fits (v : View K A B) : Event K A B → Prop
  | .add k entry => v k = none ∧ ∀ k' entry', v k' = some entry' → name entry'.1 ≠ name entry.1
  | _ => True

variable {v : View K A B}

theorem fits_outline {e : Event K A B} : Fits name v.outline e.outline ↔ Fits name v e := by
  cases e with
  | change k value | remove k => exact Iff.rfl
  | add k entry =>
    show v.outline k = none ∧ _ ↔ v k = none ∧ _
    rw [View.outline_eq_none]
    refine and_congr_right fun _ => ?_
    constructor
    · intro h k' entry' hk'
      exact h k' _ (View.outline_eq_some.mpr ⟨entry'.2, hk'⟩)
    · intro h k' entry' hk'
      obtain ⟨value, hvalue⟩ := View.outline_eq_some.mp hk'
      exact h k' _ hvalue

variable [DecidableEq K]

def FitsAll (v : View K A B) : List (Event K A B) → Prop
  | [] => True
  | e :: es => Fits name v e ∧ FitsAll (v.apply e) es

variable {name}

variable {es : List (Event K A B)}

theorem fitsAll_append {fs : List (Event K A B)} :
    FitsAll name v (es ++ fs) ↔ FitsAll name v es ∧ FitsAll name (v.after es) fs := by
  induction es generalizing v with
  | nil => exact ⟨fun h => ⟨trivial, h⟩, fun h => h.2⟩
  | cons e es ih =>
    show _ ∧ FitsAll name (v.apply e) (es ++ fs) ↔ (_ ∧ _) ∧ _
    rw [ih, and_assoc]
    rfl

/-- Whether events fit is a matter of declarations. -/
theorem fitsAll_outline : FitsAll name v.outline (es.map Event.outline) ↔ FitsAll name v es := by
  induction es generalizing v with
  | nil => exact Iff.rfl
  | cons e es ih =>
    show Fits name v.outline e.outline ∧ FitsAll name (v.outline.apply e.outline) _ ↔ _ ∧ _
    rw [fits_outline, ← View.outline_apply, ih]

theorem fitsAll_modify (k : K) (value : B) :
    FitsAll name (v.modify k value) es ↔ FitsAll name v es := by
  rw [← fitsAll_outline, View.outline_modify, fitsAll_outline]

end Fits

/-! ## Jobs -/

inductive Job (K : Type) where
  | append (k : K)
  | remove (k : K)

/-- The events of a job that is executed now. -/
def Job.events (owner : View K A B) : Job K → List (Event K A B)
  | .append k => (owner k).toList.map (.add k)
  | .remove k => [.remove k]

/-- The events of the jobs, if they were executed now. -/
def feed (owner : View K A B) (jobs : List (Job K)) : List (Event K A B) :=
  jobs.flatMap (Job.events owner)

section Feed

variable {owner owner' v w : View K A B} {name : A → U} {k : K}

theorem events_append_some {entry : A × B} (h : owner k = some entry) :
    Job.events owner (.append k) = [.add k entry] := by
  rw [Job.events, h]
  rfl

theorem events_append_none (h : owner k = none) : Job.events owner (.append k) = [] := by
  rw [Job.events, h]
  rfl

theorem feed_cons (job : Job K) (jobs : List (Job K)) :
    feed owner (job :: jobs) = job.events owner ++ feed owner jobs := List.flatMap_cons

theorem feed_append (jobs jobs' : List (Job K)) :
    feed owner (jobs ++ jobs') = feed owner jobs ++ feed owner jobs' := List.flatMap_append

/-- Nor for the events of the jobs. -/
theorem feed_outline (h : owner.outline = owner'.outline) (jobs : List (Job K)) :
    (feed owner jobs).map Event.outline = (feed owner' jobs).map Event.outline := by
  have hjob (job : Job K) :
      (job.events owner).map Event.outline = (job.events owner').map Event.outline := by
    cases job with
    | remove k => rfl
    | append k =>
      have hk : (owner k).map (withValue ()) = (owner' k).map (withValue ()) := congrFun h k
      cases hk1 : owner k <;> cases hk2 : owner' k <;> rw [hk1, hk2] at hk
      · rw [events_append_none hk1, events_append_none hk2]
      · cases hk
      · cases hk
      · rw [events_append_some hk1, events_append_some hk2]
        simpa [Event.outline, withValue] using hk
  induction jobs with
  | nil => rfl
  | cons job jobs ih => rw [feed_cons, feed_cons, List.map_append, List.map_append, hjob, ih]

variable [DecidableEq K]

/-- Jobs that do not append an entry do not look at it. -/
theorem feed_update {jobs : List (Job K)} (h : .append k ∉ jobs) (entry : Option (A × B)) :
    feed (Function.update owner k entry) jobs = feed owner jobs := by
  induction jobs with
  | nil => rfl
  | cons job jobs ih =>
    rw [List.mem_cons, not_or] at h
    rw [feed_cons, feed_cons, ih h.2]
    cases job with
    | remove k' => rfl
    | append k' =>
      have hk : k' ≠ k := fun hk => h.1 (hk ▸ rfl)
      rw [Job.events, Job.events, Function.update_of_ne hk]

/-- Changes of other entries do not show. -/
theorem after_feed_congr (jobs : List (Job K)) (hv : v k = w k) (howner : owner k = owner' k) :
    v.after (feed owner jobs) k = w.after (feed owner' jobs) k := by
  induction jobs generalizing v w with
  | nil => exact hv
  | cons job jobs ih =>
    rw [feed_cons, feed_cons, View.after_append, View.after_append]
    apply ih
    cases job with
    | remove k' => exact View.apply_congr hv _
    | append k' =>
      by_cases hk : k' = k
      · show v.after ((owner k').toList.map _) k = w.after ((owner' k').toList.map _) k
        rw [hk, howner]
        exact View.after_congr _ hv
      · -- an entry is added under another key, if at all
        have hother (u : View K A B) (entries : Option (A × B)) :
            u.after (entries.toList.map (.add k')) k = u k := by
          cases entries with
          | none => rfl
          | some entry => exact Function.update_of_ne (Ne.symm hk) ..
        show v.after ((owner k').toList.map _) k = w.after ((owner' k').toList.map _) k
        rw [hother, hother, hv]

/-- Jobs that are executed now write the present value. -/
theorem after_feed_value (jobs : List (Job K)) {entry : A × B} (howner : owner k = some entry)
    (hv : ∀ old, v k = some old → old.2 = entry.2) :
    ∀ new, v.after (feed owner jobs) k = some new → new.2 = entry.2 := by
  induction jobs generalizing v with
  | nil => exact hv
  | cons job jobs ih =>
    rw [feed_cons, View.after_append]
    apply ih
    intro old hold
    cases job with
    | remove k' =>
      replace hold : Function.update v k' none k = some old := hold
      by_cases hk : k = k'
      · rw [hk, Function.update_self] at hold
        cases hold
      · rw [Function.update_of_ne hk] at hold
        exact hv old hold
    | append k' =>
      by_cases hk : k = k' -- the entry is sent as it is now
      · rw [← hk, events_append_some howner] at hold
        replace hold : Function.update v k (some entry) k = some old := hold
        rw [Function.update_self] at hold
        cases hold
        rfl
      · cases hk' : owner k' with
        | none =>
          rw [events_append_none hk'] at hold
          exact hv old hold
        | some entry' =>
          rw [events_append_some hk'] at hold
          replace hold : Function.update v k' (some entry') k = some old := hold
          rw [Function.update_of_ne hk] at hold
          exact hv old hold

/-- Without an entry of the owner, jobs that append it do nothing; all other events still fit. The
copy without the dropped additions agrees with the one that had them under all other keys. -/
theorem FitsAll.erase {jobs : List (Job K)} (h : FitsAll name w (feed owner jobs))
    (hother : ∀ k', k' ≠ k → v k' = w k') (hk : v k = none ∨ v k = w k) :
    FitsAll name v (feed (Function.update owner k none) jobs) := by
  induction jobs generalizing v w with
  | nil => trivial
  | cons job jobs ih =>
    rw [feed_cons, fitsAll_append] at h ⊢
    cases job with
    | remove k' =>
      refine ⟨⟨trivial, trivial⟩, ih h.2 ?_ ?_⟩
      · intro k'' hk''
        exact View.apply_congr (hother k'' hk'') _
      · by_cases hkk' : k = k'
        · left
          rw [hkk']
          exact Function.update_self ..
        · show Function.update v k' none k = none ∨
            Function.update v k' none k = Function.update w k' none k
          rwa [Function.update_of_ne hkk', Function.update_of_ne hkk']
    | append k' =>
      by_cases hkk' : k' = k
      · -- the addition is dropped
        rw [hkk', events_append_none (Function.update_self ..)]
        rw [hkk'] at h
        refine ⟨trivial, ?_⟩
        cases hentry : owner k with
        | none =>
          rw [events_append_none hentry] at h
          exact ih h.2 hother hk
        | some entry =>
          rw [events_append_some hentry] at h
          have hfresh : w k = none := h.1.1.1
          refine ih h.2 ?_ (.inl ?_)
          · intro k'' hk''
            exact (hother k'' hk'').trans (Function.update_of_ne hk'' ..).symm
          · exact hk.elim id fun hk => hk.trans hfresh
      · have hsame : Function.update owner k none k' = owner k' := Function.update_of_ne hkk' ..
        cases hentry : owner k' with
        | none =>
          rw [events_append_none hentry] at h
          rw [events_append_none (hsame.trans hentry)]
          exact ⟨trivial, ih h.2 hother hk⟩
        | some entry =>
          rw [events_append_some hentry] at h
          rw [events_append_some (hsame.trans hentry)]
          obtain ⟨⟨⟨hfresh, hname⟩, _⟩, hrest⟩ := h
          refine ⟨⟨⟨(hother k' hkk').trans hfresh, ?_⟩, trivial⟩, ih hrest ?_ ?_⟩
          · intro k'' entry'' hk''
            by_cases hkk'' : k'' = k
            · rw [hkk''] at hk''
              rcases hk with hk | hk
              · rw [hk] at hk''
                cases hk''
              · exact hname k entry'' (hk ▸ hk'')
            · exact hname k'' entry'' (hother k'' hkk'' ▸ hk'')
          · intro k'' hk''
            exact View.apply_congr (hother k'' hk'') _
          · show Function.update v k' _ k = none ∨
              Function.update v k' _ k = Function.update w k' _ k
            rwa [Function.update_of_ne (Ne.symm hkk'), Function.update_of_ne (Ne.symm hkk')]

end Feed

end TweakTool.Lib
