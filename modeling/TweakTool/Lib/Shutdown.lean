import TweakTool.Lib.Run
import Mathlib.Data.List.Infix

/-! # Shutting down a worker

A worker pulls the jobs of a queue in batches and executes them one after another. It looks whether
the queue has been stopped when it pulls, and not between two jobs. The destructor stops the queue,
destroys a resource that jobs use, and joins the worker. In between the worker finishes its batch. -/

namespace TweakTool.Lib

/-- Where a step comes from. -/
inductive Source where
  | worker
  | resource -- a thread that ends when the resource is destroyed
  | other
  deriving DecidableEq

/-- A component with a worker. Only the worker takes jobs, one at a time; the others append. -/
structure Host (σ α J : Type) where
  step : σ → α → Option σ
  source : α → Source
  jobs : σ → List J
  idle : σ → Bool -- the worker is between two jobs
  uses : σ → Bool -- the next step of the worker uses the resource
  release : σ → σ -- what the destructor does just before it destroys the resource
  step_jobs : ∀ {s a s'}, step s a = some s' → source a ≠ .worker → jobs s <+: jobs s'
  take_jobs : ∀ {s a s'}, step s a = some s' → source a = .worker → idle s = true →
    ∃ job, jobs s = job :: jobs s'
  keep_jobs : ∀ {s a s'}, step s a = some s' → source a = .worker → idle s = false →
    jobs s' = jobs s
  release_jobs : ∀ s, jobs (release s) = jobs s

/-- How far the destructor has come. -/
inductive Stage where
  | running
  | stopped
  | released
  | destroyed
  | joined
  deriving DecidableEq

def Stage.gone : Stage → Bool
  | .destroyed | .joined => true
  | .running | .stopped | .released => false

structure Shutdown (σ : Type) where
  host : σ
  batch : Nat -- how many jobs of the queue have been pulled: the first ones
  stage : Stage

namespace Shutdown

variable {σ α J : Type}

inductive Action (α : Type) where
  | act (a : α)
  | pull
  | destruct

/-- Whether the thread is there, and has something to do. -/
def may (h : Host σ α J) (s : Shutdown σ) (a : α) : Bool :=
  match h.source a with
  | .worker => s.stage != .joined && (!h.idle s.host || s.batch != 0)
  | .resource => !s.stage.gone
  | .other => s.stage != .joined

/-- The jobs of the batch that are left after the step. -/
def left (h : Host σ α J) (s : Shutdown σ) (a : α) : Nat :=
  if h.source a = .worker ∧ h.idle s.host = true then s.batch - 1 else s.batch

def step (h : Host σ α J) (s : Shutdown σ) : Action α → Option (Shutdown σ)
  | .act a =>
    if s.may h a then
      (h.step s.host a).map fun host => { s with host := host, batch := s.left h a }
    else none
  | .pull =>
    if h.idle s.host = true ∧ s.batch = 0 ∧ s.stage = .running then
      some { s with batch := (h.jobs s.host).length }
    else none
  | .destruct =>
    match s.stage with
    | .running => some { s with stage := .stopped }
    | .stopped => some { s with host := h.release s.host, stage := .released }
    | .released => some { s with stage := .destroyed }
    | .destroyed =>
      if h.idle s.host = true ∧ s.batch = 0 then some { s with stage := .joined } else none
    | .joined => none

/-- The jobs that have been pulled and not been started. -/
def pulled (h : Host σ α J) (s : Shutdown σ) : List J := (h.jobs s.host).take s.batch

/-- The worker is not about to use a resource that is gone. -/
def Safe (h : Host σ α J) (s : Shutdown σ) : Prop :=
  s.stage.gone = true → h.uses s.host = false

section Settled

variable (h : Host σ α J) (Quiet : σ → Prop) (Harmless : J → Prop)

/-- When the resource is destroyed, the worker is not using it and what it has pulled is harmless. -/
def Settled (s : Shutdown σ) : Action α → Prop
  | .destruct => s.stage = .released → Quiet s.host ∧ ∀ job ∈ s.pulled h, Harmless job
  | .act _ | .pull => True

instance [DecidablePred Quiet] [DecidablePred Harmless] (s : Shutdown σ) :
    ∀ action, Decidable (Settled h Quiet Harmless s action)
  | .destruct => inferInstanceAs (Decidable (_ → _ ∧ ∀ job ∈ s.pulled h, Harmless job))
  | .act _ | .pull => .isTrue trivial

/-- The batch is a part of the queue, and harmless once the resource is gone. -/
structure Inv (s : Shutdown σ) : Prop where
  batch : s.batch ≤ (h.jobs s.host).length
  quiet : s.stage.gone = true → Quiet s.host
  harmless : s.stage.gone = true → ∀ job ∈ s.pulled h, Harmless job

end Settled

variable {h : Host σ α J} {Quiet : σ → Prop} {Harmless : J → Prop} {s s' : Shutdown σ} {a : α}

/-- What other threads do leaves the batch alone. -/
theorem pulled_other (hbatch : s.batch ≤ (h.jobs s.host).length) {host : σ}
    (hstep : h.step s.host a = some host) (hsource : h.source a ≠ .worker) :
    s.batch ≤ (h.jobs host).length ∧ (h.jobs host).take s.batch = s.pulled h := by
  obtain ⟨new, hnew⟩ := h.step_jobs hstep hsource
  rw [← hnew]
  constructor
  · rw [List.length_append]
    omega
  · exact List.take_append_of_le_length hbatch

/-- What the worker does shortens it by the job that it takes. -/
theorem pulled_worker (hbatch : s.batch ≤ (h.jobs s.host).length) {host : σ}
    (hstep : h.step s.host a = some host) (hsource : h.source a = .worker)
    (hmay : s.may h a = true) :
    s.left h a ≤ (h.jobs host).length ∧
      (∀ job ∈ (h.jobs host).take (s.left h a), job ∈ s.pulled h) ∧
      (h.idle s.host = true → ∀ job rest, h.jobs s.host = job :: rest → job ∈ s.pulled h) := by
  cases hidle : h.idle s.host with
  | false =>
    have hleft : s.left h a = s.batch := if_neg (by simp [hidle])
    rw [hleft, h.keep_jobs hstep hsource hidle]
    refine ⟨hbatch, fun job hjob => hjob, ?_⟩
    rintro ⟨⟩
  | true =>
    obtain ⟨job, hjobs⟩ := h.take_jobs hstep hsource hidle
    have hpos : s.batch ≠ 0 := by
      simp only [may, hsource, hidle, Bool.not_true, Bool.false_or, Bool.and_eq_true,
        bne_iff_ne] at hmay
      exact hmay.2
    have hleft : s.left h a = s.batch - 1 := if_pos ⟨hsource, hidle⟩
    have hpulled : s.pulled h = job :: (h.jobs host).take (s.batch - 1) := by
      rw [pulled, hjobs, List.take_cons (Nat.pos_of_ne_zero hpos)]
    rw [hleft, hpulled]
    refine ⟨?_, fun _ => List.mem_cons_of_mem _, ?_⟩
    · rw [hjobs, List.length_cons] at hbatch
      omega
    · intro _ job' rest hrest
      rw [hjobs] at hrest
      cases hrest
      exact List.mem_cons_self

/-- The rule: a worker that is quiet stays so as long as it only takes harmless jobs, and then never
uses the resource. -/
theorem inv_step
    (hquiet : ∀ {s a s'}, Quiet s → h.source a ≠ .resource →
      (h.source a = .worker → h.idle s = true → ∀ job rest, h.jobs s = job :: rest →
        Harmless job) → h.step s a = some s' → Quiet s')
    {action : Action α} (hs : Inv h Quiet Harmless s) (hok : Settled h Quiet Harmless s action)
    (hstep : step h s action = some s') : Inv h Quiet Harmless s' := by
  cases action with
  | act a =>
    rw [step] at hstep
    split at hstep
    · next hmay =>
        obtain ⟨host, hhost, rfl⟩ := Option.map_eq_some_iff.mp hstep
        have hresource : s.stage.gone = true → h.source a ≠ .resource := by
          intro hgone hsource
          simp [may, hsource, hgone] at hmay
        by_cases hsource : h.source a = .worker
        · obtain ⟨hbatch, hsub, hnext⟩ := pulled_worker hs.batch hhost hsource hmay
          refine ⟨hbatch, fun hgone => ?_, fun hgone job hjob => ?_⟩
          · exact hquiet (hs.quiet hgone) (hresource hgone)
              (fun _ hidle job rest hjobs => hs.harmless hgone job (hnext hidle job rest hjobs))
              hhost
          · exact hs.harmless hgone job (hsub job hjob)
        · have hleft : s.left h a = s.batch := if_neg fun hboth => hsource hboth.1
          obtain ⟨hbatch, hsame⟩ := pulled_other hs.batch hhost hsource
          refine ⟨hleft ▸ hbatch, fun hgone => ?_, fun hgone job hjob => ?_⟩
          · exact hquiet (hs.quiet hgone) (hresource hgone) (fun h => absurd h hsource) hhost
          · apply hs.harmless hgone job
            rw [← hsame, ← hleft]
            exact hjob
    · cases hstep
  | pull =>
    rw [step] at hstep
    split at hstep
    · next hpull =>
        cases hstep
        -- nothing is pulled once the queue has been stopped
        have halive : s.stage.gone = false := by rw [hpull.2.2]; rfl
        refine ⟨Nat.le_refl _, fun hgone => ?_, fun hgone => ?_⟩
        · exact hs.quiet hgone
        · rw [halive] at hgone
          cases hgone
    · cases hstep
  | destruct =>
    rw [step] at hstep
    split at hstep
    · cases hstep
      exact ⟨hs.batch, by rintro ⟨⟩, by rintro ⟨⟩⟩
    · cases hstep
      refine ⟨?_, by rintro ⟨⟩, by rintro ⟨⟩⟩
      rw [h.release_jobs]
      exact hs.batch
    · next hstage =>
        cases hstep
        obtain ⟨hquiet, hharmless⟩ := hok hstage
        exact ⟨hs.batch, fun _ => hquiet, fun _ => hharmless⟩
    · next hstage =>
        have hgone : s.stage.gone = true := by rw [hstage]; rfl
        split at hstep
        · cases hstep
          exact ⟨hs.batch, fun _ => hs.quiet hgone, fun _ => hs.harmless hgone⟩
        · cases hstep
    · cases hstep

/-- If all is settled when the resource goes, the worker does not use it any more. -/
theorem safe_throughout
    (hquiet : ∀ {s a s'}, Quiet s → h.source a ≠ .resource →
      (h.source a = .worker → h.idle s = true → ∀ job rest, h.jobs s = job :: rest →
        Harmless job) → h.step s a = some s' → Quiet s')
    (huses : ∀ {s}, Quiet s → h.uses s = false)
    {host : σ} {batch : Nat} (hbatch : batch ≤ (h.jobs host).length) {actions : List (Action α)}
    (hok : Along (step h) (Settled h Quiet Harmless) ⟨host, batch, .running⟩ actions) :
    Throughout (step h) (Safe h) ⟨host, batch, .running⟩ actions := by
  apply throughout_invariant_along (P := Inv h Quiet Harmless) (inv_step hquiet) ?_ ?_ hok
  · intro s hs hgone
    exact huses (hs.quiet hgone)
  · exact ⟨hbatch, by rintro ⟨⟩, by rintro ⟨⟩⟩

end Shutdown

end TweakTool.Lib
