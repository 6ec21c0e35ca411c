import TweakTool.Lib.Run
import Mathlib.Data.List.Nodup
import Mathlib.Logic.Function.Basic

/-! # Connection notifications

A connection of `tweakwire_nng.c` counts its peers, and tells its state listener when the first one
comes and when the last one goes. The callbacks of different peers run on different threads: the
counter is updated under `peers_lock`, the listener is called after the unlock. -/

namespace TweakTool.Wire.Nng

open TweakTool.Lib

inductive State where
  | connected
  | disconnected
  deriving DecidableEq

/-- Where the callbacks of a peer stand. Between its two steps a callback holds the number of peers
that it has read under the lock. -/
inductive Stage where
  | absent
  | adding (peers : UInt32) -- in `on_new_connection`
  | added
  | losing (peers : UInt32) -- in `on_connection_lost`
  deriving DecidableEq

/-- A connection: the counter, the peers, and all that its listener was called with so far. -/
structure Connection (π : Type) where
  peersCount : UInt32
  peers : π → Stage
  delivered : List State

inductive Action (π : Type) where
  | newConnection (p : π) -- the counter update of `on_new_connection`
  | newConnectionListener (p : π) -- the rest of `on_new_connection`
  | connectionLost (p : π) -- the counter update of `on_connection_lost`
  | connectionLostListener (p : π) -- the rest of `on_connection_lost`
  deriving DecidableEq

variable {π : Type}

/-- The peer is in the counter. -/
def Stage.counted : Stage → Bool
  | .adding _ | .added => true
  | .absent | .losing _ => false

/-- A callback in this stage will call the listener. -/
def Stage.telling : Stage → Bool
  | .adding n | .losing n => n == 0
  | .absent | .added => false

namespace Connection

def initial : Connection π := ⟨0, fun _ => .absent, []⟩

/-- `if (listener != NULL && !peers) listener(…, state, …)`. -/
def notify (hasListener : Bool) (c : Connection π) (peers : UInt32) (state : State) :
    Connection π :=
  if hasListener && peers == 0 then { c with delivered := c.delivered ++ [state] } else c

def Quiescent (c : Connection π) : Prop := ∀ p, c.peers p = .absent ∨ c.peers p = .added

/-- No peer comes while the listener is about to be told that the last one has gone, and the counter
does not wrap around. -/
def Ordered (c : Connection π) : Action π → Prop
  | .newConnection _ => (∀ q, c.peers q ≠ .losing 0) ∧ c.peersCount + 1 ≠ 0
  | _ => True

instance (c : Connection Bool) : DecidablePred c.Ordered
  | .newConnection _ =>
    inferInstanceAs (Decidable ((∀ q, c.peers q ≠ .losing 0) ∧ c.peersCount + 1 ≠ 0))
  | .newConnectionListener _ | .connectionLost _ | .connectionLostListener _ => .isTrue trivial

@[simp] theorem notify_peersCount (b : Bool) (c : Connection π) (n : UInt32) (state : State) :
    (c.notify b n state).peersCount = c.peersCount := by
  unfold notify
  split <;> rfl

theorem notify_delivered_zero (c : Connection π) (state : State) :
    (c.notify true 0 state).delivered = c.delivered ++ [state] := rfl

variable {n : UInt32}

theorem notify_of_ne (c : Connection π) (state : State) (h : n ≠ 0) :
    c.notify true n state = c := by
  have hn : (n == 0) = false := beq_eq_false_iff_ne.mpr h
  simp [notify, hn]

variable [DecidableEq π]

def setPeer (c : Connection π) (p : π) (stage : Stage) : Connection π :=
  { c with peers := Function.update c.peers p stage }

/-- One step of a callback; `none` where the peer's callbacks do not stand there, or where the
assertion of `on_connection_lost` fails. -/
def step (hasListener : Bool) (c : Connection π) : Action π → Option (Connection π)
  | .newConnection p =>
    match c.peers p with
    | .absent =>
      some ({ c with peersCount := c.peersCount + 1 }.setPeer p (.adding c.peersCount))
    | _ => none
  | .newConnectionListener p =>
    match c.peers p with
    | .adding peers => some ((c.notify hasListener peers .connected).setPeer p .added)
    | _ => none
  | .connectionLost p =>
    match c.peers p with
    | .added =>
      if 0 < c.peersCount then
        some ({ c with peersCount := c.peersCount - 1 }.setPeer p (.losing (c.peersCount - 1)))
      else none
    | _ => none
  | .connectionLostListener p =>
    match c.peers p with
    | .losing peers => some ((c.notify hasListener peers .disconnected).setPeer p .absent)
    | _ => none

/-! ## What a step does -/

variable {a : Action π}

/-- Each step of a callback, with the stage of its peer before and after. -/
theorem step_cases {hasListener : Bool} {c c' : Connection π} (h : c.step hasListener a = some c') :
    (∃ p, a = .newConnection p ∧ c.peers p = .absent ∧
      c' = { c with peersCount := c.peersCount + 1 }.setPeer p (.adding c.peersCount)) ∨
    (∃ p n, a = .newConnectionListener p ∧ c.peers p = .adding n ∧
      c' = (c.notify hasListener n .connected).setPeer p .added) ∨
    (∃ p, a = .connectionLost p ∧ c.peers p = .added ∧ 0 < c.peersCount ∧
      c' = { c with peersCount := c.peersCount - 1 }.setPeer p (.losing (c.peersCount - 1))) ∨
    (∃ p n, a = .connectionLostListener p ∧ c.peers p = .losing n ∧
      c' = (c.notify hasListener n .disconnected).setPeer p .absent) := by
  cases a with
  | newConnection p =>
    simp only [step] at h
    split at h
    · next hp => exact .inl ⟨p, rfl, hp, (Option.some.inj h).symm⟩
    · cases h
  | newConnectionListener p =>
    simp only [step] at h
    split at h
    · next n hp => exact .inr (.inl ⟨p, n, rfl, hp, (Option.some.inj h).symm⟩)
    · cases h
  | connectionLost p =>
    simp only [step] at h
    split at h
    · next hp =>
        split at h
        · next hpos => exact .inr (.inr (.inl ⟨p, rfl, hp, hpos, (Option.some.inj h).symm⟩))
        · cases h
    · cases h
  | connectionLostListener p =>
    simp only [step] at h
    split at h
    · next n hp => exact .inr (.inr (.inr ⟨p, n, rfl, hp, (Option.some.inj h).symm⟩))
    · cases h

@[simp] theorem setPeer_peers_self (c : Connection π) (p : π) (stage : Stage) :
    (c.setPeer p stage).peers p = stage := Function.update_self ..

theorem setPeer_peers_of_ne (c : Connection π) {p q : π} (stage : Stage) (h : q ≠ p) :
    (c.setPeer p stage).peers q = c.peers q := Function.update_of_ne h ..

@[simp] theorem setPeer_peersCount (c : Connection π) (p : π) (stage : Stage) :
    (c.setPeer p stage).peersCount = c.peersCount := rfl

@[simp] theorem setPeer_delivered (c : Connection π) (p : π) (stage : Stage) :
    (c.setPeer p stage).delivered = c.delivered := rfl

/-! ## The counter -/

/-- The peers that are in the counter are `n` in number. -/
def Counts (peers : π → Stage) (n : Nat) : Prop :=
  ∃ l : List π, l.Nodup ∧ (∀ p, p ∈ l ↔ (peers p).counted = true) ∧ l.length = n

namespace Counts

variable {peers : π → Stage} {n : Nat} {p : π} {stage : Stage}

omit [DecidableEq π] in
private theorem pos (h : Counts peers n) (hp : (peers p).counted = true) : 0 < n := by
  obtain ⟨l, _, hmem, hlength⟩ := h
  rw [← hlength]
  exact List.length_pos_of_mem ((hmem p).mpr hp)

theorem update_same (h : Counts peers n) (hp : (peers p).counted = stage.counted) :
    Counts (Function.update peers p stage) n := by
  obtain ⟨l, hnodup, hmem, hlength⟩ := h
  refine ⟨l, hnodup, ?_, hlength⟩
  intro q
  rw [hmem]
  by_cases hq : q = p
  · rw [hq, Function.update_self, hp]
  · rw [Function.update_of_ne hq]

/-- One more peer is counted. -/
theorem update_add (h : Counts peers n) (hp : (peers p).counted = false)
    (hstage : stage.counted = true) : Counts (Function.update peers p stage) (n + 1) := by
  obtain ⟨l, hnodup, hmem, hlength⟩ := h
  have hnew : p ∉ l := by
    rw [hmem, hp]
    exact Bool.false_ne_true
  refine ⟨p :: l, List.nodup_cons.mpr ⟨hnew, hnodup⟩, ?_, by rw [List.length_cons, hlength]⟩
  intro q
  rw [List.mem_cons, hmem]
  by_cases hq : q = p
  · simp [hq, hstage]
  · simp [hq]

/-- One peer fewer is counted. -/
theorem update_lose (h : Counts peers n) (hp : (peers p).counted = true)
    (hstage : stage.counted = false) : Counts (Function.update peers p stage) (n - 1) := by
  obtain ⟨l, hnodup, hmem, hlength⟩ := h
  refine ⟨l.erase p, hnodup.erase p, ?_, ?_⟩
  · intro q
    rw [hnodup.mem_erase_iff, hmem]
    by_cases hq : q = p
    · simp [hq, hstage]
    · simp [hq]
  · rw [List.length_erase_of_mem ((hmem p).mpr hp), hlength]

end Counts

/-! ## The invariant -/

/-- What holds as long as no first peer overtakes the farewell to the last one. A call of the
listener that is still to come for a first peer is harmless: the peer stays in the counter until
then, so no other callback has anything to tell. -/
structure Inv (c : Connection π) : Prop where
  counts : Counts c.peers c.peersCount.toNat
  gone : ∀ p, c.peers p = .losing 0 → c.peersCount = 0
  last : (∀ p, (c.peers p).telling = false) →
    (c.delivered.getLast? = some .connected ↔ 0 < c.peersCount)

omit [DecidableEq π] in
private theorem inv_initial : (initial : Connection π).Inv where
  counts := ⟨[], List.nodup_nil, by simp [initial, Stage.counted], rfl⟩
  gone p h := by cases h
  last _ := by simp [initial]

variable {c c' : Connection π} {p : π}

private theorem toNat_add_one (h : n + 1 ≠ 0) : (n + 1).toNat = n.toNat + 1 := by
  have hne : (n + 1).toNat ≠ 0 := fun h' => h (UInt32.toNat_inj.mp h')
  rw [UInt32.toNat_add] at hne ⊢
  have := n.toNat_lt
  simp only [UInt32.toNat_one] at hne ⊢
  omega

private theorem toNat_sub_one (h : 0 < n) : (n - 1).toNat = n.toNat - 1 := by
  have hpos : 1 ≤ n := UInt32.le_iff_toNat_le.mpr (UInt32.lt_iff_toNat_lt.mp h)
  rw [UInt32.toNat_sub_of_le _ _ hpos, UInt32.toNat_one]

omit [DecidableEq π] in
/-- The counter is positive as long as a peer is in it. -/
theorem Inv.peersCount_pos (h : c.Inv) (hp : (c.peers p).counted = true) : 0 < c.peersCount :=
  UInt32.lt_iff_toNat_lt.mpr (h.counts.pos hp)

variable {stage : Stage}

theorem telling_of_setPeer (hp : (c.peers p).telling = false)
    (hquiet : ∀ q, ((c.setPeer p stage).peers q).telling = false) (q : π) :
    (c.peers q).telling = false := by
  by_cases hq : q = p
  · rwa [hq]
  · have := hquiet q
    rwa [setPeer_peers_of_ne _ _ hq] at this

theorem gone_setPeer (hstage : stage ≠ .losing 0) (hgone : ∀ q, c.peers q = .losing 0 → n = 0)
    (q : π) (hq : (c.setPeer p stage).peers q = .losing 0) : n = 0 := by
  by_cases hqp : q = p
  · rw [hqp, setPeer_peers_self] at hq
    exact absurd hq hstage
  · rw [setPeer_peers_of_ne _ _ hqp] at hq
    exact hgone q hq

/-- The thread of a peer goes on, and the listener is not called. -/
theorem Inv.setPeer (h : c.Inv) (hcounted : (c.peers p).counted = stage.counted)
    (hstage : stage ≠ .losing 0) (htelling : (c.peers p).telling = false) :
    (c.setPeer p stage).Inv where
  counts := h.counts.update_same hcounted
  gone := gone_setPeer hstage h.gone
  last hquiet := h.last (telling_of_setPeer htelling hquiet)

private theorem inv_newConnection (h : c.Inv) (hp : c.peers p = .absent)
    (hgone : ∀ q, c.peers q ≠ .losing 0) (hwrap : c.peersCount + 1 ≠ 0) :
    ({ c with peersCount := c.peersCount + 1 }.setPeer p (.adding c.peersCount)).Inv where
  counts := by
    rw [setPeer_peersCount, toNat_add_one hwrap]
    exact h.counts.update_add (by rw [hp]; rfl) rfl
  gone := gone_setPeer Stage.noConfusion fun q hq => absurd hq (hgone q)
  last hquiet := by
    -- the listener has nothing to hear of, so this is not the first peer
    have hfirst := hquiet p
    rw [setPeer_peers_self] at hfirst
    have hpos : 0 < c.peersCount := UInt32.pos_iff_ne_zero.mpr (beq_eq_false_iff_ne.mp hfirst)
    have hlast := h.last (telling_of_setPeer (by rw [hp]; rfl) hquiet)
    exact ⟨fun _ => UInt32.pos_iff_ne_zero.mpr hwrap, fun _ => hlast.mpr hpos⟩

private theorem inv_newConnectionListener (h : c.Inv) (hp : c.peers p = .adding n) :
    ((c.notify true n .connected).setPeer p .added).Inv := by
  by_cases hn : n = 0
  · subst hn
    refine ⟨h.counts.update_same (by rw [hp]; rfl), gone_setPeer Stage.noConfusion h.gone, ?_⟩
    intro _
    rw [setPeer_delivered, notify_delivered_zero, List.getLast?_concat]
    exact ⟨fun _ => h.peersCount_pos (by rw [hp]; rfl), fun _ => rfl⟩
  · have hnotify : c.notify true n .connected = c := notify_of_ne c _ hn
    rw [hnotify]
    apply h.setPeer (by rw [hp]; rfl) Stage.noConfusion
    rw [hp]
    exact beq_eq_false_iff_ne.mpr hn

private theorem inv_connectionLost (h : c.Inv) (hp : c.peers p = .added) (hpos : 0 < c.peersCount) :
    ({ c with peersCount := c.peersCount - 1 }.setPeer p (.losing (c.peersCount - 1))).Inv where
  counts := by
    rw [setPeer_peersCount, toNat_sub_one hpos]
    exact h.counts.update_lose (by rw [hp]; rfl) rfl
  gone q hq := by
    by_cases hqp : q = p
    · rw [hqp, setPeer_peers_self] at hq
      exact Stage.losing.inj hq
    · rw [setPeer_peers_of_ne _ _ hqp] at hq
      exact absurd (h.gone q hq) (UInt32.pos_iff_ne_zero.mp hpos)
  last hquiet := by
    -- the listener has nothing to hear of, so this was not the last peer
    have hnext := hquiet p
    rw [setPeer_peers_self] at hnext
    have hlast := h.last (telling_of_setPeer (by rw [hp]; rfl) hquiet)
    exact ⟨fun _ => UInt32.pos_iff_ne_zero.mpr (beq_eq_false_iff_ne.mp hnext),
      fun _ => hlast.mpr hpos⟩

private theorem inv_connectionLostListener (h : c.Inv) (hp : c.peers p = .losing n) :
    ((c.notify true n .disconnected).setPeer p .absent).Inv := by
  by_cases hn : n = 0
  · subst hn
    refine ⟨h.counts.update_same (by rw [hp]; rfl), gone_setPeer Stage.noConfusion h.gone, ?_⟩
    intro _
    have hcount : c.peersCount = 0 := h.gone p hp
    rw [setPeer_delivered, notify_delivered_zero, List.getLast?_concat, setPeer_peersCount,
      notify_peersCount, hcount]
    exact ⟨fun h' => (by cases h'), fun h' => absurd h' (by decide)⟩
  · have hnotify : c.notify true n .disconnected = c := notify_of_ne c _ hn
    rw [hnotify]
    apply h.setPeer (by rw [hp]; rfl) Stage.noConfusion
    rw [hp]
    exact beq_eq_false_iff_ne.mpr hn

/-- Every step keeps the invariant, unless a first peer comes too early. -/
theorem inv_step (h : c.Inv) (hordered : c.Ordered a) (hstep : c.step true a = some c') :
    c'.Inv := by
  rcases step_cases hstep with ⟨p, rfl, hp, rfl⟩ | ⟨p, n, rfl, hp, rfl⟩ | ⟨p, rfl, hp, hpos, rfl⟩ |
    ⟨p, n, rfl, hp, rfl⟩
  · exact inv_newConnection h hp hordered.1 hordered.2
  · exact inv_newConnectionListener h hp
  · exact inv_connectionLost h hp hpos
  · exact inv_connectionLostListener h hp

/-! ## The first call of the listener -/

/-- The listener was called, or is about to be called for the first peer. -/
def Started (c : Connection π) : Prop := c.delivered ≠ [] ∨ ∃ p, c.peers p = .adding 0

theorem Started.setPeer (h : c.Started) (hp : c.peers p ≠ .adding 0) :
    (c.setPeer p stage).Started := by
  rcases h with hdelivered | ⟨q, hq⟩
  · exact .inl hdelivered
  · have hqp : q ≠ p := by
      rintro rfl
      exact hp hq
    exact .inr ⟨q, (setPeer_peers_of_ne _ _ hqp).trans hq⟩

theorem Started.notify_setPeer {state : State} (h : c.Started) (hp : c.peers p = .adding 0 → n = 0) :
    ((c.notify true n state).setPeer p stage).Started := by
  by_cases hn : n = 0
  · rw [hn]
    exact .inl (List.concat_ne_nil _ _)
  · rw [notify_of_ne _ _ hn]
    exact h.setPeer fun h' => hn (hp h')

/-- Every step keeps it so. -/
theorem started_step (h : c.Started) (hstep : c.step true a = some c') : c'.Started := by
  rcases step_cases hstep with ⟨p, rfl, hp, rfl⟩ | ⟨p, n, rfl, hp, rfl⟩ | ⟨p, rfl, hp, _, rfl⟩ |
    ⟨p, n, rfl, hp, rfl⟩
  · exact Started.setPeer h (by rw [hp]; exact Stage.noConfusion)
  · exact h.notify_setPeer fun h' => Stage.adding.inj (hp.symm.trans h')
  · exact Started.setPeer h (by rw [hp]; exact Stage.noConfusion)
  · exact h.notify_setPeer (by rw [hp]; exact Stage.noConfusion)

/-- The first callback is that of a first peer, so the listener is called. -/
theorem started_of_run {as : List (Action π)} (hrun : run (step true) initial (a :: as) = some c) :
    c.Started := by
  obtain ⟨first, hfirst, hrest⟩ := run_cons_eq_some.mp hrun
  refine run_invariant started_step ?_ hrest
  rcases step_cases hfirst with ⟨p, rfl, _, rfl⟩ | ⟨p, n, _, hp, _⟩ | ⟨p, _, hp, _, _⟩ |
    ⟨p, n, _, hp, _⟩
  · exact .inr ⟨p, setPeer_peers_self _ _ _⟩
  · cases hp
  · cases hp
  · cases hp

/-! ## The last call of the listener -/

omit [DecidableEq π] in
private theorem Quiescent.telling (h : c.Quiescent) (p : π) : (c.peers p).telling = false := by
  rcases h p with hp | hp <;> rw [hp] <;> rfl

/-- **The notifications follow the counter.** While no callback is in progress, the listener was
last told that there are peers exactly if there are, and it was told nothing only if no peer ever
came: in every run in which no first peer comes between the loss of the last one and the call of the
listener for it. -/
theorem last_delivered_iff {as : List (Action π)}
    (hordered : Along (step true) Ordered initial as)
    (hrun : run (step true) initial as = some c) (hquiescent : c.Quiescent) :
    (c.delivered.getLast? = some .connected ↔ 0 < c.peersCount) ∧
      (c.delivered = [] → ∀ p, .newConnection p ∉ as) := by
  constructor
  · have h : c.Inv := run_invariant_along inv_step inv_initial hordered hrun
    exact h.last hquiescent.telling
  · intro hdelivered p hmem
    cases as with
    | nil => cases hmem
    | cons a as =>
      rcases started_of_run hrun with hne | ⟨q, hq⟩
      · exact hne hdelivered
      · have hquiet := hquiescent.telling q
        rw [hq] at hquiet
        cases hquiet

/-- Two peers come, and both go. -/
def visits : List (Action Bool) :=
  [.newConnection false, .newConnection true, .newConnectionListener true,
    .newConnectionListener false, .connectionLost true, .connectionLost false,
    .connectionLostListener false, .connectionLostListener true]

theorem last_delivered_iff_visits :
    ∃ c, run (step true) initial visits = some c ∧ c.delivered = [.connected, .disconnected] ∧
      (c.delivered.getLast? = some .connected ↔ 0 < c.peersCount) ∧
      (c.delivered = [] → ∀ p, .newConnection p ∉ visits) := by
  refine ⟨_, rfl, rfl, @last_delivered_iff Bool _ _ visits ?_ rfl ?_⟩
  · decide
  · intro p
    cases p <;> exact .inl rfl

/-- One peer goes, and before the listener is told so another one comes. -/
def overtaking : List (Action Bool) :=
  [.newConnection false, .newConnectionListener false, .connectionLost false, .newConnection true,
    .newConnectionListener true, .connectionLostListener false]

/-- The listener is last told that there are no peers, while there is one. -/
theorem last_delivered_overtaken :
    ∃ c, run (step true) initial overtaking = some c ∧ c.Quiescent ∧ c.peersCount = 1 ∧
      c.delivered = [.connected, .connected, .disconnected] := by
  refine ⟨_, rfl, ?_, rfl, rfl⟩
  intro p
  cases p
  · exact .inl rfl
  · exact .inr rfl

end Connection

end TweakTool.Wire.Nng
