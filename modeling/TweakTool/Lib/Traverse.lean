import Mathlib.Data.List.Forall2
import Mathlib.Data.List.Induction

/-! # Loops that may stop

A loop over an array that stores one result for each element and may leave early is `List.mapM`, in
`Option` or `Except`. -/

namespace TweakTool.Lib

variable {α β ε : Type} {l : List α}

/-- A loop over the indices of an array. -/
theorem mapM_range {m : Type → Type} [Monad m] [LawfulMonad m] {f : Nat → m β} {g : α → m β}
    (h : ∀ {ix : Nat} (hix : ix < l.length), f ix = g l[ix]) :
    (List.range l.length).mapM f = l.mapM g := by
  induction l using List.reverseRecOn with
  | nil => rfl
  | append_singleton l a ih =>
    have hlast : f l.length = g a := by simpa using @h l.length (by simp)
    have hinit : (List.range l.length).mapM f = l.mapM g := by
      apply ih
      intro ix hix
      have := @h ix (by simp; omega)
      rwa [List.getElem_append_left hix] at this
    simp [List.range_succ, hinit, hlast]

theorem mapM_eq_some {f : α → Option β} {r : List β} :
    l.mapM f = some r ↔ List.Forall₂ (fun a b => f a = some b) l r := by
  induction l generalizing r with
  | nil => simp [eq_comm]
  | cons a l ih =>
    cases r with
    | nil => simp [List.mapM_cons, Option.bind_eq_some_iff]
    | cons b r => simp [List.mapM_cons, Option.bind_eq_some_iff, ih]

theorem mapM_eq_none {f : α → Option β} : l.mapM f = none ↔ ∃ a ∈ l, f a = none := by
  induction l with
  | nil => simp
  | cons a l ih =>
    rw [List.mapM_cons]
    cases hfa : f a with
    | none => simp [hfa]
    | some b =>
      rw [List.exists_mem_cons_iff, ← ih]
      cases l.mapM f <;> simp [hfa]

theorem mapM_cons_eq_error {f : α → Except ε β} {a : α} {e : ε} :
    (a :: l).mapM f = .error e ↔ f a = .error e ∨ (∃ r, f a = .ok r) ∧ l.mapM f = .error e := by
  rw [List.mapM_cons]
  cases f a <;> cases l.mapM f <;> simp [bind, Except.bind, pure, Except.pure]

/-- The loop stops with an error exactly if the first element it cannot deal with has that error. -/
theorem mapM_eq_error {f : α → Except ε β} {e : ε} :
    l.mapM f = .error e ↔
      ∃ done a rest, l = done ++ a :: rest ∧ (∀ b ∈ done, ∃ r, f b = .ok r) ∧ f a = .error e := by
  induction l with
  | nil => simp [pure, Except.pure]
  | cons a l ih =>
    rw [mapM_cons_eq_error, ih]
    constructor
    · rintro (ha | ⟨ha, done, b, rest, rfl, hdone, hb⟩)
      · exact ⟨[], a, l, rfl, by simp, ha⟩
      · exact ⟨a :: done, b, rest, rfl, List.forall_mem_cons.mpr ⟨ha, hdone⟩, hb⟩
    · rintro ⟨done, b, rest, heq, hdone, hb⟩
      cases done with
      | nil =>
        cases heq
        exact .inl hb
      | cons c done =>
        cases heq
        obtain ⟨ha, hdone⟩ := List.forall_mem_cons.mp hdone
        exact .inr ⟨ha, done, b, rest, rfl, hdone, hb⟩

/-- A loop over the indices of an array that puts each element into its place. -/
theorem foldlM_set {f : List β → Nat → Except ε (List β)} {items array : List β}
    (hlength : array.length = items.length)
    (hstep : ∀ (array : List β) {i : Nat} (hi : i < items.length), array.length = items.length →
      f array i = .ok (array.set i items[i])) :
    (List.range items.length).foldlM f array = .ok items := by
  -- after `k` rounds the first `k` elements are in place
  have hloop : ∀ k ≤ items.length,
      (List.range k).foldlM f array = .ok (items.take k ++ array.drop k) := by
    intro k
    induction k with
    | zero => intro _; rfl
    | succ k ih =>
      intro hk
      have hstart : (items.take k).length = k := by
        rw [List.length_take, Nat.min_eq_left (Nat.le_of_succ_le hk)]
      have hset : (items.take k ++ array.drop k).set k items[k] =
          items.take (k + 1) ++ array.drop (k + 1) := by
        rw [List.drop_eq_getElem_cons (by omega : k < array.length), List.set_append_right _ _ (by omega),
          hstart, Nat.sub_self, List.set_cons_zero, List.take_succ_eq_append_getElem hk,
          List.append_assoc]
        rfl
      rw [List.range_succ, List.foldlM_append, ih (Nat.le_of_succ_le hk)]
      show (f (items.take k ++ array.drop k) k >>= fun array => List.foldlM f array []) = _
      rw [hstep _ hk (by simp; omega), hset]
      rfl
  rw [hloop items.length (Nat.le_refl _), List.take_length, ← hlength, List.drop_length,
    List.append_nil]

/-- A loop whose steps either fail or do what they do, from any state that keeps an invariant. -/
theorem foldlM_eq_ok_iff {σ : Type} {f : σ → α → Except ε σ} {F : σ → α → σ} {P : α → Prop}
    {Inv : σ → Prop} (hinv : ∀ s a, Inv s → Inv (F s a))
    (hstep : ∀ s, Inv s → ∀ a ∈ l, ∀ s', f s a = .ok s' ↔ P a ∧ s' = F s a) {s s' : σ} (hs : Inv s) :
    l.foldlM f s = .ok s' ↔ (∀ a ∈ l, P a) ∧ s' = l.foldl F s := by
  induction l generalizing s with
  | nil => simp [pure, Except.pure, eq_comm]
  | cons a l ih =>
    have hrest := ih (fun s hs b hb => hstep s hs b (List.mem_cons_of_mem a hb)) (hinv s a hs)
    have ha := hstep s hs a List.mem_cons_self
    rw [List.foldlM_cons, List.forall_mem_cons, List.foldl_cons]
    cases hfa : f s a with
    | error e =>
      refine iff_of_false (by rintro ⟨⟩) ?_
      rintro ⟨⟨hP, -⟩, -⟩
      rw [(ha (F s a)).mpr ⟨hP, rfl⟩] at hfa
      cases hfa
    | ok s₁ =>
      obtain ⟨hP, rfl⟩ := (ha s₁).mp hfa
      show l.foldlM f (F s a) = .ok s' ↔ _
      rw [hrest]
      simp [hP]

/-! ## Arrays that are filled element by element -/

section Filling

variable {f : α → Nat} {g : α → β}

theorem length_foldl_set (l : List α) (array : List β) :
    (l.foldl (fun array a => array.set (f a) (g a)) array).length = array.length := by
  induction l generalizing array with
  | nil => rfl
  | cons a l ih => rw [List.foldl_cons, ih, List.length_set]

/-- A place that no element goes to stays as it was. -/
theorem getElem?_foldl_set_of_ne {l : List α} {p : Nat} (h : ∀ a ∈ l, f a ≠ p) (array : List β) :
    (l.foldl (fun array a => array.set (f a) (g a)) array)[p]? = array[p]? := by
  induction l generalizing array with
  | nil => rfl
  | cons a l ih =>
    obtain ⟨ha, hl⟩ := List.forall_mem_cons.mp h
    rw [List.foldl_cons, ih hl, List.getElem?_set_ne ha]

/-- A place to which only equal elements go has that element at last. -/
theorem getElem?_foldl_set {l : List α} {p : Nat} {b : β} (hsame : ∀ a ∈ l, f a = p → g a = b)
    (array : List β) (hp : p < array.length)
    (h : (∃ a ∈ l, f a = p) ∨ array[p]? = some b) :
    (l.foldl (fun array a => array.set (f a) (g a)) array)[p]? = some b := by
  induction l generalizing array with
  | nil => simpa using h
  | cons a l ih =>
    obtain ⟨ha, hl⟩ := List.forall_mem_cons.mp hsame
    rw [List.foldl_cons]
    refine ih hl _ (by rwa [List.length_set]) ?_
    by_cases hfa : f a = p
    · right
      rw [hfa, List.getElem?_set_self hp, ha hfa]
    · rw [List.getElem?_set_ne hfa]
      rcases h with ⟨b, hb, hfb⟩ | harray
      · rcases List.mem_cons.mp hb with rfl | hb
        · exact absurd hfb hfa
        · exact .inl ⟨b, hb, hfb⟩
      · exact .inr harray

end Filling

end TweakTool.Lib
