import Mathlib.Data.List.Infix

/-! # Search in sorted lists

Binary search for the first place where a test holds, and why the lists with a common beginning stand
together in lexicographic order. -/

namespace TweakTool.Lib

/-! ## Halving -/

/-- Between `low` and `high`; a test may fail. -/
def lowerBound (test : Nat → Option Bool) (low high : Nat) : Option Nat :=
  if low < high then
    match test (low + (high - low) / 2) with
    | none => none
    | some true => lowerBound test low (low + (high - low) / 2)
    | some false => lowerBound test (low + (high - low) / 2 + 1) high
  else some low
termination_by high - low

/-- A test that holds from some place on is found to begin to hold there. -/
theorem lowerBound_eq {test : Nat → Option Bool} {place low high : Nat} (hlow : low ≤ place)
    (hhigh : place ≤ high) (htest : ∀ i, low ≤ i → i < high → test i = some (decide (place ≤ i))) :
    lowerBound test low high = some place := by
  fun_induction lowerBound test low high with
  | case1 low high hlt hnone =>
    rw [htest _ (by omega) (by omega)] at hnone
    cases hnone
  | case2 low high hlt htrue ih =>
    -- the test holds in the middle
    rw [htest _ (by omega) (by omega), Option.some.injEq, decide_eq_true_iff] at htrue
    exact ih hlow htrue fun i hi hi' => htest i hi (by omega)
  | case3 low high hlt hfalse ih =>
    rw [htest _ (by omega) (by omega), Option.some.injEq, decide_eq_false_iff_not] at hfalse
    exact ih (by omega) hhigh fun i hi hi' => htest i (by omega) hi'
  | case4 low high hlt =>
    rw [Nat.le_antisymm hlow (by omega)]

section FromSomePlaceOn

variable {α : Type} {P : α → Bool} {l : List α}

theorem findIdx_le_iff (h : l.Pairwise fun a b => P a → P b) {i : Nat} (hi : i < l.length) :
    l.findIdx P ≤ i ↔ P l[i] := by
  constructor
  · intro hle
    have hfound : P l[l.findIdx P] := List.findIdx_getElem
    rcases Nat.eq_or_lt_of_le hle with heq | hlt
    · simpa only [heq] using hfound
    · exact List.pairwise_iff_getElem.mp h _ _ (by omega) hi hlt hfound
  · intro hPi
    by_contra hlt
    rw [List.not_of_lt_findIdx (Nat.lt_of_not_le hlt)] at hPi
    cases hPi

/-- The search finds where a condition that holds from some element on begins to hold. -/
theorem lowerBound_findIdx {test : Nat → Option Bool} (h : l.Pairwise fun a b => P a → P b)
    (htest : ∀ i (hi : i < l.length), test i = some (P l[i])) :
    lowerBound test 0 l.length = some (l.findIdx P) := by
  apply lowerBound_eq (Nat.zero_le _) List.findIdx_le_length
  intro i _ hi
  rw [htest i hi, Option.some.injEq, Bool.eq_iff_iff, decide_eq_true_iff]
  exact (findIdx_le_iff h hi).symm

end FromSomePlaceOn

/-! ## Common beginnings -/

/-- A condition that holds at the beginning of a list only: the elements that meet it are the first
ones. -/
theorem getElem?_filter_of_pairwise {α : Type} {P : α → Bool} {l : List α}
    (h : l.Pairwise fun a b => P b → P a) (n : Nat) : (l.filter P)[n]? = l[n]?.filter P := by
  induction l generalizing n with
  | nil => rfl
  | cons a l ih =>
    obtain ⟨ha, hl⟩ := List.pairwise_cons.mp h
    by_cases hPa : P a
    · rw [List.filter_cons_of_pos hPa]
      cases n with
      | zero => simp [Option.filter, hPa]
      | succ n => exact ih hl n
    · have hnone : ∀ b ∈ a :: l, ¬ P b := by
        rw [List.forall_mem_cons]
        exact ⟨hPa, fun b hb hPb => hPa (ha b hb hPb)⟩
      rw [List.filter_eq_nil_iff.mpr hnone, List.getElem?_nil]
      cases hget : (a :: l)[n]? with
      | none => rfl
      | some b => simp [Option.filter, hnone b (List.mem_of_getElem? hget)]

section Lexicographic

variable {α : Type} [LT α] [LE α] [Std.IsLinearOrder α] [Std.LawfulOrderLT α]

/-- What stands between a list and one that begins with it begins with it too. -/
theorem prefix_of_le_of_le {p s t : List α} (hps : p ≤ s) (hst : s ≤ t) (hpt : p <+: t) : p <+: s := by
  induction p generalizing s t with
  | nil => exact List.nil_prefix
  | cons a p ih =>
    obtain ⟨rest, rfl⟩ := hpt
    cases s with
    | nil => cases List.le_nil.mp hps
    | cons b s =>
      rw [List.cons_append] at hst
      rcases List.cons_le_cons_iff.mp hps with hab | ⟨rfl, hps'⟩
      · rcases List.cons_le_cons_iff.mp hst with hba | ⟨rfl, -⟩
        · exact absurd hba (Std.Asymm.asymm _ _ hab)
        · exact absurd hab (Std.Asymm.asymm _ _ hab)
      · rcases List.cons_le_cons_iff.mp hst with haa | ⟨-, hst⟩
        · exact absurd haa (Std.Asymm.asymm _ _ haa)
        · exact (List.prefix_cons_inj a).mpr (ih hps' hst (List.prefix_append p rest))

theorem pairwise_le_imp_le [DecidableEq α] [DecidableLT α] {l : List (List α)}
    (h : l.Pairwise (· ≤ ·)) (p : List α) : l.Pairwise fun s t => decide (p ≤ s) → decide (p ≤ t) :=
  h.imp fun hst hps => decide_eq_true (List.le_trans (of_decide_eq_true hps) hst)

/-- The lists of a sorted list that begin with `p` follow one another, from the first that is not below
`p` on. -/
theorem getElem?_filter_isPrefixOf [DecidableEq α] [DecidableLT α] {p : List α} {l : List (List α)}
    (h : l.Pairwise (· ≤ ·)) (n : Nat) :
    (l.filter p.isPrefixOf)[n]? = l[l.findIdx (p ≤ ·) + n]?.filter p.isPrefixOf := by
  have hfrom := pairwise_le_imp_le h p
  have hbelow : (l.take (l.findIdx (p ≤ ·))).filter p.isPrefixOf = [] := by
    refine List.filter_eq_nil_iff.mpr fun s hs hps => ?_
    obtain ⟨i, hi, rfl⟩ := List.mem_take_iff_getElem.mp hs
    have hlt := List.not_of_lt_findIdx (Nat.lt_of_lt_of_le hi (Nat.min_le_left _ _))
    exact absurd (List.isPrefixOf_iff_prefix.mp hps).le (by simpa using hlt)
  have habove : ∀ s ∈ l.drop (l.findIdx (p ≤ ·)), p ≤ s := by
    intro s hs
    obtain ⟨i, hi, rfl⟩ := List.mem_drop_iff_getElem.mp hs
    exact of_decide_eq_true ((findIdx_le_iff hfrom (Nat.add_comm _ _ ▸ hi)).mp (Nat.le_add_right _ _))
  have hpairwise : (l.drop (l.findIdx (p ≤ ·))).Pairwise fun s t => p.isPrefixOf t → p.isPrefixOf s := by
    refine List.Pairwise.imp_of_mem ?_ (h.drop (i := l.findIdx (p ≤ ·)))
    intro s t hs ht hst hpt
    rw [List.isPrefixOf_iff_prefix] at hpt ⊢
    exact prefix_of_le_of_le (habove s hs) hst hpt
  rw [← List.getElem?_drop, ← getElem?_filter_of_pairwise hpairwise n]
  conv_lhs => rw [← List.take_append_drop (l.findIdx (p ≤ ·)) l, List.filter_append, hbelow]
  rfl

end Lexicographic

end TweakTool.Lib
