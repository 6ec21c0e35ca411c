import Mathlib.Algebra.BigOperators.Group.List.Basic
import Mathlib.Data.List.Forall2
import Mathlib.Data.Set.Card
import Mathlib.Order.Interval.Set.Nat

/-! # Mixed radix

Numbers as lists of digits, each with a base of its own and a weight. With the products of the later
bases as weights each number below the product of all bases has exactly one representation; and if the
weights do not increase there are no other weights for which that is so, except for digits that can
only be zero. -/

namespace TweakTool.Lib

def Within (bases digits : List Nat) : Prop := List.Forall₂ (· < ·) digits bases

/-- A sum of digits with weights. -/
def value (weights digits : List Nat) : Nat := (List.zipWith (· * ·) weights digits).sum

/-- The products of the later bases. -/
def placeWeights : List Nat → List Nat
  | [] => []
  | _ :: bases => bases.prod :: placeWeights bases

/-- Weights that are the same wherever a digit can differ from zero. -/
def Agree (bases ws ws' : List Nat) : Prop := ∀ j, 1 < bases.getD j 0 → ws.getD j 0 = ws'.getD j 0

variable {bases digits ws ws' : List Nat}

@[simp] theorem value_nil (ws : List Nat) : value ws [] = 0 := by
  cases ws <;> rfl

@[simp] theorem value_cons (w digit : Nat) (ws digits : List Nat) :
    value (w :: ws) (digit :: digits) = w * digit + value ws digits := rfl

@[simp] theorem within_nil : Within [] digits ↔ digits = [] := List.forall₂_nil_right_iff

theorem within_cons {base : Nat} :
    Within (base :: bases) digits ↔ ∃ digit rest, digits = digit :: rest ∧ digit < base ∧
      Within bases rest := by
  constructor
  · rintro (_ | ⟨hdigit, hrest⟩)
    exact ⟨_, _, rfl, hdigit, hrest⟩
  · rintro ⟨digit, rest, rfl, hdigit, hrest⟩
    exact .cons hdigit hrest

theorem Within.length_eq (h : Within bases digits) : digits.length = bases.length :=
  List.Forall₂.length_eq h

theorem Within.reverse (h : Within bases digits) : Within bases.reverse digits.reverse :=
  List.rel_reverse h

/-- All digits, in their order. -/
def allWithin : List Nat → List (List Nat)
  | [] => [[]]
  | base :: bases => (List.range base).flatMap fun digit => (allWithin bases).map (digit :: ·)

theorem mem_allWithin : digits ∈ allWithin bases ↔ Within bases digits := by
  induction bases generalizing digits with
  | nil => rw [allWithin, List.mem_singleton, within_nil]
  | cons base bases ih =>
    rw [allWithin, List.mem_flatMap, within_cons]
    constructor
    · rintro ⟨digit, hdigit, hmem⟩
      obtain ⟨rest, hrest, rfl⟩ := List.mem_map.mp hmem
      exact ⟨digit, rest, rfl, List.mem_range.mp hdigit, ih.mp hrest⟩
    · rintro ⟨digit, rest, rfl, hdigit, hrest⟩
      exact ⟨digit, List.mem_range.mpr hdigit, List.mem_map_of_mem (ih.mpr hrest)⟩

/-! ## Digits that are zero -/

theorem within_zeros (hpos : ∀ base ∈ bases, 0 < base) :
    Within bases (List.replicate bases.length 0) := by
  induction bases with
  | nil => exact .nil
  | cons base bases ih =>
    obtain ⟨hbase, hbases⟩ := List.forall_mem_cons.mp hpos
    exact .cons hbase (ih hbases)

@[simp] theorem value_zeros (ws : List Nat) (n : Nat) : value ws (List.replicate n 0) = 0 := by
  induction ws generalizing n with
  | nil => cases n <;> rfl
  | cons w ws ih =>
    cases n with
    | zero => rfl
    | succ n => rw [List.replicate_succ, value_cons, ih, Nat.mul_zero]

theorem Within.positive (h : Within bases digits) : ∀ base ∈ bases, 0 < base := by
  induction h with
  | nil => simp
  | cons hdigit hrest ih => exact List.forall_mem_cons.mpr ⟨Nat.zero_lt_of_lt hdigit, ih⟩

/-! ## Places -/

theorem length_placeWeights (bases : List Nat) : (placeWeights bases).length = bases.length := by
  induction bases with
  | nil => rfl
  | cons base bases ih => rw [placeWeights, List.length_cons, ih, List.length_cons]

theorem value_placeWeights_lt (h : Within bases digits) : value (placeWeights bases) digits < bases.prod := by
  induction h with
  | nil => decide
  | @cons digit base digits bases hdigit hrest ih =>
    rw [placeWeights, value_cons, List.prod_cons]
    calc bases.prod * digit + value (placeWeights bases) digits
        < bases.prod * digit + bases.prod := by omega
      _ = bases.prod * (digit + 1) := by rw [Nat.mul_succ]
      _ ≤ bases.prod * base := Nat.mul_le_mul_left _ hdigit
      _ = base * bases.prod := Nat.mul_comm _ _

theorem value_placeWeights_injOn (bases : List Nat) :
    Set.InjOn (value (placeWeights bases)) {digits | Within bases digits} := by
  induction bases with
  | nil =>
    intro a ha b hb _
    rw [within_nil.mp ha, within_nil.mp hb]
  | cons base bases ih =>
    intro a ha b hb heq
    obtain ⟨i, is, rfl, -, his⟩ := within_cons.mp ha
    obtain ⟨j, js, rfl, -, hjs⟩ := within_cons.mp hb
    have hlt := value_placeWeights_lt his
    have hlt' := value_placeWeights_lt hjs
    have hpos : 0 < bases.prod := Nat.zero_lt_of_lt hlt
    rw [placeWeights, value_cons, value_cons] at heq
    -- the first digit is the quotient, the others make up the remainder
    have hquot := congrArg (· / bases.prod) heq
    have hrem := congrArg (· % bases.prod) heq
    simp only [Nat.mul_add_div hpos, Nat.mul_add_mod, Nat.div_eq_of_lt, Nat.mod_eq_of_lt, hlt, hlt',
      Nat.add_zero] at hquot hrem
    rw [hquot, ih his hjs hrem]

theorem value_placeWeights_surjOn (bases : List Nat) :
    Set.SurjOn (value (placeWeights bases)) {digits | Within bases digits} (Set.Iio bases.prod) := by
  induction bases with
  | nil =>
    intro n hn
    exact ⟨[], .nil, (Nat.lt_one_iff.mp hn).symm⟩
  | cons base bases ih =>
    intro n hn
    rw [List.prod_cons, Set.mem_Iio] at hn
    have hpos : 0 < bases.prod := Nat.pos_of_ne_zero (by rintro hzero; simp [hzero] at hn)
    obtain ⟨digits, hdigits, hvalue⟩ := ih (Set.mem_Iio.mpr (Nat.mod_lt n hpos))
    refine ⟨n / bases.prod :: digits, .cons (Nat.div_lt_of_lt_mul ?_) hdigits, ?_⟩
    · rwa [Nat.mul_comm]
    · rw [placeWeights, value_cons, hvalue, Nat.div_add_mod]

/-- Each number has exactly one representation. -/
theorem value_placeWeights_bijOn (bases : List Nat) :
    Set.BijOn (value (placeWeights bases)) {digits | Within bases digits} (Set.Iio bases.prod) :=
  ⟨fun _ h => value_placeWeights_lt h, value_placeWeights_injOn bases, value_placeWeights_surjOn bases⟩

/-- So there are as many lists of digits as the product says. -/
theorem eq_prod_of_bijOn {f : List Nat → Nat} {n : Nat}
    (h : Set.BijOn f {digits | Within bases digits} (Set.Iio n)) : n = bases.prod := by
  have hcard := h.ncard_eq.symm.trans (value_placeWeights_bijOn bases).ncard_eq
  rwa [Set.ncard_Iio_nat, Set.ncard_Iio_nat] at hcard

theorem placeWeights_eq (bases : List Nat) :
    placeWeights bases = (List.range bases.length).map fun j => (bases.drop (j + 1)).prod := by
  induction bases with
  | nil => rfl
  | cons base bases ih =>
    rw [placeWeights, ih, List.length_cons, List.range_succ_eq_map, List.map_cons, List.map_map]
    rfl

/-! ## The other order -/

theorem value_reverse (h : ws.length = digits.length) :
    value ws.reverse digits.reverse = value ws digits := by
  rw [value, ← List.reverse_zipWith h, List.sum_reverse, value]

/-- The products of the earlier bases. -/
theorem reverse_placeWeights_reverse (bases : List Nat) :
    (placeWeights bases.reverse).reverse =
      (List.range bases.length).map fun j => (bases.take j).prod := by
  rw [placeWeights_eq]
  refine List.ext_getElem (by simp) ?_
  intro j hj hj'
  simp only [List.length_reverse, List.length_map, List.length_range] at hj
  have hcount : bases.length - (bases.length - 1 - j + 1) = j := by omega
  simp [List.drop_reverse, hcount]

theorem value_reverse_placeWeights_bijOn (bases : List Nat) :
    Set.BijOn (value (placeWeights bases.reverse).reverse) {digits | Within bases digits}
      (Set.Iio bases.prod) := by
  have hreverse : Set.BijOn List.reverse {digits | Within bases digits}
      {digits | Within bases.reverse digits} := by
    refine ⟨fun _ h => h.reverse, List.reverse_injective.injOn, ?_⟩
    intro digits h
    exact ⟨digits.reverse, bases.reverse_reverse ▸ h.reverse, digits.reverse_reverse⟩
  have hbij := (value_placeWeights_bijOn bases.reverse).comp hreverse
  rw [List.prod_reverse] at hbij
  refine hbij.congr ?_
  intro digits h
  have hlength : (placeWeights bases.reverse).length = digits.reverse.length := by
    rw [length_placeWeights, List.length_reverse, List.length_reverse, h.length_eq]
  rw [Function.comp_apply, ← value_reverse hlength, List.reverse_reverse]

/-! ## Other weights -/

theorem agree_cons {base w w' : Nat} :
    Agree (base :: bases) (w :: ws) (w' :: ws') ↔ (1 < base → w = w') ∧ Agree bases ws ws' := by
  constructor
  · intro h
    exact ⟨h 0, fun j => h (j + 1)⟩
  · rintro ⟨hhead, htail⟩ (_ | j)
    · exact hhead
    · exact htail j

theorem value_eq_of_agree (hagree : Agree bases ws ws') (hws : ws.length = bases.length)
    (hws' : ws'.length = bases.length) (hdigits : Within bases digits) :
    value ws digits = value ws' digits := by
  induction hdigits generalizing ws ws' with
  | nil => rw [value_nil, value_nil]
  | @cons digit base digits bases hdigit hrest ih =>
    obtain ⟨w, ws, rfl⟩ := List.exists_cons_of_length_eq_add_one hws
    obtain ⟨w', ws', rfl⟩ := List.exists_cons_of_length_eq_add_one hws'
    rw [agree_cons] at hagree
    rw [value_cons, value_cons, ih hagree.2 (Nat.succ.inj hws) (Nat.succ.inj hws')]
    rcases Nat.lt_or_ge 1 base with hbase | hbase
    · rw [hagree.1 hbase]
    · rw [Nat.lt_one_iff.mp (Nat.lt_of_lt_of_le hdigit hbase), Nat.mul_zero, Nat.mul_zero]

/-- Single digits tell the weights apart, even modulo a number that is larger than them. -/
theorem agree_of_value_mod_eq {m : Nat} (hpos : ∀ base ∈ bases, 0 < base)
    (hws : ws.length = bases.length) (hws' : ws'.length = bases.length)
    (hlt : ∀ w ∈ ws, w < m) (hlt' : ∀ w ∈ ws', w < m)
    (hvalue : ∀ digits, Within bases digits → value ws digits % m = value ws' digits % m) :
    Agree bases ws ws' := by
  induction bases generalizing ws ws' with
  | nil =>
    intro j hj
    cases hj
  | cons base bases ih =>
    obtain ⟨w, ws, rfl⟩ := List.exists_cons_of_length_eq_add_one hws
    obtain ⟨w', ws', rfl⟩ := List.exists_cons_of_length_eq_add_one hws'
    obtain ⟨hbase, hbases⟩ := List.forall_mem_cons.mp hpos
    obtain ⟨hw, hlt⟩ := List.forall_mem_cons.mp hlt
    obtain ⟨hw', hlt'⟩ := List.forall_mem_cons.mp hlt'
    refine agree_cons.mpr ⟨?_, ih hbases (Nat.succ.inj hws) (Nat.succ.inj hws') hlt hlt' ?_⟩
    · intro hone
      have := hvalue (1 :: List.replicate bases.length 0) (.cons hone (within_zeros hbases))
      simpa [Nat.mod_eq_of_lt hw, Nat.mod_eq_of_lt hw'] using this
    · intro digits hdigits
      simpa using hvalue (0 :: digits) (.cons hbase hdigits)

/-- Values that stay below a limit if they are not far above it: there is no way past the limit in
small steps. -/
theorem add_value_lt_of_steps {limit start : Nat} (hstart : start < limit)
    (hpos : ∀ base ∈ bases, 0 < base) (hws : ws.length = bases.length) (hsteps : ∀ w ∈ ws, w ≤ limit)
    (hskip : ∀ digits, Within bases digits → start + value ws digits < 2 * limit →
      start + value ws digits < limit) :
    ∀ digits, Within bases digits → start + value ws digits < limit := by
  induction bases generalizing ws start with
  | nil =>
    intro digits hdigits
    rwa [within_nil.mp hdigits, value_nil, Nat.add_zero]
  | cons base bases ih =>
    obtain ⟨w, ws, rfl⟩ := List.exists_cons_of_length_eq_add_one hws
    obtain ⟨hw, hsteps⟩ := List.forall_mem_cons.mp hsteps
    obtain ⟨hbase, hbases⟩ := List.forall_mem_cons.mp hpos
    -- the first digit counts up, the others are zero
    have hfirst : ∀ digit, digit < base → start + w * digit < limit := by
      intro digit
      induction digit with
      | zero =>
        intro _
        simpa using hstart
      | succ digit ihdigit =>
        intro hdigit
        have hlast := ihdigit (Nat.lt_of_succ_lt hdigit)
        have hnext := hskip ((digit + 1) :: List.replicate bases.length 0)
          (.cons hdigit (within_zeros hbases))
        rw [value_cons, value_zeros, Nat.add_zero, Nat.mul_succ] at hnext
        rw [Nat.mul_succ]
        exact hnext (by omega)
    intro digits hdigits
    obtain ⟨digit, rest, rfl, hdigit, hrest⟩ := within_cons.mp hdigits
    rw [value_cons, ← Nat.add_assoc]
    refine ih (hfirst digit hdigit) hbases (Nat.succ.inj hws) hsteps ?_ rest hrest
    intro digits hdigits
    have := hskip (digit :: digits) (.cons hdigit hdigits)
    rwa [value_cons, ← Nat.add_assoc] at this

theorem value_lt_of_steps {limit : Nat} (hlimit : 0 < limit)
    (hpos : ∀ base ∈ bases, 0 < base) (hws : ws.length = bases.length) (hsteps : ∀ w ∈ ws, w ≤ limit)
    (hskip : ∀ digits, Within bases digits → value ws digits < 2 * limit → value ws digits < limit) :
    ∀ digits, Within bases digits → value ws digits < limit := by
  have := add_value_lt_of_steps hlimit hpos hws hsteps (by simpa using hskip)
  simpa using this

/-- The digits after one that counts fill the range below its weight. -/
theorem bijOn_tail {base w n : Nat} (hbase : 1 < base) (hpos : ∀ base ∈ bases, 0 < base)
    (hws : ws.length = bases.length) (hsteps : ∀ w' ∈ ws, w' ≤ w)
    (h : Set.BijOn (value (w :: ws)) {digits | Within (base :: bases) digits} (Set.Iio n)) :
    Set.BijOn (value ws) {digits | Within bases digits} (Set.Iio w) := by
  have hzero : ∀ {digits}, Within bases digits → Within (base :: bases) (0 :: digits) :=
    fun hdigits => .cons (Nat.zero_lt_of_lt hbase) hdigits
  have hone : ∀ {digits}, Within bases digits → Within (base :: bases) (1 :: digits) :=
    fun hdigits => .cons hbase hdigits
  have hn : w < n := by
    have := h.mapsTo (hone (within_zeros hpos))
    rw [value_cons, value_zeros, Nat.mul_one, Nat.add_zero] at this
    exact this
  have hw : 0 < w := by
    rw [Nat.pos_iff_ne_zero]
    rintro rfl
    have heq := h.injOn (hzero (within_zeros hpos)) (hone (within_zeros hpos)) (by simp)
    cases heq
  -- below the weight the first digit is zero
  have hbelow : Set.SurjOn (value ws) {digits | Within bases digits} (Set.Iio w) := by
    intro x hx
    obtain ⟨digits, hdigits, hvalue⟩ := h.surjOn (Set.mem_Iio.mpr (Nat.lt_trans hx hn))
    obtain ⟨digit, rest, rfl, -, hrest⟩ := within_cons.mp hdigits
    rw [value_cons] at hvalue
    have hdigit : digit = 0 := by
      by_contra hne
      have := Nat.le_mul_of_pos_right w (Nat.pos_of_ne_zero hne)
      rw [Set.mem_Iio] at hx
      omega
    rw [hdigit, Nat.mul_zero, Nat.zero_add] at hvalue
    exact ⟨rest, hrest, hvalue⟩
  refine ⟨?_, ?_, hbelow⟩
  · refine value_lt_of_steps hw hpos hws hsteps ?_
    intro digits hdigits hlt
    by_contra hge
    -- the first digit gives the same value in another way
    obtain ⟨rest, hrest, hvalue⟩ := hbelow (Set.mem_Iio.mpr (by omega : value ws digits - w < w))
    have heq := h.injOn (hzero hdigits) (hone hrest)
      (by rw [value_cons, value_cons, hvalue, Nat.mul_zero, Nat.mul_one]; omega)
    cases heq
  · intro a ha b hb heq
    have := h.injOn (hzero ha) (hzero hb) (by rw [value_cons, value_cons, heq])
    exact (List.cons.inj this).2

/-- Weights that do not increase are the products of the later bases if each number has exactly one
representation. -/
theorem agree_of_bijOn (hpos : ∀ base ∈ bases, 0 < base) (hws : ws.length = bases.length)
    (hsorted : ws.Pairwise (· ≥ ·))
    (h : Set.BijOn (value ws) {digits | Within bases digits} (Set.Iio bases.prod)) :
    Agree bases ws (placeWeights bases) := by
  induction bases generalizing ws with
  | nil =>
    intro j hj
    cases hj
  | cons base bases ih =>
    obtain ⟨w, ws, rfl⟩ := List.exists_cons_of_length_eq_add_one hws
    obtain ⟨hbase, hbases⟩ := List.forall_mem_cons.mp hpos
    obtain ⟨hw, hsorted⟩ := List.pairwise_cons.mp hsorted
    rw [placeWeights, agree_cons]
    rcases Nat.lt_or_ge 1 base with hone | hone -- with one digit only, the weight does not matter
    · have htail := bijOn_tail hone hbases (Nat.succ.inj hws) hw h
      have hw' := eq_prod_of_bijOn htail
      rw [hw'] at htail
      exact ⟨fun _ => hw', ih hbases (Nat.succ.inj hws) hsorted htail⟩
    · have hbase' : base = 1 := by omega
      subst hbase'
      refine ⟨fun hlt => absurd hlt (Nat.lt_irrefl 1), ih hbases (Nat.succ.inj hws) hsorted ?_⟩
      rw [List.prod_cons, Nat.one_mul] at h
      have hzero : ∀ {digits}, Within bases digits → Within (1 :: bases) (0 :: digits) :=
        fun hdigits => .cons Nat.one_pos hdigits
      have hvalue : ∀ digits, value (w :: ws) (0 :: digits) = value ws digits := by simp
      refine ⟨?_, ?_, ?_⟩
      · intro digits hdigits
        rw [← hvalue]
        exact h.mapsTo (hzero hdigits)
      · intro a ha b hb heq
        rw [← hvalue, ← hvalue] at heq
        exact (List.cons.inj (h.injOn (hzero ha) (hzero hb) heq)).2
      · intro x hx
        obtain ⟨digits, hdigits, rfl⟩ := h.surjOn hx
        obtain ⟨digit, rest, rfl, hdigit, hrest⟩ := within_cons.mp hdigits
        rw [Nat.lt_one_iff.mp hdigit, hvalue]
        exact ⟨rest, hrest, rfl⟩

end TweakTool.Lib
