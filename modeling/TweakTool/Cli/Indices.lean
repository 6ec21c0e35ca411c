import Mathlib.Algebra.Order.BigOperators.GroupWithZero.List
import TweakTool.Cli.Arrays
import TweakTool.Lib.MixedRadix
import TweakTool.Metadata.Layout

/-! # Indices of matrices

`array_geom_calculate_array_index` finds the place of an element in the array from its indices. In
row-major order an index counts for the product of the dimensions after its own. `array_geom_get_factor`
takes the right number of dimensions, but begins with the second one. -/

namespace TweakTool.Cli

open TweakTool.Lib TweakTool.Common
open TweakTool.Metadata (Layout product product_eq tweakMetadataLayoutGetDimension
  tweakMetadataLayoutGetNumberOfDimensions)

/-- What an index of each dimension should count for: the product of the later dimensions in row-major
order, of the earlier ones in column-major order. -/
def factors (layout : Layout) : List Nat :=
  (List.range layout.dimensions.length).map fun j =>
    match layout.order with
    | .rowMajor => (layout.dimensions.drop (j + 1)).prod
    | .columnMajor => (layout.dimensions.take j).prod

/-- The indices are mapped one-to-one onto the places of the array, in the order of the layout. -/
structure IndexCalculation (layout : Layout) : Prop where
  formula : ∀ indices, Within layout.dimensions indices →
    arrayGeomCalculateArrayIndex layout indices = value (factors layout) indices
  oneToOne : Set.BijOn (arrayGeomCalculateArrayIndex layout)
    {indices | Within layout.dimensions indices} (Set.Iio layout.dimensions.prod)

/-- As many dimensions from the second one on as there are after a dimension have the product of those,
unless its index can only be zero. -/
def Balanced (dimensions : List Nat) : Prop :=
  ∀ j < dimensions.length, 1 < dimensions.getD j 0 →
    ((dimensions.drop 1).take (dimensions.length - 1 - j)).prod = (dimensions.drop (j + 1)).prod

instance : DecidablePred Balanced := fun dimensions =>
  inferInstanceAs (Decidable (∀ j < dimensions.length, _ → _))

/-! ## What the code computes -/

section Computed

variable {layout : Layout} {n : Nat}

private theorem arrayGeomGetFactor_rowMajor (horder : layout.order = .rowMajor)
    (hn : n < layout.dimensions.length) :
    arrayGeomGetFactor layout n = ((layout.dimensions.drop 1).take n).prod % sizeModulus := by
  have hlist : (List.range n).map (fun j => tweakMetadataLayoutGetDimension layout (n - j)) =
      ((layout.dimensions.drop 1).take n).reverse := by
    refine List.ext_getElem ?_ ?_
    · simp only [List.length_map, List.length_range, List.length_reverse, List.length_take,
        List.length_drop]
      omega
    · intro j hj _
      rw [List.length_map, List.length_range] at hj
      have hindex : min n (layout.dimensions.length - 1) - 1 - j + 1 = n - j := by omega
      have hlt : n - j < layout.dimensions.length := by omega
      simp [tweakMetadataLayoutGetDimension, hindex, hlt]
  have hproduct : arrayGeomGetFactor layout n =
      product ((List.range n).map fun j => tweakMetadataLayoutGetDimension layout (n - j)) := by
    rw [arrayGeomGetFactor, horder, product, List.foldl_map]
  rw [hproduct, product_eq, hlist, List.prod_reverse]

private theorem arrayGeomGetFactor_columnMajor (horder : layout.order = .columnMajor)
    (hn : n ≤ layout.dimensions.length) :
    arrayGeomGetFactor layout n = (layout.dimensions.take n).prod % sizeModulus := by
  have hlist : (List.range n).map (tweakMetadataLayoutGetDimension layout) =
      layout.dimensions.take n := by
    refine List.ext_getElem (by simp [hn]) ?_
    intro j hj _
    rw [List.length_map, List.length_range] at hj
    have hlt : j < layout.dimensions.length := by omega
    simp [tweakMetadataLayoutGetDimension, hlt]
  have hproduct : arrayGeomGetFactor layout n =
      product ((List.range n).map (tweakMetadataLayoutGetDimension layout)) := by
    rw [arrayGeomGetFactor, horder, product, List.foldl_map]
  rw [hproduct, product_eq, hlist]

/-- The factors that the loop over the dimensions uses. -/
def computedFactors (layout : Layout) : List Nat :=
  (List.range layout.dimensions.length).map fun j =>
    match layout.order with
    | .rowMajor => arrayGeomGetFactor layout (layout.dimensions.length - j - 1)
    | .columnMajor => arrayGeomGetFactor layout j

private theorem foldl_add_mod {m : Nat} (f : Nat → Nat) (l : List Nat) :
    l.foldl (fun sum j => (sum + f j) % m) 0 = (l.map f).sum % m := by
  induction l using List.reverseRecOn with
  | nil => exact (Nat.zero_mod m).symm
  | append_singleton l j ih =>
    rw [List.foldl_append, ih, List.map_append, List.sum_append]
    simp

/-- The index is a sum of products, modulo the size of `size_t`. -/
theorem arrayGeomCalculateArrayIndex_eq {indices : List Nat}
    (h : indices.length = layout.dimensions.length) :
    arrayGeomCalculateArrayIndex layout indices =
      value (computedFactors layout) indices % sizeModulus := by
  have hvalue : ∀ w : Nat → Nat, value ((List.range layout.dimensions.length).map w) indices =
      ((List.range layout.dimensions.length).map fun j => w j * indices.getD j 0).sum := by
    intro w
    rw [value]
    congr 1
    refine List.ext_getElem (by simp [h]) ?_
    intro j hj _
    have hlt : j < indices.length := by
      rw [List.length_zipWith] at hj
      omega
    simp [hlt]
  rw [arrayGeomCalculateArrayIndex, computedFactors]
  cases layout.order with
  | rowMajor => rw [hvalue, ← foldl_add_mod]; rfl
  | columnMajor => rw [hvalue, ← foldl_add_mod]; rfl

end Computed

/-! ## Where it is right -/

section Right

variable {dimensions : List Nat} {layout : Layout}

theorem prod_le_of_sublist (hpos : ∀ d ∈ dimensions, 0 < d) {l : List Nat} (h : l.Sublist dimensions) :
    l.prod ≤ dimensions.prod :=
  Nat.le_of_dvd (List.prod_pos hpos) h.prod_dvd_prod

private theorem pos_of_prod_pos (h : 0 < dimensions.prod) : ∀ d ∈ dimensions, 0 < d := by
  intro d hd
  exact Nat.pos_of_ne_zero fun hzero => h.ne' (List.prod_eq_zero (hzero ▸ hd))

/-- The factors of the code for row-major order. -/
def secondFactors (dimensions : List Nat) : List Nat :=
  (List.range dimensions.length).map fun j =>
    ((dimensions.drop 1).take (dimensions.length - 1 - j)).prod

/-- The factors are parts of the product of all dimensions. -/
theorem secondFactors_le (hpos : ∀ d ∈ dimensions, 0 < d) :
    ∀ w ∈ secondFactors dimensions, w ≤ dimensions.prod := by
  intro w hw
  obtain ⟨j, -, rfl⟩ := List.mem_map.mp hw
  exact prod_le_of_sublist hpos ((List.take_sublist _ _).trans (List.drop_sublist _ _))

private theorem secondFactors_sorted (hpos : ∀ d ∈ dimensions, 0 < d) :
    (secondFactors dimensions).Pairwise (· ≥ ·) := by
  rw [secondFactors, List.pairwise_map]
  refine List.pairwise_lt_range.imp ?_
  intro i j hij
  refine prod_le_of_sublist (fun d hd => hpos d (List.drop_subset _ _ (List.take_subset _ _ hd))) ?_
  exact List.take_sublist_take_left (by omega)

/-- The code's factors serve exactly for balanced dimensions. -/
theorem agree_secondFactors_iff :
    Agree dimensions (secondFactors dimensions) (placeWeights dimensions) ↔ Balanced dimensions := by
  have hout : ∀ j, 1 < dimensions.getD j 0 → j < dimensions.length := by
    intro j hj
    by_contra hge
    simp [List.getElem?_eq_none (Nat.le_of_not_lt hge)] at hj
  rw [placeWeights_eq, secondFactors]
  constructor
  · intro h j hj hone
    simpa [hj] using h j hone
  · intro h j hone
    have hj := hout j hone
    simpa [hj] using h j hj hone

/-- In row-major order nothing wraps around. -/
theorem computedFactors_rowMajor (horder : layout.order = .rowMajor)
    (hpos : ∀ d ∈ layout.dimensions, 0 < d) (hprod : layout.dimensions.prod < sizeModulus) :
    computedFactors layout = secondFactors layout.dimensions := by
  rw [computedFactors, secondFactors]
  apply List.map_congr_left
  intro j hj
  have hlt := List.mem_range.mp hj
  have hle := secondFactors_le hpos _ (List.mem_map_of_mem hj)
  simp only [horder]
  rw [arrayGeomGetFactor_rowMajor horder (by omega), Nat.sub_right_comm,
    Nat.mod_eq_of_lt (Nat.lt_of_le_of_lt hle hprod)]

/-- In column-major order the factors are those wanted. -/
theorem computedFactors_columnMajor (horder : layout.order = .columnMajor)
    (hpos : ∀ d ∈ layout.dimensions, 0 < d) (hprod : layout.dimensions.prod < sizeModulus) :
    computedFactors layout = (placeWeights layout.dimensions.reverse).reverse := by
  rw [computedFactors, reverse_placeWeights_reverse]
  apply List.map_congr_left
  intro j hj
  have hlt := List.mem_range.mp hj
  have hle := prod_le_of_sublist hpos (List.take_sublist j layout.dimensions)
  simp only [horder]
  rw [arrayGeomGetFactor_columnMajor horder (by omega),
    Nat.mod_eq_of_lt (Nat.lt_of_le_of_lt hle hprod)]

theorem factors_rowMajor (horder : layout.order = .rowMajor) :
    factors layout = placeWeights layout.dimensions := by
  rw [factors, horder, placeWeights_eq]

theorem factors_columnMajor (horder : layout.order = .columnMajor) :
    factors layout = (placeWeights layout.dimensions.reverse).reverse := by
  rw [factors, horder, reverse_placeWeights_reverse]

theorem length_factors (layout : Layout) : (factors layout).length = layout.dimensions.length := by
  simp [factors]

theorem length_computedFactors (layout : Layout) :
    (computedFactors layout).length = layout.dimensions.length := by
  simp [computedFactors]

private theorem factors_le (hpos : ∀ d ∈ layout.dimensions, 0 < d) :
    ∀ w ∈ factors layout, w ≤ layout.dimensions.prod := by
  intro w hw
  obtain ⟨j, -, rfl⟩ := List.mem_map.mp hw
  cases layout.order with
  | rowMajor => exact prod_le_of_sublist hpos (List.drop_sublist _ _)
  | columnMajor => exact prod_le_of_sublist hpos (List.take_sublist _ _)

/-- With the right factors each place of the array has its indices. -/
theorem value_factors_bijOn (layout : Layout) :
    Set.BijOn (value (factors layout)) {indices | Within layout.dimensions indices}
      (Set.Iio layout.dimensions.prod) := by
  cases horder : layout.order with
  | rowMajor =>
    rw [factors_rowMajor horder]
    exact value_placeWeights_bijOn _
  | columnMajor =>
    rw [factors_columnMajor horder]
    exact value_reverse_placeWeights_bijOn _

private theorem indexCalculation_of_formula
    (h : ∀ indices, Within layout.dimensions indices →
      arrayGeomCalculateArrayIndex layout indices = value (factors layout) indices) :
    IndexCalculation layout :=
  ⟨h, (value_factors_bijOn layout).congr fun indices hindices => (h indices hindices).symm⟩

/-- The factors are right where an index can differ from zero. -/
theorem agree_computedFactors_iff (hpos : ∀ d ∈ layout.dimensions, 0 < d)
    (hprod : layout.dimensions.prod < sizeModulus) :
    Agree layout.dimensions (computedFactors layout) (factors layout) ↔
      (layout.order = .rowMajor → Balanced layout.dimensions) := by
  cases horder : layout.order with
  | rowMajor =>
    rw [computedFactors_rowMajor horder hpos hprod, factors_rowMajor horder, agree_secondFactors_iff]
    simp
  | columnMajor =>
    rw [computedFactors_columnMajor horder hpos hprod, factors_columnMajor horder]
    exact iff_of_true (fun _ _ => rfl) (by rintro ⟨⟩)

private theorem arrayGeomCalculateArrayIndex_of_agree (hprod : layout.dimensions.prod < sizeModulus)
    (hagree : Agree layout.dimensions (computedFactors layout) (factors layout)) :
    IndexCalculation layout := by
  refine indexCalculation_of_formula ?_
  intro indices hindices
  rw [arrayGeomCalculateArrayIndex_eq hindices.length_eq,
    value_eq_of_agree hagree (length_computedFactors layout) (length_factors layout) hindices]
  exact Nat.mod_eq_of_lt (Nat.lt_trans ((value_factors_bijOn layout).mapsTo hindices) hprod)

/-- The index of each element of a matrix is right exactly if the order is column-major or the
dimensions happen to be balanced, as those of vectors, of two-dimensional and of cubic ones are. -/
theorem arrayGeomCalculateArrayIndex_iff (hpos : ∀ d ∈ layout.dimensions, 0 < d)
    (hprod : layout.dimensions.prod < sizeModulus) :
    IndexCalculation layout ↔ (layout.order = .rowMajor → Balanced layout.dimensions) := by
  rw [← agree_computedFactors_iff hpos hprod]
  refine ⟨?_, arrayGeomCalculateArrayIndex_of_agree hprod⟩
  intro h
  have hlt : ∀ w ∈ factors layout, w < sizeModulus := fun w hw =>
    Nat.lt_of_le_of_lt (factors_le hpos w hw) hprod
  have hlt' : ∀ w ∈ computedFactors layout, w < sizeModulus := by
    cases horder : layout.order with
    | rowMajor =>
      rw [computedFactors_rowMajor horder hpos hprod]
      exact fun w hw => Nat.lt_of_le_of_lt (secondFactors_le hpos w hw) hprod
    | columnMajor =>
      rwa [computedFactors_columnMajor horder hpos hprod, ← factors_columnMajor horder]
  -- indices with a single one that is not zero show each factor
  refine agree_of_value_mod_eq hpos (length_computedFactors layout) (length_factors layout) hlt' hlt ?_
  intro indices hindices
  rw [← arrayGeomCalculateArrayIndex_eq hindices.length_eq, h.formula indices hindices]
  exact (Nat.mod_eq_of_lt (Nat.lt_trans ((value_factors_bijOn layout).mapsTo hindices) hprod)).symm

/-- Two-dimensional matrices are balanced. -/
theorem indexCalculation_two_by_three : IndexCalculation ⟨.rowMajor, [2, 3]⟩ := by
  refine (arrayGeomCalculateArrayIndex_iff ?_ ?_).mpr ?_
  · decide
  · decide
  · exact fun _ => by decide

/-- The fourth element of the first row and the first element of the second one have the same place. -/
theorem arrayGeomCalculateArrayIndex_collision :
    Within [2, 3, 4] [0, 0, 3] ∧ Within [2, 3, 4] [0, 1, 0] ∧
    arrayGeomCalculateArrayIndex ⟨.rowMajor, [2, 3, 4]⟩ [0, 0, 3] = 3 ∧
    arrayGeomCalculateArrayIndex ⟨.rowMajor, [2, 3, 4]⟩ [0, 1, 0] = 3 ∧
    value (factors ⟨.rowMajor, [2, 3, 4]⟩) [0, 1, 0] = 4 := by
  simp only [Within]
  decide

/-- No sum of factors runs over if the array is not larger than half of the address space. -/
theorem value_secondFactors_lt (hpos : ∀ d ∈ layout.dimensions, 0 < d)
    (hprod : 2 * layout.dimensions.prod ≤ sizeModulus)
    (hmaps : Set.MapsTo (fun indices => value (secondFactors layout.dimensions) indices % sizeModulus)
      {indices | Within layout.dimensions indices} (Set.Iio layout.dimensions.prod)) :
    ∀ indices, Within layout.dimensions indices →
      value (secondFactors layout.dimensions) indices < layout.dimensions.prod := by
  refine value_lt_of_steps (List.prod_pos hpos) hpos (by simp [secondFactors]) (secondFactors_le hpos) ?_
  intro indices hindices hlt
  have hmod : value (secondFactors layout.dimensions) indices % sizeModulus < layout.dimensions.prod :=
    hmaps hindices
  rwa [Nat.mod_eq_of_lt (Nat.lt_of_lt_of_le hlt hprod)] at hmod

/-- The elements of an array have one place each exactly if there are as many of them as the dimensions
say, and their indices are right. -/
theorem arrayGeomCalculateArrayIndex_bijOn_iff {n : Nat} (hn : 0 < n) (hsize : 2 * n ≤ sizeModulus) :
    Set.BijOn (arrayGeomCalculateArrayIndex layout) {indices | Within layout.dimensions indices}
        (Set.Iio n) ↔
      layout.dimensions.prod = n ∧ (layout.order = .rowMajor → Balanced layout.dimensions) := by
  constructor
  · intro h
    obtain rfl := eq_prod_of_bijOn h
    have hpos := pos_of_prod_pos hn
    have hprod : layout.dimensions.prod < sizeModulus := by omega
    refine ⟨rfl, ?_⟩
    intro horder
    have hvalue : Set.EqOn (arrayGeomCalculateArrayIndex layout)
        (fun indices => value (secondFactors layout.dimensions) indices % sizeModulus)
        {indices | Within layout.dimensions indices} := by
      intro indices hindices
      rw [arrayGeomCalculateArrayIndex_eq hindices.length_eq, computedFactors_rowMajor horder hpos hprod]
    have hmod := h.congr hvalue
    -- without an overflow the factors, which are sorted, can only be the place weights
    have hlt := value_secondFactors_lt hpos hsize hmod.mapsTo
    refine agree_secondFactors_iff.mp
      (agree_of_bijOn hpos (by simp [secondFactors]) (secondFactors_sorted hpos) (hmod.congr ?_))
    intro indices hindices
    exact Nat.mod_eq_of_lt (Nat.lt_trans (hlt indices hindices) hprod)
  · rintro ⟨rfl, hbalanced⟩
    have hpos := pos_of_prod_pos hn
    have hprod : layout.dimensions.prod < sizeModulus := by omega
    exact (arrayGeomCalculateArrayIndex_of_agree hprod
      ((agree_computedFactors_iff hpos hprod).mpr hbalanced)).oneToOne

/-- With as many places as elements it is enough that each place has an element. -/
theorem arrayGeomCalculateArrayIndex_image_iff {n : Nat} (hn : 0 < n) (hsize : 2 * n ≤ sizeModulus)
    (hprod : layout.dimensions.prod = n) :
    arrayGeomCalculateArrayIndex layout '' {indices | Within layout.dimensions indices} = Set.Iio n ↔
      (layout.order = .rowMajor → Balanced layout.dimensions) := by
  have hcount := value_placeWeights_bijOn layout.dimensions
  have hbij : arrayGeomCalculateArrayIndex layout '' {indices | Within layout.dimensions indices} =
        Set.Iio n ↔
      Set.BijOn (arrayGeomCalculateArrayIndex layout) {indices | Within layout.dimensions indices}
        (Set.Iio n) := by
    refine ⟨?_, Set.BijOn.image_eq⟩
    intro h
    have hfinite := hcount.finite_iff_finite.mpr (Set.finite_Iio _)
    rw [← h]
    refine Set.InjOn.bijOn_image (Set.injOn_of_ncard_image_eq ?_ hfinite)
    rw [h, hcount.ncard_eq, hprod]
  rw [hbij, arrayGeomCalculateArrayIndex_bijOn_iff hn hsize]
  simp [hprod]

end Right

end TweakTool.Cli
