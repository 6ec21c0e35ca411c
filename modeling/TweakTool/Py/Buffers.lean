import TweakTool.Cli.Indices
import TweakTool.Common.Clamp

/-! # Buffers of Python

`py_tweak_common.cpp`: `convertPyBuffer` copies an array with any strides to a vector, in row-major order;
`Buffer::makeBufferInfo` describes a vector to Python as an array. -/

namespace TweakTool.Py

open TweakTool.Lib
open TweakTool.Common (isSigned)
open TweakTool.Cli (Balanced secondFactors agree_secondFactors_iff secondFactors_le prod_le_of_sublist)

/-- `py::buffer_info`, with what an offset in bytes points to; `none` outside of the memory. -/
structure BufferInfo (α : Type) where
  itemsize : Nat
  format : String
  shape : List Nat
  strides : List Int
  element : Int → Option α

variable {α : Type} {info : BufferInfo α} {t : NumType} {dimensions indices : List Nat} {out out' : List α}

def calculateOffset (strides : List Int) (indices : List Nat) : Int :=
  (List.zipWith (fun (stride : Int) (index : Nat) => stride * index) strides indices).sum

def makeOffsetFactorsMap (shape : List Nat) : List Nat :=
  (List.range shape.length).map fun j =>
    ((List.range (shape.length - j - 1)).map fun ix => shape.getD (shape.length - ix - 1) 1).prod

def calculateArrayIndex (info : BufferInfo α) (indices : List Nat) : Nat :=
  value (makeOffsetFactorsMap info.shape) indices

/-- A negative offset is refused. -/
def BufferInfo.read (info : BufferInfo α) (indices : List Nat) : Option α :=
  let offset := calculateOffset info.strides indices
  if offset < 0 then none else info.element offset

/-- One loop of `flatten` for each dimension that is left. -/
def flatten (info : BufferInfo α) : (shape indices : List Nat) → List α → Option (List α)
  | [], indices, out => (info.read indices).map (out.set (calculateArrayIndex info indices))
  | bound :: shape, indices, out =>
    (List.range bound).foldlM (fun out ix => flatten info shape (indices ++ [ix]) out) out

def isFloating (arg : String) : Bool := arg == "f" || arg == "d"

def isUnsigned (arg : String) : Bool :=
  arg == "B" || arg == "H" || arg == "I" || arg == "Q" || arg == "L" || arg == "N"

/-- The type of the elements; `none` if it throws. -/
def getVariantType (info : BufferInfo α) : Option NumType :=
  match info.itemsize with
  | 1 => some (if isUnsigned info.format then .uint8 else .sint8)
  | 2 => some (if isUnsigned info.format then .uint16 else .sint16)
  | 4 =>
    some (if isFloating info.format then .float else if isUnsigned info.format then .uint32 else .sint32)
  | 8 =>
    some (if isFloating info.format then .double else if isUnsigned info.format then .uint64 else .sint64)
  | _ => none

/-- `validate_metadata`, with the dimensions of the layout if the metadata has one. -/
def validateMetadata (layout : Option (List Nat)) (info : BufferInfo α) : Bool :=
  match layout with
  | none => false
  | some dimensions => dimensions == info.shape

/-- `none` if it throws. `out` is the memory of the new vector; `flatten` needs a dimension. -/
def convertPyBuffer (layout : Option (List Nat)) (info : BufferInfo α) (out : List α) :
    Option (NumType × List α) :=
  if validateMetadata layout info then
    match getVariantType info with
    | none => none
    | some variantType =>
      if info.shape = [] then none
      else (flatten info info.shape [] out).map fun data => (variantType, data)
  else none

/-- `py::format_descriptor<T>::format`. -/
def formatDescriptor : NumType → String
  | .sint8 => "b"
  | .sint16 => "h"
  | .sint32 => "i"
  | .sint64 => "q"
  | .uint8 => "B"
  | .uint16 => "H"
  | .uint32 => "I"
  | .uint64 => "Q"
  | .float => "f"
  | .double => "d"

/-- A vector, with the dimensions of its layout. -/
def makeBufferInfo (dimensions : List Nat) (t : NumType) (data : List α) : BufferInfo α where
  itemsize := t.size
  format := formatDescriptor t
  shape := dimensions
  strides := (List.range dimensions.length).map fun j =>
    ((((List.range (dimensions.length - 1 - j)).map fun iy => dimensions.getD (iy + 1) 1).prod * t.size :
      Nat) : Int)
  element offset := data[offset.toNat / t.size]?

/-! ## From Python -/

/-- The factors are those of row-major order. -/
theorem makeOffsetFactorsMap_eq (shape : List Nat) : makeOffsetFactorsMap shape = placeWeights shape := by
  rw [makeOffsetFactorsMap, placeWeights_eq]
  refine List.map_congr_left fun j hj => ?_
  rw [List.mem_range] at hj
  rw [← List.prod_reverse]
  refine congrArg List.prod (List.ext_getElem (by simp; omega) fun i hi _ => ?_)
  simp only [List.length_map, List.length_range, List.length_reverse] at hi
  have hindex : shape.length - (shape.length - j - 1 - 1 - i) - 1 = j + 1 + i := by omega
  simp [hindex, List.getElem?_eq_getElem (show j + 1 + i < shape.length by omega)]

/-- The loops visit all indices in order. -/
theorem flatten_eq (shape indices : List Nat) (out : List α) : flatten info shape indices out =
    ((allWithin shape).map (indices ++ ·)).foldlM (fun out i => flatten info [] i out) out := by
  induction shape generalizing indices out with
  | nil => simp [allWithin]
  | cons bound shape ih =>
    rw [flatten, allWithin]
    generalize List.range bound = ds
    induction ds generalizing out with
    | nil => rfl
    | cons d ds ihds =>
      rw [List.foldlM_cons, List.flatMap_cons, List.map_append, List.foldlM_append, ih]
      simp only [List.map_map, Function.comp_def, List.append_assoc, List.singleton_append]
      exact bind_congr fun _ => ihds _

/-- Elements with different places do not disturb each other. -/
theorem foldlM_flatten {l : List (List Nat)} (hinj : ∀ i ∈ l, ∀ j ∈ l,
      calculateArrayIndex info i = calculateArrayIndex info j → i = j)
    (h : l.foldlM (fun out i => flatten info [] i out) out = some out') :
    out'.length = out.length ∧
      (∀ i ∈ l, ∃ x, info.read i = some x ∧ (calculateArrayIndex info i < out.length →
        out'[calculateArrayIndex info i]? = some x)) ∧
      ∀ p, (∀ i ∈ l, calculateArrayIndex info i ≠ p) → out'[p]? = out[p]? := by
  induction l generalizing out with
  | nil =>
    cases h
    exact ⟨rfl, fun _ hi => absurd hi List.not_mem_nil, fun _ _ => rfl⟩
  | cons i l ih =>
    obtain ⟨next, hnext, h⟩ := Option.bind_eq_some_iff.mp h
    obtain ⟨x, hx, rfl⟩ := Option.map_eq_some_iff.mp hnext
    obtain ⟨hlength, hread, hframe⟩ := ih (fun j hj k hk =>
      hinj j (List.mem_cons_of_mem _ hj) k (List.mem_cons_of_mem _ hk)) h
    rw [List.length_set] at hlength hread
    refine ⟨hlength, fun j hj => ?_, fun p hp => ?_⟩
    · by_cases hjl : j ∈ l
      · exact hread j hjl
      · obtain rfl := (List.mem_cons.mp hj).resolve_right hjl
        refine ⟨x, hx, fun hlt => ?_⟩
        rw [hframe _ fun k hk heq => hjl ?_, List.getElem?_set_self hlt]
        exact hinj k (List.mem_cons_of_mem _ hk) j hj heq ▸ hk
    · rw [hframe p fun k hk => hp k (List.mem_cons_of_mem _ hk),
        List.getElem?_set_ne (hp i List.mem_cons_self)]

theorem foldlM_flatten_isSome {l : List (List Nat)} (h : ∀ i ∈ l, info.read i ≠ none) (out : List α) :
    ∃ out', l.foldlM (fun out i => flatten info [] i out) out = some out' := by
  induction l generalizing out with
  | nil => exact ⟨out, rfl⟩
  | cons i l ih =>
    obtain ⟨x, hx⟩ := Option.ne_none_iff_exists'.mp (h i List.mem_cons_self)
    obtain ⟨out', hout'⟩ := ih (fun j hj => h j (List.mem_cons_of_mem _ hj)) (out.set _ x)
    exact ⟨out', by rw [List.foldlM_cons, flatten, hx]; exact hout'⟩

/-- Every element of the array is at its place in row-major order. -/
def RowMajor (info : BufferInfo α) (data : List α) : Prop :=
  data.length = info.shape.prod ∧ ∀ indices, Within info.shape indices → ∃ x,
    info.read indices = some x ∧ data[value (placeWeights info.shape) indices]? = some x

/-- `flatten` fills the array in row-major order, and in no other way. -/
theorem flatten_iff (hout : out.length = info.shape.prod) :
    flatten info info.shape [] out = some out' ↔ RowMajor info out' := by
  have hplace (i : List Nat) : calculateArrayIndex info i = value (placeWeights info.shape) i := by
    rw [calculateArrayIndex, makeOffsetFactorsMap_eq]
  have hmem {i : List Nat} : i ∈ (allWithin info.shape).map ([] ++ ·) ↔ Within info.shape i := by
    simp [mem_allWithin]
  have hspec {result : List α} (h : flatten info info.shape [] out = some result) :
      RowMajor info result := by
    rw [flatten_eq] at h
    obtain ⟨hlength, hread, _⟩ := foldlM_flatten (fun i hi j hj heq => by
      rw [hplace, hplace] at heq
      exact value_placeWeights_injOn _ (hmem.mp hi) (hmem.mp hj) heq) h
    refine ⟨hlength.trans hout, fun i hi => ?_⟩
    obtain ⟨x, hx, hget⟩ := hread i (hmem.mpr hi)
    rw [hplace, hout] at hget
    exact ⟨x, hx, hget (value_placeWeights_lt hi)⟩
  refine ⟨hspec, ?_⟩
  rintro ⟨hlength, hall⟩
  have hreadable : ∀ i ∈ (allWithin info.shape).map ([] ++ ·), info.read i ≠ none := by
    intro i hi
    obtain ⟨x, hx, _⟩ := hall i (hmem.mp hi)
    rw [hx]
    rintro ⟨⟩
  obtain ⟨result, hresult⟩ := foldlM_flatten_isSome hreadable out
  rw [← flatten_eq] at hresult
  obtain ⟨hlength', hall'⟩ := hspec hresult
  rw [hresult, Option.some.injEq]
  refine List.ext_getElem? fun p => ?_
  by_cases hp : p < info.shape.prod
  · -- every place is the place of some indices
    obtain ⟨i, hi, rfl⟩ := value_placeWeights_surjOn info.shape hp
    obtain ⟨x, hx, hget⟩ := hall i hi
    obtain ⟨y, hy, hget'⟩ := hall' i hi
    rw [hx] at hy
    rw [hget, hget', hy]
  · rw [List.getElem?_eq_none (by omega), List.getElem?_eq_none (by omega)]

/-- The elements of the array are of a type: it has their size, and the format tells whether they are
floating point numbers and whether they have a sign. -/
structure ElementsOf (t : NumType) (info : BufferInfo α) : Prop where
  size : info.itemsize = t.size
  floating : t.isInteger = false ↔ 4 ≤ info.itemsize ∧ isFloating info.format
  unsigned : t.isInteger → (isSigned t = false ↔ isUnsigned info.format)

/-- There is such a type for items of one, two, four and eight bytes. -/
theorem getVariantType_eq_some_iff : getVariantType info = some t ↔ ElementsOf t info := by
  constructor
  · intro h
    rw [getVariantType] at h
    split at h
    case h_5 => cases h
    all_goals
      next hsize =>
        obtain rfl := Option.some.inj h
        split_ifs <;> constructor <;> simp_all [NumType.size, NumType.isInteger, isSigned]
  · rintro ⟨hsize, hfloating, hunsigned⟩
    cases t <;> simp_all [getVariantType, NumType.size, NumType.isInteger, isSigned]

private theorem convertPyBuffer_eq_some_iff {layout : Option (List Nat)} :
    convertPyBuffer layout info out = some (t, out') ↔
      (layout = some info.shape ∧ info.shape ≠ []) ∧ getVariantType info = some t ∧
        flatten info info.shape [] out = some out' := by
  cases layout with
  | none => simp [convertPyBuffer, validateMetadata]
  | some dimensions =>
    simp only [convertPyBuffer, validateMetadata, beq_iff_eq, Option.some.injEq]
    by_cases hshape : dimensions = info.shape
    · cases getVariantType info with
      | none => simp
      | some variantType =>
        by_cases hdim : info.shape = []
        · simp [hdim]
        · simp [hshape, hdim, and_comm]
    · simp [hshape]

/-- **An array from Python.** It is taken exactly if it has the dimensions of the metadata and elements
of a type that vectors have, and they can be read; each of them is then at its place in row-major
order. -/
theorem convertPyBuffer_iff (layout : Option (List Nat)) (hout : out.length = info.shape.prod) :
    convertPyBuffer layout info out = some (t, out') ↔
      (layout = some info.shape ∧ info.shape ≠ []) ∧ ElementsOf t info ∧ RowMajor info out' := by
  rw [convertPyBuffer_eq_some_iff, flatten_iff hout, getVariantType_eq_some_iff]

/-- The transpose of three rows of two elements. -/
def transpose : BufferInfo Nat :=
  ⟨4, "I", [2, 3], [4, 8], fun offset => [0, 1, 2, 3, 4, 5][offset.toNat / 4]?⟩

theorem convertPyBuffer_iff_transpose :
    convertPyBuffer (some [2, 3]) transpose (List.replicate 6 0) = some (.uint32, [0, 2, 4, 1, 3, 5]) ∧
      ElementsOf .uint32 transpose ∧ RowMajor transpose [0, 2, 4, 1, 3, 5] := by
  have h : convertPyBuffer (some [2, 3]) transpose (List.replicate 6 0) =
      some (.uint32, [0, 2, 4, 1, 3, 5]) := by decide
  exact ⟨h, ((convertPyBuffer_iff (some [2, 3]) rfl).mp h).2⟩

/-! ## To Python -/

private theorem makeBufferInfo_strides (t : NumType) (data : List α) :
    (makeBufferInfo dimensions t data).strides =
      (secondFactors dimensions).map fun w => ((w * t.size : Nat) : Int) := by
  rw [makeBufferInfo, secondFactors, List.map_map]
  refine List.map_congr_left fun j hj => ?_
  rw [List.mem_range] at hj
  refine congrArg (fun l => ((List.prod l * t.size : Nat) : Int))
    (List.ext_getElem (by simp) fun i hi _ => ?_)
  simp only [List.length_map, List.length_range] at hi
  simp [List.getElem?_eq_getElem (show i + 1 < dimensions.length by omega)]

private theorem calculateOffset_scaled (ws indices : List Nat) (size : Nat) :
    calculateOffset (ws.map fun w => ((w * size : Nat) : Int)) indices =
      ((value ws indices * size : Nat) : Int) := by
  induction ws generalizing indices with
  | nil => simp [calculateOffset, value]
  | cons w ws ih =>
    cases indices with
    | nil => simp [calculateOffset]
    | cons index indices =>
      have hrest := ih indices
      simp only [calculateOffset] at hrest
      simp only [calculateOffset, List.map_cons, List.zipWith_cons_cons, List.sum_cons, hrest,
        value_cons]
      push_cast
      ring

private theorem read_makeBufferInfo (t : NumType) (data : List α) (indices : List Nat) :
    (makeBufferInfo dimensions t data).read indices =
      data[value (secondFactors dimensions) indices]? := by
  have hsize : 0 < t.size := by cases t <;> decide
  rw [BufferInfo.read, makeBufferInfo_strides, calculateOffset_scaled, if_neg (by omega)]
  show data[Int.toNat _ / t.size]? = _
  rw [Int.toNat_natCast, Nat.mul_div_cancel _ hsize]

private theorem getVariantType_makeBufferInfo (t : NumType) (data : List α) :
    getVariantType (makeBufferInfo dimensions t data) = some t := by
  cases t <;> rfl

/-- **A vector to Python and back.** What Python sees is the vector exactly if its dimensions are
balanced. -/
theorem roundTrips_iff (t : NumType) (hdim : dimensions ≠ []) (hpos : ∀ d ∈ dimensions, 0 < d)
    {x y : α} (hxy : x ≠ y) :
    (∀ data out : List α, data.length = dimensions.prod → out.length = dimensions.prod →
      convertPyBuffer (some dimensions) (makeBufferInfo dimensions t data) out = some (t, data)) ↔
    Balanced dimensions := by
  have hlength : (secondFactors dimensions).length = dimensions.length := by simp [secondFactors]
  have hiff {data out : List α} (hout : out.length = dimensions.prod) :
      convertPyBuffer (some dimensions) (makeBufferInfo dimensions t data) out = some (t, data) ↔
        data.length = dimensions.prod ∧ ∀ i, Within dimensions i → ∃ x,
          (makeBufferInfo dimensions t data).read i = some x ∧
            data[value (placeWeights dimensions) i]? = some x := by
    rw [convertPyBuffer_eq_some_iff, flatten_iff hout, and_iff_right ⟨rfl, hdim⟩,
      and_iff_right (getVariantType_makeBufferInfo t data)]
    rfl
  rw [← agree_secondFactors_iff]
  constructor
  · intro h
    refine agree_of_value_mod_eq (m := dimensions.prod + 1) hpos hlength (length_placeWeights _)
      (fun w hw => Nat.lt_succ_of_le (secondFactors_le hpos w hw)) (fun w hw => ?_) fun i hi => ?_
    · rw [placeWeights_eq] at hw
      obtain ⟨j, -, rfl⟩ := List.mem_map.mp hw
      exact Nat.lt_succ_of_le (prod_le_of_sublist hpos (List.drop_sublist _ _))
    · -- a vector that differs from the others at the place of these indices
      have hlt := value_placeWeights_lt hi
      have hback := h ((List.replicate dimensions.prod x).set (value (placeWeights dimensions) i) y)
        (List.replicate dimensions.prod x) (by simp) (by simp)
      obtain ⟨-, hall⟩ := (hiff (by simp)).mp hback
      obtain ⟨z, hz, hz'⟩ := hall i hi
      rw [List.getElem?_set_self (by simpa using hlt)] at hz'
      cases hz'
      rw [read_makeBufferInfo, List.getElem?_set] at hz
      split at hz
      · next heq => rw [heq]
      · rw [List.getElem?_replicate] at hz
        split at hz <;> cases hz
        exact absurd rfl hxy
  · intro hagree data out hdata hout
    rw [hiff hout]
    refine ⟨hdata, fun i hi => ?_⟩
    have hlt := value_placeWeights_lt hi
    rw [read_makeBufferInfo, value_eq_of_agree hagree hlength (length_placeWeights _) hi,
      List.getElem?_eq_getElem (by omega)]
    exact ⟨_, rfl, rfl⟩

theorem roundTrips_iff_matrix :
    Balanced [2, 3] ∧ ∀ data out : List Nat, data.length = [2, 3].prod → out.length = [2, 3].prod →
      convertPyBuffer (some [2, 3]) (makeBufferInfo [2, 3] .float data) out = some (.float, data) :=
  ⟨by decide, (roundTrips_iff .float (by decide) (by decide) Nat.zero_ne_one).mpr (by decide)⟩

end TweakTool.Py
