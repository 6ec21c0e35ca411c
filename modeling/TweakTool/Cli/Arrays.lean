import TweakTool.Metadata.Create

/-! # Values as texts of the command line client

`metadatautil.c`: vectors are printed as nested arrays, in the shape that the layout of their metadata
gives them, and read from such arrays. Other values are left to `tweakvariant.c`.

The process ends (`none`) where a pointer to a layout is null and where the index of an element lies
outside the array. The indices of the current element are those of the dimensions that were entered,
so their number is `cur_index`. The code is built with `NDEBUG`: the assertions that a factor and an
index are not `SIZE_MAX`, which row-major dimensions can bring about, are not there. -/

namespace TweakTool.Cli

open TweakTool.Lib TweakTool.Json TweakTool.Common
open TweakTool.Metadata (Layout tweakMetadataCreate tweakMetadataGetLayout
  tweakMetadataLayoutGetDimension tweakMetadataLayoutGetNumberOfDimensions fillWithDefaults fillWithDefaultsVector
  cStr)

structure Environment where
  platform : Platform
  floats : FloatLibrary
  lib : CLibrary
  mallocZero : Bool -- whether `malloc(0)` returns a pointer

/-- A system without floating point numbers whose memory is zero. -/
def plainEnvironment : Environment where
  platform := ⟨true, fun _ => []⟩
  floats := .unused
  lib := ⟨⟨List.replicate inlineStringSize 0, rfl⟩, fun _ => 0, ⟨List.replicate inlineStringSize 0, rfl⟩⟩
  mallocZero := true

def tweakVariantGetItemCount : Variant → Nat
  | .vector t bytes => bytes.length / t.size
  | _ => 1

/-! ## Indices -/

def arrayGeomGetFactor (layout : Layout) (nDim : Nat) : Nat :=
  match layout.order with
  | .rowMajor => (List.range nDim).foldl (fun result nDim0 =>
    result * tweakMetadataLayoutGetDimension layout (nDim - nDim0) % sizeModulus) 1
  | .columnMajor => (List.range nDim).foldl (fun result nDim0 =>
    result * tweakMetadataLayoutGetDimension layout nDim0 % sizeModulus) 1

def arrayGeomCalculateArrayIndex (layout : Layout) (indices : List Nat) : Nat :=
  let dimCount := tweakMetadataLayoutGetNumberOfDimensions layout
  match layout.order with
  | .rowMajor => (List.range dimCount).foldl (fun index nDim =>
    (index + arrayGeomGetFactor layout (dimCount - nDim - 1) * indices.getD nDim 0) % sizeModulus) 0
  | .columnMajor => (List.range dimCount).foldl (fun index nDim =>
    (index + arrayGeomGetFactor layout nDim * indices.getD nDim 0) % sizeModulus) 0

/-! ## Printing -/

/-- For a layout with `depth` dimensions below the current one; at the last one the elements are
printed. -/
def nestedArrayToString (layout : Layout) (convertorProc : Nat → Option Text) :
    (depth : Nat) → (indices : List Nat) → Option Text
  | 0, _ => some (text "[]") -- there are no dimensions
  | depth + 1, indices => do
    let dimCount := tweakMetadataLayoutGetDimension layout indices.length
    let items ← (List.range dimCount).mapM fun i =>
      if depth = 0 then convertorProc (arrayGeomCalculateArrayIndex layout (indices ++ [i]))
      else nestedArrayToString layout convertorProc depth (indices ++ [i])
    return text "[" ++ (text ", ").intercalate items ++ text "]"

section Code

variable (env : Environment)

/-- `sint8_buffer_item_to_string`, …, `double_buffer_item_to_string`. -/
def bufferItemToString (t : NumType) (array : List (BitVec t.width)) (index : Nat) : Option Text :=
  array[index]?.map (scalarToString env.floats t)

def arrayToString (t : NumType) (bytes : List UInt8) («meta» : Text) : Option Text := do
  let metadata ← tweakMetadataCreate env.platform env.floats (.vector t) (bytes.length / t.size) «meta»
  let layout ← tweakMetadataGetLayout metadata
  nestedArrayToString layout (bufferItemToString env t (vectorItems t bytes))
    (tweakMetadataLayoutGetNumberOfDimensions layout) []

def metadataAwareVariantToString (value : Variant) («meta» : Text) : Option Text :=
  match value with
  | .vector t bytes => arrayToString env t bytes «meta»
  | _ => some (tweakVariantToString env.floats value)

/-! ## Parsing -/

/-- Why the loops over the elements are left. -/
inductive Stop where
  | fail | outOfBounds
  deriving DecidableEq

/-- `sint8_buffer_item_from_string`, …, `double_buffer_item_from_string`, with what the caller makes
of the result. An element that was truncated is stored all the same. -/
def bufferItemFromString (t : NumType) (array : List (BitVec t.width)) (string : Text) (index : Nat) :
    Except Stop (List (BitVec t.width)) :=
  match tweakVariantFromString env.platform env.floats string (.num t) with
  | (.fail, _) => .error .fail
  | (result, tmp) =>
    if index < array.length then
      if result = .success then .ok (array.set index (scalarField t tmp)) else .error .fail
    else .error .outOfBounds

def nestedArrayFromString (t : NumType) (layout : Layout) : (depth : Nat) → (indices : List Nat) →
    (curNode : Option Node) → (array : List (BitVec t.width)) → Except Stop (List (BitVec t.width))
  | 0, _, _, array => .ok array
  | depth + 1, indices, curNode, array =>
    let dimCount := tweakMetadataLayoutGetDimension layout indices.length
    (List.range dimCount).foldlM (fun array i =>
      if depth = 0 then
        match tweakJsonGetArrayItem curNode i typeNumber with
        | none => .error .fail
        | some itemNode =>
          bufferItemFromString env t array (cStr (some itemNode))
            (arrayGeomCalculateArrayIndex layout (indices ++ [i]))
      else
        match tweakJsonGetArrayItem curNode i typeArray with
        | none => .error .fail
        | some itemNode =>
          if tweakJsonGetArraySize curNode = some dimCount then
            nestedArrayFromString t layout depth (indices ++ [i]) (some itemNode) array
          else .error .fail) array

/-- `sint8_buffer_from_string`, …, `double_buffer_from_string`. -/
def bufferFromString (t : NumType) (layout : Layout) (root : Option Node) (numItems : Nat) :
    Option Conversion :=
  if numItems = 0 ∧ env.mallocZero = false then some (.fail, .null)
  else
    let array := vectorItems t (env.lib.malloc (numItems * t.size))
    match nestedArrayFromString env t layout (tweakMetadataLayoutGetNumberOfDimensions layout) [] root
      array with
    | .ok array => some (.success, .vector t (vectorBytes array))
    | .error .fail => some (.fail, .null)
    | .error .outOfBounds => none

def metadataAwareVariantFromString (string : Text) (type : VariantType) (itemCount : Nat)
    («meta» : Text) : Option Conversion :=
  let fallback := tweakVariantFromString env.platform env.floats string type
  let root := tweakJsonParse env.platform string
  if tweakJsonGetType root ≠ typeArray then some fallback
  else
    match tweakMetadataCreate env.platform env.floats type itemCount «meta» with
    | none => none
    | some metadata =>
      match tweakMetadataGetLayout metadata with
      | none => some fallback
      | some layout =>
        match type with
        | .vector t => bufferFromString env t layout root itemCount
        | _ => some fallback

end Code

/-! ## Default metadata -/

section Defaults

variable {env : Environment} {t : NumType}

/-- The metadata of a value is what it is without a document. -/
def DefaultMetadata (env : Environment) (value : Variant) («meta» : Text) : Prop :=
  tweakMetadataCreate env.platform env.floats value.type (tweakVariantGetItemCount value) «meta» =
    fillWithDefaults env.floats value.type (tweakVariantGetItemCount value)

private theorem arrayGeomCalculateArrayIndex_singleton {i n : Nat} (hi : i < sizeModulus) :
    arrayGeomCalculateArrayIndex ⟨.rowMajor, [n]⟩ [i] = i := by
  have : arrayGeomCalculateArrayIndex ⟨.rowMajor, [n]⟩ [i] = (0 + 1 * i) % sizeModulus := rfl
  rw [this, Nat.zero_add, Nat.one_mul, Nat.mod_eq_of_lt hi]

/-- The elements with commas between them, in brackets. -/
theorem vectorToString_eq (floats : FloatLibrary) (items : List (BitVec t.width)) :
    vectorToString floats t items =
      text "[" ++ (text ", ").intercalate (items.map (scalarToString floats t)) ++ text "]" := by
  cases items with
  | nil => rfl
  | cons item items =>
    rw [vectorToString_cons, List.map_cons, intercalate_cons, printedTail]
    simp only [List.append_assoc]

theorem length_vectorItems (t : NumType) (bytes : List UInt8) :
    (vectorItems t bytes).length = bytes.length / t.size := by
  rw [vectorItems, List.length_map, List.length_range]

variable {items : List (BitVec t.width)}

/-- With a single dimension the elements are printed in their order. -/
theorem nestedArrayToString_singleton (hsize : items.length < sizeModulus) :
    nestedArrayToString ⟨.rowMajor, [items.length]⟩ (bufferItemToString env t items) 1 [] =
      some (vectorToString env.floats t items) := by
  have hloop : (List.range items.length).mapM (fun i => bufferItemToString env t items
      (arrayGeomCalculateArrayIndex ⟨.rowMajor, [items.length]⟩ [i])) =
      some (items.map (scalarToString env.floats t)) := by
    rw [mapM_range (g := fun item => some (scalarToString env.floats t item))]
    · exact List.mapM_pure
    · intro ix hix
      rw [arrayGeomCalculateArrayIndex_singleton (Nat.lt_trans hix hsize), bufferItemToString,
        List.getElem?_eq_getElem hix]
      rfl
  have hdimension : tweakMetadataLayoutGetDimension ⟨.rowMajor, [items.length]⟩ ([] : List Nat).length =
      items.length := rfl
  rw [nestedArrayToString, vectorToString_eq, hdimension]
  simp only [if_true, List.nil_append, hloop]
  rfl

variable {«meta» : Text}

/-- With default metadata the text is that of `tweak_variant_to_string`. -/
theorem metadataAwareVariantToString_default {value : Variant}
    (hsize : value.bufferSize < sizeModulus) (h : DefaultMetadata env value «meta») :
    metadataAwareVariantToString env value «meta» = some (tweakVariantToString env.floats value) := by
  cases value with
  | null | bool b | num t bits | string s => rfl
  | vector t bytes =>
    have hcount : (vectorItems t bytes).length < sizeModulus := by
      rw [length_vectorItems]
      exact Nat.lt_of_le_of_lt (Nat.div_le_self _ _) hsize
    have hcreate : tweakMetadataCreate env.platform env.floats (.vector t) (bytes.length / t.size)
        «meta» = some (fillWithDefaultsVector env.floats t (bytes.length / t.size)) := h
    rw [metadataAwareVariantToString, arrayToString, hcreate, ← length_vectorItems]
    exact nestedArrayToString_singleton hcount

variable {array : List (BitVec t.width)}

/-- One element of a printed vector is read into its place. -/
theorem bufferItemFromString_toString (ht : t.isInteger) {index : Nat}
    (hindex : index < array.length) (item : BitVec t.width) :
    bufferItemFromString env t array (scalarToString env.floats t item) index =
      .ok (array.set index item) := by
  have hread : tweakVariantFromString env.platform env.floats (scalarToString env.floats t item)
      (.num t) = (.success, .num t item) := parseScalar_toString env.floats ht item
  simp only [bufferItemFromString, hread, if_pos hindex, if_true, scalarField_num]

/-- The elements of a printed vector are read one by one. -/
theorem nestedArrayFromString_singleton (ht : t.isInteger) (hsize : items.length < sizeModulus)
    (hlength : array.length = items.length) :
    nestedArrayFromString env t ⟨.rowMajor, [items.length]⟩ 1 []
        (some (.array ((items.map (scalarToString env.floats t)).map .number))) array =
      .ok items := by
  have hdimension : tweakMetadataLayoutGetDimension ⟨.rowMajor, [items.length]⟩ ([] : List Nat).length =
      items.length := rfl
  rw [nestedArrayFromString, hdimension]
  simp only [if_true, List.nil_append]
  refine foldlM_set hlength fun array i hi harray => ?_
  have hitem : tweakJsonGetArrayItem
      (some (.array ((items.map (scalarToString env.floats t)).map .number))) i typeNumber =
      some (.number (scalarToString env.floats t items[i])) := by
    simp [tweakJsonGetArrayItem, List.getElem?_eq_getElem hi, masked_number _
      (by decide : typeNumber &&& typeNumber ≠ 0)]
  simp only [hitem, arrayGeomCalculateArrayIndex_singleton (Nat.lt_trans hi hsize)]
  exact bufferItemFromString_toString ht (harray ▸ hi) items[i]

private theorem tweakJsonParse_brackets (platform : Platform) :
    tweakJsonParse platform (text "[]") = some (.array []) := by
  obtain ⟨signed, address⟩ := platform
  cases signed <;> rfl

theorem length_vectorItems_malloc (lib : CLibrary) (t : NumType) (n : Nat) :
    (vectorItems t (lib.malloc (n * t.size))).length = n := by
  have hsize : 0 < t.size := by cases t <;> decide
  rw [length_vectorItems, length_malloc, Nat.mul_div_cancel _ hsize]

/-- A printed vector of integers is read back, unless there is no memory for no elements. -/
theorem metadataAwareVariantFromString_vector (ht : t.isInteger)
    (hsize : items.length < sizeModulus)
    (h : tweakMetadataCreate env.platform env.floats (.vector t) items.length «meta» =
      fillWithDefaults env.floats (.vector t) items.length) :
    metadataAwareVariantFromString env (vectorToString env.floats t items) (.vector t) items.length
        «meta» =
      if items = [] ∧ env.mallocZero = false then some (.fail, .null)
      else some (.success, .vector t (vectorBytes items)) := by
  have hroot : tweakJsonParse env.platform (vectorToString env.floats t items) =
      some (.array ((items.map (scalarToString env.floats t)).map .number)) := by
    by_cases hne : items = []
    · subst hne
      exact tweakJsonParse_brackets env.platform
    · exact tweakJsonParse_vectorToString env.platform env.floats ht hne
  have hlayout : tweakMetadataGetLayout (fillWithDefaultsVector env.floats t items.length) =
      some ⟨.rowMajor, [items.length]⟩ := rfl
  rw [metadataAwareVariantFromString, hroot, h]
  simp only [tweakJsonGetType, Node.type, typeArray, ne_eq, not_true_eq_false, if_false,
    fillWithDefaults, hlayout, bufferFromString, List.length_eq_zero_iff]
  congr 1
  have hlength := length_vectorItems_malloc env.lib t items.length
  have hdimensions : tweakMetadataLayoutGetNumberOfDimensions ⟨.rowMajor, [items.length]⟩ = 1 := rfl
  rw [hdimensions, nestedArrayFromString_singleton ht hsize hlength]

/-- Other values have no layout by default. -/
theorem metadataAwareVariantFromString_scalar {type : VariantType} {itemCount : Nat}
    (hnull : type ≠ .null) (hvector : ∀ t, type ≠ .vector t)
    (h : tweakMetadataCreate env.platform env.floats type itemCount «meta» =
      fillWithDefaults env.floats type itemCount) (string : Text) :
    metadataAwareVariantFromString env string type itemCount «meta» =
      some (tweakVariantFromString env.platform env.floats string type) := by
  rw [metadataAwareVariantFromString, h]
  cases type with
  | null => exact absurd rfl hnull
  | vector t => exact absurd rfl (hvector t)
  | bool | num t | string =>
    split
    · rfl
    · rfl

end Defaults

end TweakTool.Cli
