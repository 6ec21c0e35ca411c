import TweakTool.Lib.Traverse
import TweakTool.Metadata.Layout
import TweakTool.Metadata.Options

/-! # Metadata for every document

The document comes from the other endpoint, and every field of it is fetched through functions that
return a null pointer for a node of another type. Here the operations are modelled with what would
end the process: a null pointer where the C library wants a text, and `TWEAK_FATAL`. All but one of
them are guarded by a look at the type of the node, so that they agree with the operations of
`TweakTool.Metadata.Create`; the elements of `dimensions` are not. -/

namespace TweakTool.Metadata

open TweakTool.Lib TweakTool.Json
open TweakTool.Common (FloatLibrary Conversion tweakVariantFromString scalarField)

inductive Hazard where
  | nullString | fatal
  deriving DecidableEq

/-- The result of an operation that may end the process. -/
abbrev Checked := Except Hazard

/-! ## The operations -/

section Operations

variable (platform : Platform) (floats : FloatLibrary)

/-- The text of a node for a function that needs one. -/
def argument (node : Option Node) : Checked Text :=
  match tweakJsonNodeAsCStr node with
  | none => .error .nullString
  | some s => .ok s

/-- `tweak_variant_from_string`, which cannot convert to the null type. -/
def checkedFromString (arg : Text) (targetType : VariantType) : Checked Conversion :=
  if targetType = .null then .error .fatal
  else .ok (tweakVariantFromString platform floats arg targetType)

/-- `parse_control_type` with its calls of `strcmp`. -/
def checkedControlType (node : Option Node) (defVal : ControlType) : Checked ControlType :=
  if tweakJsonGetType node = typeString then do
    let _ ← argument node
    return parseControlType node defVal
  else return defVal

def checkedVariant (node : Option Node) (defVal : Variant) : Checked Variant :=
  if tweakJsonGetType node &&& typeValue ≠ 0 then do
    match ← checkedFromString platform floats (← argument node) defVal.type with
    | (.fail, _) => return defVal
    | (_, tmp) => return tmp
  else return defVal

def checkedBool (node : Option Node) (defVal : Bool) : Checked Bool :=
  if tweakJsonGetType node &&& typeValue ≠ 0 then do
    match ← checkedFromString platform floats (← argument node) .bool with
    | (.success, .bool b) => return b
    | _ => return defVal
  else return defVal

def checkedUint32 (dst : BitVec 32) (node : Option Node) (defVal : BitVec 32) :
    Checked (BitVec 32) :=
  if tweakJsonGetType node &&& typeNumber ≠ 0 then do
    match ← checkedFromString platform floats (← argument node) (.num .uint32) with
    | (.fail, _) => return defVal
    | (_, tmp) => return scalarField .uint32 tmp
  else return dst

def checkedString (node : Option Node) (defVal : Text) : Checked Text :=
  if tweakJsonGetType node &&& typeString ≠ 0 then argument node else return defVal

def checkedStringNode (state : OptionsState) (node : Option Node) : Checked OptionsState := do
  return (state.1 ++ [⟨← argument node, state.2⟩], state.2)

def checkedOptionNode (state : OptionsState) (node : Option Node) :
    Checked (Option OptionsState) :=
  match tweakJsonGetObjectField node (text "text") typeString,
    tweakJsonGetObjectField node (text "value") (typeNumber ||| typeBool) with
  | some textNode, some valueNode => do
    match ← checkedFromString platform floats (← argument valueNode) state.2.type with
    | (.fail, _) => return none
    | (_, tmp) => return some (state.1 ++ [⟨← argument textNode, tmp⟩], tmp)
  | _, _ => return none

/-- One round of the loop of `parse_options_array`. -/
def checkedOptionsItem (optionsNode : Option Node) (state : OptionsState) (index : Nat) :
    Checked (Option OptionsState) :=
  match nextDefault state.2 index with
  | none => return none
  | some defaultValue => do
    let item := tweakJsonGetArrayItem optionsNode index (typeString ||| typeObject)
    if tweakJsonGetType item = typeString then
      return some (← checkedStringNode (state.1, defaultValue) item)
    else if tweakJsonGetType item = typeObject then
      checkedOptionNode platform floats (state.1, defaultValue) item
    else return none

/-- The loop of `parse_options_array`. -/
def checkedOptionsLoop (optionsNode : Option Node) :
    List Nat → OptionsState → Checked (Option OptionsState)
  | [], state => return some state
  | index :: indices, state => do
    match ← checkedOptionsItem platform floats optionsNode state index with
    | none => return none
    | some state => checkedOptionsLoop optionsNode indices state

/-- `options_present` and `options` of the user's settings. -/
def checkedOptions (metadata : MetadataBase) (document : Node) :
    Checked (Option (List MetadataOption)) :=
  let optionsNode := tweakJsonGetObjectField (some document) (text "options") typeArray
  if tweakJsonGetType optionsNode = typeArray then
    match tweakJsonGetArraySize optionsNode with
    | none => return some []
    | some size => do
      return (← checkedOptionsLoop platform floats optionsNode (List.range size)
        ([], zeroVariant metadata.min.type)).map (·.1)
  else return none

/-- The dimension at an index; `none` if it cannot be read to its end. -/
def checkedDimension (dimensionsNode : Option Node) (ix : Nat) : Checked (Option Nat) := do
  let s ← argument (tweakJsonGetArrayItem dimensionsNode ix typeNumber)
  return if (strtoul s).2 ≠ [] then none else some (strtoul s).1

/-- The loop of `parse_layout_object`. -/
def checkedDimensions (dimensionsNode : Option Node) : List Nat → Checked (Option (List Nat))
  | [] => return some []
  | ix :: ixs => do
    match ← checkedDimension dimensionsNode ix with
    | none => return none
    | some dimension =>
      return (← checkedDimensions dimensionsNode ixs).map (dimension :: ·)

def checkedOrder (layoutNode : Option Node) : Checked (Option LayoutOrder) :=
  match tweakJsonGetObjectField layoutNode (text "order") typeString with
  | none => return some .rowMajor
  | some orderNode => do
    let order ← argument orderNode
    if order = text "row-major" then return some .rowMajor
    else if order = text "column-major" then return some .columnMajor
    else return none

def checkedLayoutObject (layoutNode : Option Node) : Checked (Option Layout) :=
  match tweakJsonGetObjectField layoutNode (text "dimensions") typeArray with
  | none => return none
  | some dimensionsNode =>
    match tweakJsonGetArraySize dimensionsNode with
    | none => return none
    | some dimCount => do
      match ← checkedDimensions dimensionsNode (List.range dimCount) with
      | none => return none
      | some dimensions => return (← checkedOrder layoutNode).map (⟨·, dimensions⟩)

/-- `layout_present` and `layout` of the user's settings. -/
def checkedLayout (document : Node) : Checked (Option Layout) :=
  match tweakJsonGetObjectField (some document) (text "layout") typeObject with
  | none => return none
  | some layoutNode => checkedLayoutObject (some layoutNode)

/-- The fields of the user's settings in the order in which they are set. -/
def checkedSettings (metadata : MetadataBase) (document : Node) : Checked MetadataBase := do
  let field (name : String) (mask : Nat) := tweakJsonGetObjectField (some document) (text name) mask
  let readonly ← checkedBool platform floats (field "readonly" typeBool) metadata.readonly
  let _ ← checkedString (field "unit" typeString) metadata.unit
  let options ← checkedOptions platform floats metadata document
  let layout ← checkedLayout document
  match options with
  | some _ =>
    let controlType ← checkedControlType (field "control" typeString) .combobox
    let caption ← checkedString (field "caption" typeString) metadata.caption
    let unit ← checkedString (field "unit" typeString) metadata.unit
    return ⟨controlType, .null, .null, readonly, 0, .null, caption, unit, options, layout⟩
  | none =>
    let controlType ← checkedControlType (field "control" typeString) metadata.controlType
    let min ← checkedVariant platform floats (field "min" typeNumber) metadata.min
    let max ← checkedVariant platform floats (field "max" typeNumber) metadata.max
    let step ← checkedVariant platform floats (field "step" typeNumber) metadata.step
    let decimals ← checkedUint32 platform floats 0 (field "decimals" typeNumber) metadata.decimals
    let caption ← checkedString (field "caption" typeString) metadata.caption
    let unit ← checkedString (field "unit" typeString) metadata.unit
    return ⟨controlType, min, max, readonly, decimals, step, caption, unit, none, layout⟩

/-- `tweak_metadata_create`, with what ends the process. -/
def checkedCreate (itemType : VariantType) (itemCount : Nat) (jsonSnippet : Text) :
    Checked MetadataBase :=
  match fillWithDefaults floats itemType itemCount with
  | none => .error .fatal
  | some metadata =>
    match tweakJsonParse platform jsonSnippet with
    | none => return metadata
    | some document => do
      let settings ← checkedSettings platform floats metadata document
      return if validateMetadata itemType itemCount settings then settings else metadata

end Operations

variable {platform : Platform} {floats : FloatLibrary} {itemType : VariantType} {itemCount : Nat}
  {metadata : MetadataBase} {document : Node}

/-! ## Guarded texts -/

/-- A node that passed the look at its type has a text. -/
theorem argument_eq {node : Option Node} (h : tweakJsonGetType node &&& typeValue ≠ 0) :
    argument node = .ok (cStr node) := by
  cases node with
  | none => exact absurd rfl h
  | some node =>
    cases node with
    | bool data | number data | string data => rfl
    | null | array items | object fields =>
      exact absurd (by simp [tweakJsonGetType, Node.type, typeValue, typeString, typeBool,
        typeNumber]) h

variable {node result : Node} {mask : Nat}

/-- A node of the types asked for. -/
theorem type_of_masked (h : masked node mask = some result) :
    tweakJsonGetType (some result) &&& mask ≠ 0 := by
  rw [masked] at h
  split at h
  · next hmask =>
    cases h
    exact hmask
  · cases h

/-- What is fetched from an object has one of the types that were asked for. -/
theorem type_of_getObjectField {node : Option Node} {name : Text}
    (h : tweakJsonGetObjectField node name mask = some result) :
    tweakJsonGetType (some result) &&& mask ≠ 0 := by
  unfold tweakJsonGetObjectField at h
  split at h
  · obtain ⟨_, -, hmasked⟩ := Option.bind_eq_some_iff.mp h
    exact type_of_masked hmasked
  · cases h

/-- Asking for texts among the values is asking for values. -/
theorem typeValue_of_mask (hmask : mask &&& typeValue = mask)
    (h : tweakJsonGetType (some node) &&& mask ≠ 0) :
    tweakJsonGetType (some node) &&& typeValue ≠ 0 := by
  intro hzero
  rw [← hmask, Nat.and_comm mask, ← Nat.and_assoc, hzero, Nat.zero_and] at h
  exact h rfl

theorem argument_field {node : Option Node} {name : Text} (hmask : mask &&& typeValue = mask)
    (h : tweakJsonGetObjectField node name mask = some result) :
    argument (some result) = .ok (cStr (some result)) :=
  argument_eq (typeValue_of_mask hmask (type_of_getObjectField h))

private theorem checkedControlType_eq (node : Option Node) (defVal : ControlType) :
    checkedControlType node defVal = .ok (parseControlType node defVal) := by
  rw [checkedControlType]
  split
  · next hstring =>
    rw [argument_eq (by rw [hstring]; decide)]
    rfl
  · next hother =>
    rw [parseControlType, if_neg hother]
    rfl

theorem checkedFromString_eq {targetType : VariantType} (h : targetType ≠ .null) (arg : Text) :
    checkedFromString platform floats arg targetType =
      .ok (tweakVariantFromString platform floats arg targetType) :=
  if_neg h

/-- A number is converted without harm. -/
theorem checkedVariant_eq (node : Option Node) {defVal : Variant} (h : defVal.type ≠ .null) :
    checkedVariant platform floats node defVal = .ok (parseVariant platform floats node defVal) := by
  rw [checkedVariant, parseVariant]
  split
  · next hvalue =>
    rw [argument_eq hvalue]
    simp only [bind, Except.bind, checkedFromString_eq h]
    rcases tweakVariantFromString platform floats (cStr node) defVal.type with ⟨result, tmp⟩
    cases result <;> rfl
  · rfl

private theorem checkedBool_eq (node : Option Node) (defVal : Bool) :
    checkedBool platform floats node defVal = .ok (parseBool platform floats node defVal) := by
  rw [checkedBool, parseBool]
  split
  · next hvalue =>
    rw [argument_eq hvalue]
    simp only [bind, Except.bind, checkedFromString_eq (show VariantType.bool ≠ .null by decide)]
    rcases tweakVariantFromString platform floats (cStr node) .bool with ⟨result, tmp⟩
    cases result <;> cases tmp <;> rfl
  · rfl

private theorem checkedUint32_eq (dst : BitVec 32) (node : Option Node) (defVal : BitVec 32) :
    checkedUint32 platform floats dst node defVal =
      .ok (parseUint32 platform floats dst node defVal) := by
  rw [checkedUint32, parseUint32]
  split
  · next hnumber =>
    have hvalue : tweakJsonGetType node &&& typeValue ≠ 0 := by
      cases node with
      | none => exact absurd rfl hnumber
      | some node => exact typeValue_of_mask (by decide) hnumber
    rw [argument_eq hvalue]
    simp only [bind, Except.bind,
      checkedFromString_eq (show VariantType.num .uint32 ≠ .null by decide)]
    rcases tweakVariantFromString platform floats (cStr node) (.num .uint32) with ⟨result, tmp⟩
    cases result <;> rfl
  · rfl

private theorem checkedString_eq (node : Option Node) (defVal : Text) :
    checkedString node defVal = .ok (parseString node defVal) := by
  rw [checkedString, parseString]
  split
  · next hstring =>
    cases node with
    | none => exact absurd rfl hstring
    | some node => exact argument_eq (typeValue_of_mask (by decide) hstring)
  · rfl

/-! ## Options -/

/-- There is a next value for some types only, and it has the same type. -/
theorem type_variantIncrement {v next : Variant} (h : variantIncrement v = some next) :
    next.type = v.type ∧ v.type ≠ .null := by
  cases v with
  | bool b =>
    rw [variantIncrement] at h
    split at h <;> cases h
    exact ⟨rfl, VariantType.noConfusion⟩
  | num t bits =>
    rw [variantIncrement] at h
    split at h <;> cases h
    exact ⟨rfl, VariantType.noConfusion⟩
  | null | string s | vector t b => cases h

theorem type_nextDefault {v next : Variant} {index : Nat} (h : nextDefault v index = some next) :
    next.type = v.type ∧ (index ≠ 0 → v.type ≠ .null) := by
  rw [nextDefault] at h
  split at h
  · obtain ⟨hsame, hnull⟩ := type_variantIncrement h
    exact ⟨hsame, fun _ => hnull⟩
  · next hzero =>
    cases h
    exact ⟨rfl, fun hne => absurd hne hzero⟩

private theorem checkedOptionNode_eq {state : OptionsState} (h : state.2.type ≠ .null)
    (node : Option Node) :
    checkedOptionNode platform floats state node =
      .ok (parseOptionsArrayOptionNode platform floats state node) := by
  rw [checkedOptionNode, parseOptionsArrayOptionNode]
  cases htext : tweakJsonGetObjectField node (text "text") typeString with
  | none => rfl
  | some textNode =>
    cases hvalue : tweakJsonGetObjectField node (text "value") (typeNumber ||| typeBool) with
    | none => rfl
    | some valueNode =>
      have htextArg := argument_field (by decide) htext
      have hvalueArg := argument_field (by decide) hvalue
      simp only [bind, Except.bind, htextArg, hvalueArg, checkedFromString_eq h]
      rcases tweakVariantFromString platform floats (cStr (some valueNode)) state.2.type with
        ⟨result, tmp⟩
      cases result <;> rfl

/-- One round: the value for the next option is not null, because it has been incremented. -/
theorem checkedOptionsItem_eq (optionsNode : Option Node) {state : OptionsState} {index : Nat}
    (h : index = 0 → state.2.type ≠ .null) :
    checkedOptionsItem platform floats optionsNode state index =
      .ok (parseOptionsArrayItem platform floats optionsNode state index) := by
  rw [checkedOptionsItem, parseOptionsArrayItem_eq]
  cases hdefault : nextDefault state.2 index with
  | none => rfl
  | some defaultValue =>
    have htype : defaultValue.type ≠ .null := by
      obtain ⟨hsame, hnull⟩ := type_nextDefault hdefault
      rw [hsame]
      by_cases hindex : index = 0
      · exact h hindex
      · exact hnull hindex
    simp only [Option.bind_some, parseElement]
    split
    · next hstring =>
      rw [checkedStringNode, argument_eq (by rw [hstring]; decide)]
      rfl
    · split
      · exact checkedOptionNode_eq htype _
      · rfl

private theorem checkedOptionsLoop_eq (platform : Platform) (floats : FloatLibrary)
    (optionsNode : Option Node) (size : Nat) :
    ∀ (first : Nat) (state : OptionsState), (first = 0 → state.2.type ≠ .null) →
      checkedOptionsLoop platform floats optionsNode (List.range' first size) state =
        .ok ((List.range' first size).foldlM
          (parseOptionsArrayItem platform floats optionsNode) state) := by
  induction size with
  | zero => intro first state _; rfl
  | succ size ih =>
    intro first state hfirst
    rw [List.range'_succ, checkedOptionsLoop, checkedOptionsItem_eq optionsNode hfirst,
      List.foldlM_cons]
    cases parseOptionsArrayItem platform floats optionsNode state first with
    | none => rfl
    | some state => exact ih (first + 1) state (by omega)

theorem type_zeroVariant (t : VariantType) : (zeroVariant t).type = t := by
  cases t <;> rfl

private theorem checkedOptions_eq (h : metadata.min.type ≠ .null) (document : Node) :
    checkedOptions platform floats metadata document =
      .ok (userOptions platform floats metadata document) := by
  rw [checkedOptions, userOptions, parseOptionsArray]
  split
  · cases tweakJsonGetArraySize
      (tweakJsonGetObjectField (some document) (text "options") typeArray) with
    | none => rfl
    | some size =>
      have hloop := checkedOptionsLoop_eq platform floats (tweakJsonGetObjectField (some document)
        (text "options") typeArray) size 0 ([], zeroVariant metadata.min.type)
        (fun _ => by rw [type_zeroVariant]; exact h)
      rw [← List.range_eq_range'] at hloop
      simp only [hloop]
      rfl
  · rfl

/-! ## Layouts -/

/-- A failure that is handled, or a null pointer. -/
def outcome {α : Type} : Except Failure α → Checked (Option α)
  | .ok a => .ok (some a)
  | .error .exit => .ok none
  | .error .nullPointer => .error .nullString

private theorem checkedDimension_eq (dimensionsNode : Option Node) (ix : Nat) :
    checkedDimension dimensionsNode ix = outcome (parseDimension dimensionsNode ix) := by
  rw [checkedDimension, parseDimension, argument]
  cases tweakJsonNodeAsCStr (tweakJsonGetArrayItem dimensionsNode ix typeNumber) with
  | none => rfl
  | some s =>
    simp only [bind, Except.bind]
    split <;> rfl

private theorem checkedDimensions_eq (dimensionsNode : Option Node) (ixs : List Nat) :
    checkedDimensions dimensionsNode ixs = outcome (ixs.mapM (parseDimension dimensionsNode)) := by
  induction ixs with
  | nil => rfl
  | cons ix ixs ih =>
    rw [checkedDimensions, checkedDimension_eq, ih, List.mapM_cons]
    cases parseDimension dimensionsNode ix with
    | error failure => cases failure <;> rfl
    | ok dimension =>
      cases ixs.mapM (parseDimension dimensionsNode) with
      | error failure => cases failure <;> rfl
      | ok dimensions => rfl

private theorem checkedOrder_eq (layoutNode : Option Node) :
    checkedOrder layoutNode = outcome (parseOrder layoutNode) := by
  rw [checkedOrder, parseOrder]
  cases horder : tweakJsonGetObjectField layoutNode (text "order") typeString with
  | none => rfl
  | some orderNode =>
    simp only [argument_field (by decide) horder, bind, Except.bind]
    split
    · rfl
    · split <;> rfl

private theorem checkedLayoutObject_eq (layoutNode : Option Node) :
    checkedLayoutObject layoutNode = outcome (parseLayoutObject layoutNode) := by
  rw [checkedLayoutObject, parseLayoutObject]
  cases tweakJsonGetObjectField layoutNode (text "dimensions") typeArray with
  | none => rfl
  | some dimensionsNode =>
    simp only [checkedDimensions_eq, checkedOrder_eq]
    cases tweakJsonGetArraySize (some dimensionsNode) with
    | none => rfl
    | some dimCount =>
      dsimp only
      cases (List.range dimCount).mapM (parseDimension (some dimensionsNode)) with
      | error failure => cases failure <;> rfl
      | ok dimensions =>
        cases parseOrder layoutNode with
        | error failure => cases failure <;> rfl
        | ok order => rfl

theorem checkedLayout_eq (document : Node) :
    checkedLayout document = (userLayout document).mapError fun _ => .nullString := by
  rw [checkedLayout, userLayout]
  cases tweakJsonGetObjectField (some document) (text "layout") typeObject with
  | none => rfl
  | some layoutNode =>
    simp only [checkedLayoutObject_eq]
    cases parseLayoutObject (some layoutNode) with
    | error failure => cases failure <;> rfl
    | ok layout => rfl

/-! ## Creation -/

/-- The defaults have the type that user's numbers are converted to. -/
theorem fillWithDefaults_types (h : fillWithDefaults floats itemType itemCount = some metadata) :
    metadata.min.type = optionType itemType ∧ metadata.max.type = optionType itemType ∧
      metadata.step.type = optionType itemType := by
  cases itemType <;> cases h <;> exact ⟨rfl, rfl, rfl⟩

theorem optionType_ne_null (h : itemType ≠ .null) : optionType itemType ≠ .null := by
  cases itemType with
  | null => exact absurd rfl h
  | bool | num t | string | vector t => exact VariantType.noConfusion

/-- The settings are those of the other model, unless a layout ends the process. -/
theorem checkedSettings_eq (h : fillWithDefaults floats itemType itemCount = some metadata)
    (document : Node) :
    checkedSettings platform floats metadata document =
      (checkedLayout document).map (userSettings platform floats metadata document) := by
  have hnull : optionType itemType ≠ .null := optionType_ne_null
    ((isSome_fillWithDefaults floats itemType itemCount).mp (by rw [h]; rfl))
  obtain ⟨hmin, hmax, hstep⟩ := fillWithDefaults_types h
  rw [← hmin] at hnull
  simp only [checkedSettings, checkedBool_eq, checkedString_eq, checkedControlType_eq,
    checkedUint32_eq, checkedOptions_eq hnull, checkedVariant_eq _ hnull,
    checkedVariant_eq _ (hmax.trans hmin.symm ▸ hnull), checkedVariant_eq _ (hstep.trans hmin.symm ▸ hnull)]
  cases checkedLayout document with
  | error hazard => rfl
  | ok layout =>
    simp only [bind, Except.bind, Except.map, userSettings]
    cases userOptions platform floats metadata document <;> rfl

/-- The model without hazards has a result exactly if nothing ends the process, and it is the
same. -/
theorem tweakMetadataCreate_eq (platform : Platform) (floats : FloatLibrary)
    (itemType : VariantType) (itemCount : Nat) (jsonSnippet : Text) :
    tweakMetadataCreate platform floats itemType itemCount jsonSnippet =
      (checkedCreate platform floats itemType itemCount jsonSnippet).toOption := by
  rw [tweakMetadataCreate, checkedCreate]
  cases hfill : fillWithDefaults floats itemType itemCount with
  | none => rfl
  | some metadata =>
    cases tweakJsonParse platform jsonSnippet with
    | none => rfl
    | some document =>
      simp only [updateWithCustomUserSettings, checkedSettings_eq hfill, checkedLayout_eq]
      cases userLayout document <;> rfl

/-- The text is an integer from its first character to its last, as `strtoul` reads it. -/
def IsDimension (node : Node) : Prop := ∃ s, node = .number s ∧ (strtoul s).2 = []

/-- The layout of the document has a dimension that is no number and comes after integers only. -/
def NullDimension (document : Node) : Prop :=
  ∃ layoutNode, tweakJsonGetObjectField (some document) (text "layout") typeObject =
      some layoutNode ∧
    ∃ items, tweakJsonGetObjectField (some layoutNode) (text "dimensions") typeArray =
        some (.array items) ∧
      ∃ done node rest, items = done ++ node :: rest ∧ (∀ before ∈ done, IsDimension before) ∧
        ∀ s, node ≠ .number s

/-- What `parse_layout_object` makes of an element of the array. -/
def dimensionOf : Node → Except Failure Nat
  | .number s => if (strtoul s).2 ≠ [] then .error .exit else .ok (strtoul s).1
  | _ => .error .nullPointer

theorem parseDimension_eq (items : List Node) {ix : Nat} (hix : ix < items.length) :
    parseDimension (some (.array items)) ix = dimensionOf items[ix] := by
  simp only [parseDimension, tweakJsonGetArrayItem, List.getElem?_eq_getElem hix, Option.bind_some]
  cases items[ix] with
  | number s =>
    rw [masked_number s (by decide)]
    rfl
  | null | bool data | string data | array items | object fields =>
    simp [masked, Node.type, typeNumber, tweakJsonNodeAsCStr, dimensionOf]

theorem dimensionOf_eq_ok : (∃ n, dimensionOf node = .ok n) ↔ IsDimension node := by
  cases node with
  | number s =>
    rw [dimensionOf, IsDimension]
    split <;> simp_all
  | null | bool data | string data | array items | object fields =>
    simp [dimensionOf, IsDimension]

/-- What is no number is a null pointer for `strtoul`. -/
theorem dimensionOf_eq_nullPointer :
    dimensionOf node = .error .nullPointer ↔ ∀ s, node ≠ .number s := by
  cases node with
  | number s =>
    rw [dimensionOf]
    split <;> simp
  | null | bool data | string data | array items | object fields => simp [dimensionOf]

theorem isArray_of_typeArray (h : node.type &&& typeArray ≠ 0) : ∃ items, node = .array items := by
  cases node with
  | array items => exact ⟨items, rfl⟩
  | null | bool data | number data | string data | object fields =>
    exact absurd (by simp [Node.type, typeArray]) h

theorem parseOrder_ne_nullPointer (layoutNode : Option Node) :
    parseOrder layoutNode ≠ .error .nullPointer := by
  rw [parseOrder]
  split
  · exact nofun
  · split
    · exact nofun
    · split <;> exact nofun

/-- Only the loop over the dimensions passes on a null pointer. -/
theorem parseLayoutObject_eq_nullPointer (layoutNode : Node) :
    parseLayoutObject (some layoutNode) = .error .nullPointer ↔
      ∃ items, tweakJsonGetObjectField (some layoutNode) (text "dimensions") typeArray =
          some (.array items) ∧ items.mapM dimensionOf = .error .nullPointer := by
  rw [parseLayoutObject]
  cases hnode : tweakJsonGetObjectField (some layoutNode) (text "dimensions") typeArray with
  | none => simp
  | some dimensionsNode =>
    obtain ⟨items, rfl⟩ := isArray_of_typeArray (type_of_getObjectField hnode)
    simp only [tweakJsonGetArraySize, mapM_range (g := dimensionOf) (parseDimension_eq items)]
    have horder := parseOrder_ne_nullPointer (some layoutNode)
    cases hitems : items.mapM dimensionOf with
    | error failure => simp [hitems, bind, Except.bind]
    | ok dimensions =>
      cases hparse : parseOrder (some layoutNode) with
      | error failure =>
        rw [hparse] at horder
        simpa [hitems, bind, Except.bind] using horder
      | ok order => simp [hitems, bind, Except.bind, pure, Except.pure]

/-- Only such a dimension ends the process. -/
theorem userLayout_isOk (document : Node) :
    (∃ layout, userLayout document = .ok layout) ↔ ¬ NullDimension document := by
  rw [userLayout, NullDimension]
  cases tweakJsonGetObjectField (some document) (text "layout") typeObject with
  | none => simp
  | some layoutNode =>
    have hnull := parseLayoutObject_eq_nullPointer layoutNode
    simp only [mapM_eq_error, dimensionOf_eq_ok, dimensionOf_eq_nullPointer] at hnull
    simp only [Option.some.injEq, exists_eq_left']
    rw [← hnull]
    cases parseLayoutObject (some layoutNode) with
    | error failure => cases failure <;> simp
    | ok layout => simp

/-- For an item that has a type, metadata is made without a hazard exactly if no dimension in the
document is a null pointer for `strtoul`. -/
theorem tweakMetadataCreate_survives_iff (platform : Platform) (floats : FloatLibrary)
    {itemType : VariantType} (hitem : itemType ≠ .null) (itemCount : Nat) (jsonSnippet : Text) :
    (∃ metadata, checkedCreate platform floats itemType itemCount jsonSnippet = .ok metadata) ↔
      ∀ document, tweakJsonParse platform jsonSnippet = some document →
        ¬ NullDimension document := by
  obtain ⟨metadata, hfill⟩ :=
    Option.isSome_iff_exists.mp ((isSome_fillWithDefaults floats itemType itemCount).mpr hitem)
  rw [checkedCreate, hfill]
  cases tweakJsonParse platform jsonSnippet with
  | none => simp [pure, Except.pure]
  | some document =>
    simp only [Option.some.injEq, forall_eq', ← userLayout_isOk, checkedSettings_eq hfill,
      checkedLayout_eq]
    cases userLayout document with
    | error failure => simp [Except.mapError, Except.map, bind, Except.bind]
    | ok layout => simp [Except.mapError, Except.map, bind, Except.bind, pure, Except.pure]

/-- A document with a layout, and a caption that is no text. -/
def matrixDocument : Node :=
  .object [(text "layout", .object [(text "dimensions", .array [.number (text "2"), .number (text "3")])]),
    (text "caption", .number (text "7"))]

def matrixText : Text := text "\x7b\"layout\": \x7b\"dimensions\": [2, 3]\x7d, \"caption\": 7\x7d"

theorem parse_matrixText : tweakJsonParse ⟨true, fun _ => []⟩ matrixText = some matrixDocument := rfl

theorem tweakMetadataCreate_survives_matrix :
    ∃ metadata, checkedCreate ⟨true, fun _ => []⟩ .unused (.vector .sint32) 6 matrixText =
      .ok metadata := by
  refine (tweakMetadataCreate_survives_iff ⟨true, fun _ => []⟩ .unused (by decide) 6 matrixText).mpr ?_
  intro document hdocument
  obtain rfl := Option.some.inj (parse_matrixText.symm.trans hdocument)
  rw [← userLayout_isOk]
  exact ⟨_, rfl⟩

/-- A dimension that is a truth value is passed to `strtoul` as a null pointer. -/
theorem not_survives_bool_dimension :
    checkedCreate ⟨true, fun _ => []⟩ .unused (.vector .sint32) 1
        (text "\x7b\"layout\":\x7b\"dimensions\":[true]\x7d\x7d") = .error .nullString := by
  rfl

end TweakTool.Metadata
