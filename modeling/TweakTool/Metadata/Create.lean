import TweakTool.Common.Convert
import TweakTool.Common.String

/-! # Metadata

`tweakmetadata.c`: how an item is to be shown, from defaults for its type and a JSON document that
overrides them. Settings that do not suit the type are dropped as a whole. -/

namespace TweakTool.Metadata

open TweakTool.Lib TweakTool.Json
open TweakTool.Common (FloatLibrary tweakVariantFromString scalarField sizeModulus)

inductive ControlType where
  | unspecified | checkbox | spinbox | slider | combobox | button | editbox | table
  deriving DecidableEq

inductive LayoutOrder where
  | rowMajor | columnMajor
  deriving DecidableEq

structure Layout where
  order : LayoutOrder
  dimensions : List Nat
  deriving DecidableEq

structure MetadataOption where
  text : Text
  value : Variant
  deriving DecidableEq

/-- `struct tweak_metadata_base`. The flags `options_present` and `layout_present` tell whether the
fields they belong to have a value. -/
structure MetadataBase where
  controlType : ControlType
  min : Variant
  max : Variant
  readonly : Bool := false
  decimals : BitVec 32
  step : Variant
  caption : Text := []
  unit : Text := []
  options : Option (List MetadataOption) := none
  layout : Option Layout := none
  deriving DecidableEq

/-! ## Defaults -/

/-- What `IMPLEMENT_DEFAULT_METADATA_INITIALIZER` and its variant for vectors are given for a type. -/
structure NumDefaults (t : NumType) where
  min : BitVec t.width
  max : BitVec t.width
  decimals : BitVec 32
  step : BitVec t.width

def signedDefaults (t : NumType) (min max : Int) : NumDefaults t :=
  ⟨BitVec.ofInt _ min, BitVec.ofInt _ max, 0, 1⟩

def unsignedDefaults (t : NumType) (max : Nat) : NumDefaults t := ⟨0, BitVec.ofNat _ max, 0, 1⟩

/-- `DEFAULT_FLOAT_DECIMALS` and `DEFAULT_DOUBLE_DECIMALS`. -/
def defaultDecimals : Nat := 4

/-- For the largest number `max`; its negative has the sign bit set. -/
def floatDefaults (floats : FloatLibrary) (t : NumType) (max : Nat) : NumDefaults t where
  min := BitVec.ofNat _ (max + 2 ^ (t.width - 1))
  max := BitVec.ofNat _ max
  decimals := BitVec.ofNat _ defaultDecimals
  step := floats.pow10 t (-defaultDecimals)

def numDefaults (floats : FloatLibrary) : (t : NumType) → NumDefaults t
  | .sint8 => signedDefaults _ (-2 ^ 7) (2 ^ 7 - 1)
  | .sint16 => signedDefaults _ (-2 ^ 15) (2 ^ 15 - 1)
  | .sint32 => signedDefaults _ (-2 ^ 31) (2 ^ 31 - 1)
  | .sint64 => signedDefaults _ (-2 ^ 63) (2 ^ 63 - 1)
  | .uint8 => unsignedDefaults _ (2 ^ 8 - 1)
  | .uint16 => unsignedDefaults _ (2 ^ 16 - 1)
  | .uint32 => unsignedDefaults _ (2 ^ 32 - 1)
  | .uint64 => unsignedDefaults _ (2 ^ 64 - 1)
  | .float => floatDefaults floats _ 0x7F7FFFFF
  | .double => floatDefaults floats _ 0x7FEFFFFFFFFFFFFF

def numControl : NumType → ControlType
  | .float | .double => .slider
  | _ => .spinbox

def fillWithDefaultsBool : MetadataBase where
  controlType := .checkbox
  min := .bool false
  max := .bool true
  decimals := 0
  step := .bool false

/-- `fill_with_defaults_sint8`, …, `fill_with_defaults_double`. -/
def fillWithDefaultsNum (floats : FloatLibrary) (t : NumType) : MetadataBase where
  controlType := numControl t
  min := .num t (numDefaults floats t).min
  max := .num t (numDefaults floats t).max
  decimals := (numDefaults floats t).decimals
  step := .num t (numDefaults floats t).step

def fillWithDefaultsString : MetadataBase where
  controlType := .editbox
  min := .string []
  max := .string []
  decimals := 0
  step := .string []

/-- `fill_with_defaults_vector_sint8`, …, `fill_with_defaults_vector_double`. -/
def fillWithDefaultsVector (floats : FloatLibrary) (t : NumType) (itemCount : Nat) : MetadataBase :=
  { fillWithDefaultsNum floats t with
    controlType := .table
    layout := some ⟨.rowMajor, [itemCount]⟩ }

/-- `none` if the process ends. -/
def fillWithDefaults (floats : FloatLibrary) (itemType : VariantType) (itemCount : Nat) :
    Option MetadataBase :=
  match itemType with
  | .null => none
  | .bool => some fillWithDefaultsBool
  | .num t => some (fillWithDefaultsNum floats t)
  | .string => some fillWithDefaultsString
  | .vector t => some (fillWithDefaultsVector floats t itemCount)

/-! ## Fields of the document -/

section Fields

variable (platform : Platform) (floats : FloatLibrary)

/-- The text of a node that is known to have one. -/
def cStr (node : Option Node) : Text := (tweakJsonNodeAsCStr node).getD []

def parseControlType (node : Option Node) (defVal : ControlType) : ControlType :=
  if tweakJsonGetType node = typeString then
    if text "checkbox" = cStr node then .checkbox
    else if text "spinbox" = cStr node then .spinbox
    else if text "slider" = cStr node then .slider
    else if text "combobox" = cStr node then .combobox
    else if text "button" = cStr node then .button
    else if text "editbox" = cStr node then .editbox
    else defVal
  else defVal

def parseVariant (node : Option Node) (defVal : Variant) : Variant :=
  if tweakJsonGetType node &&& typeValue ≠ 0 then
    match tweakVariantFromString platform floats (cStr node) defVal.type with
    | (.fail, _) => defVal
    | (_, tmp) => tmp
  else defVal

def parseBool (node : Option Node) (defVal : Bool) : Bool :=
  if tweakJsonGetType node &&& typeValue ≠ 0 then
    match tweakVariantFromString platform floats (cStr node) .bool with
    | (.success, .bool b) => b
    | _ => defVal
  else defVal

/-- A missing node leaves `dst` as it is; the default is only used for a text that cannot be
converted. -/
def parseUint32 (dst : BitVec 32) (node : Option Node) (defVal : BitVec 32) : BitVec 32 :=
  if tweakJsonGetType node &&& typeNumber ≠ 0 then
    match tweakVariantFromString platform floats (cStr node) (.num .uint32) with
    | (.fail, _) => defVal
    | (_, tmp) => scalarField .uint32 tmp
  else dst

def parseString (node : Option Node) (defVal : Text) : Text :=
  if tweakJsonGetType node &&& typeString ≠ 0 then cStr node else defVal

/-! ## Options -/

/-- A variant of a type, with all bytes of its union zero. -/
def zeroVariant : VariantType → Variant
  | .null => .null
  | .bool => .bool false
  | .num t => .num t 0
  | .string => .string []
  | .vector t => .vector t []

/-- Below `INT8_MAX`, …, `UINT64_MAX`; there is no successor of a floating point number. -/
def hasSuccessor (t : NumType) (bits : BitVec t.width) : Bool :=
  match t with
  | .sint8 | .sint16 | .sint32 | .sint64 => bits.toInt < 2 ^ (t.width - 1) - 1
  | .uint8 | .uint16 | .uint32 | .uint64 => bits.toNat < 2 ^ t.width - 1
  | .float | .double => false

/-- `none` if there is no next value. -/
def variantIncrement : Variant → Option Variant
  | .bool b => if b = false then some (.bool true) else none
  | .num t bits => if hasSuccessor t bits then some (.num t (bits + 1)) else none
  | _ => none

/-- The array of options so far, and `default_value`. -/
abbrev OptionsState := List MetadataOption × Variant

def parseOptionsArrayStringNode (state : OptionsState) (node : Option Node) : OptionsState :=
  (state.1 ++ [⟨cStr node, state.2⟩], state.2)

def parseOptionsArrayOptionNode (state : OptionsState) (node : Option Node) :
    Option OptionsState :=
  match tweakJsonGetObjectField node (text "text") typeString,
    tweakJsonGetObjectField node (text "value") (typeNumber ||| typeBool) with
  | some textNode, some valueNode =>
    match tweakVariantFromString platform floats (cStr valueNode) state.2.type with
    | (.fail, _) => none
    | (_, tmp) => some (state.1 ++ [⟨cStr textNode, tmp⟩], tmp)
  | _, _ => none

/-- One round of the loop. -/
def parseOptionsArrayItem (optionsNode : Option Node) (state : OptionsState) (index : Nat) :
    Option OptionsState := do
  let defaultValue ← if index ≠ 0 then variantIncrement state.2 else some state.2
  let item := tweakJsonGetArrayItem optionsNode index (typeString ||| typeObject)
  if tweakJsonGetType item = typeString then
    some (parseOptionsArrayStringNode (state.1, defaultValue) item)
  else if tweakJsonGetType item = typeObject then
    parseOptionsArrayOptionNode platform floats (state.1, defaultValue) item
  else none

/-- `none` if it fails; otherwise the options, of which there are none if the node is no array. -/
def parseOptionsArray (optionsNode : Option Node) (optionType : VariantType) :
    Option (List MetadataOption) :=
  match tweakJsonGetArraySize optionsNode with
  | none => some []
  | some size =>
    ((List.range size).foldlM (parseOptionsArrayItem platform floats optionsNode)
      ([], zeroVariant optionType)).map (·.1)

/-! ## Layouts -/

/-- How `parse_layout_object` ends without a layout: it returns `false`, or it passes a null pointer
to `strtoul`. -/
inductive Failure where
  | exit | nullPointer
  deriving DecidableEq

/-- With what `endp` is set to. `unsigned long` has 64 bits. -/
def strtoul (s : Text) : Nat × Text := (strtoull s).getD (0, s)

def parseDimension (dimensionsNode : Option Node) (ix : Nat) : Except Failure Nat :=
  match tweakJsonNodeAsCStr (tweakJsonGetArrayItem dimensionsNode ix typeNumber) with
  | none => .error .nullPointer
  | some s => if (strtoul s).2 ≠ [] then .error .exit else .ok (strtoul s).1

def parseOrder (layoutNode : Option Node) : Except Failure LayoutOrder :=
  match tweakJsonGetObjectField layoutNode (text "order") typeString with
  | none => .ok .rowMajor
  | some orderNode =>
    if cStr orderNode = text "row-major" then .ok .rowMajor
    else if cStr orderNode = text "column-major" then .ok .columnMajor
    else .error .exit

def parseLayoutObject (layoutNode : Option Node) : Except Failure Layout :=
  match tweakJsonGetObjectField layoutNode (text "dimensions") typeArray with
  | none => .error .exit
  | some dimensionsNode =>
    match tweakJsonGetArraySize dimensionsNode with
    | none => .error .exit
    | some dimCount => do
      let dimensions ← (List.range dimCount).mapM (parseDimension dimensionsNode)
      let order ← parseOrder layoutNode
      return ⟨order, dimensions⟩

/-- `layout_present` and `layout` of the user's settings. -/
def userLayout (document : Node) : Except Failure (Option Layout) :=
  match tweakJsonGetObjectField (some document) (text "layout") typeObject with
  | none => .ok none
  | some layoutNode =>
    match parseLayoutObject (some layoutNode) with
    | .ok layout => .ok (some layout)
    | .error .exit => .ok none
    | .error .nullPointer => .error .nullPointer

/-! ## Validation -/

def validateMetadataBool (userSettings : MetadataBase) : Bool :=
  match userSettings.controlType with
  | .button | .checkbox | .spinbox | .combobox => true
  | _ => false

def validateMetadataInteger (userSettings : MetadataBase) : Bool :=
  match userSettings.controlType with
  | .spinbox | .slider | .combobox => true
  | _ => false

def validateMetadataFloat (userSettings : MetadataBase) : Bool :=
  match userSettings.controlType with
  | .slider | .spinbox => true
  | _ => false

def validateMetadataString (userSettings : MetadataBase) : Bool :=
  match userSettings.controlType with
  | .editbox => true
  | _ => false

/-- The product of the dimensions, computed in `size_t`. -/
def product (dimensions : List Nat) : Nat :=
  dimensions.foldl (fun product dimensionSize => product * dimensionSize % sizeModulus) 1

def validateMetadataVector (userSettings : MetadataBase) (itemCount : Nat) : Bool :=
  if userSettings.controlType = .table then
    match userSettings.layout with
    | some layout => itemCount == product layout.dimensions
    | none => false
  else true

def validateMetadata (itemType : VariantType) (itemCount : Nat) (userSettings : MetadataBase) :
    Bool :=
  match itemType with
  | .null => false -- the process has ended
  | .bool => validateMetadataBool userSettings
  | .num t =>
    if t.isInteger then validateMetadataInteger userSettings else validateMetadataFloat userSettings
  | .string => validateMetadataString userSettings
  | .vector _ => validateMetadataVector userSettings itemCount

/-! ## The user's settings -/

def mergeMetadataCommon (userMetadata defaultMetadata : MetadataBase) (document : Node) :
    MetadataBase :=
  { userMetadata with
    caption := parseString (tweakJsonGetObjectField (some document) (text "caption") typeString)
      defaultMetadata.caption
    unit := parseString (tweakJsonGetObjectField (some document) (text "unit") typeString)
      defaultMetadata.unit }

def mergeMetadataDefault (userMetadata defaultMetadata : MetadataBase) (document : Node) :
    MetadataBase :=
  let field (name : String) (mask : Nat) := tweakJsonGetObjectField (some document) (text name) mask
  mergeMetadataCommon
    { userMetadata with
      controlType := parseControlType (field "control" typeString) defaultMetadata.controlType
      min := parseVariant platform floats (field "min" typeNumber) defaultMetadata.min
      max := parseVariant platform floats (field "max" typeNumber) defaultMetadata.max
      step := parseVariant platform floats (field "step" typeNumber) defaultMetadata.step
      decimals := parseUint32 platform floats userMetadata.decimals (field "decimals" typeNumber)
        defaultMetadata.decimals }
    defaultMetadata document

def mergeMetadataOptionsMapPresent (userMetadata defaultMetadata : MetadataBase) (document : Node) :
    MetadataBase :=
  mergeMetadataCommon
    { userMetadata with
      controlType := parseControlType
        (tweakJsonGetObjectField (some document) (text "control") typeString) .combobox
      min := .null
      max := .null
      step := .null
      decimals := 0 }
    defaultMetadata document

/-- `options_present` and `options` of the user's settings. -/
def userOptions (metadata : MetadataBase) (document : Node) : Option (List MetadataOption) :=
  let optionsNode := tweakJsonGetObjectField (some document) (text "options") typeArray
  if tweakJsonGetType optionsNode = typeArray then
    parseOptionsArray platform floats optionsNode metadata.min.type
  else none

/-- `user_settings` when they are complete, with a layout already parsed. -/
def userSettings (metadata : MetadataBase) (document : Node) (layout : Option Layout) :
    MetadataBase :=
  let blank : MetadataBase :=
    { controlType := .unspecified
      min := .null
      max := .null
      readonly := parseBool platform floats
        (tweakJsonGetObjectField (some document) (text "readonly") typeBool) metadata.readonly
      decimals := 0
      step := .null
      unit := parseString (tweakJsonGetObjectField (some document) (text "unit") typeString)
        metadata.unit
      options := userOptions platform floats metadata document
      layout := layout }
  match blank.options with
  | some _ => mergeMetadataOptionsMapPresent blank metadata document
  | none => mergeMetadataDefault platform floats blank metadata document

/-- Valid settings replace every field of the metadata. -/
def updateWithCustomUserSettings (itemType : VariantType) (itemCount : Nat)
    (metadata : MetadataBase) (document : Node) : Except Failure MetadataBase := do
  let layout ← userLayout document
  let settings := userSettings platform floats metadata document layout
  return if validateMetadata itemType itemCount settings then settings else metadata

/-- `none` if the process ends: there is no metadata for the null type, and `strtoul` does not take
a null pointer. Allocations succeed. -/
def tweakMetadataCreate (itemType : VariantType) (itemCount : Nat) (jsonSnippet : Text) :
    Option MetadataBase :=
  match fillWithDefaults floats itemType itemCount with
  | none => none
  | some metadata =>
    match tweakJsonParse platform jsonSnippet with
    | none => some metadata
    | some document =>
      (updateWithCustomUserSettings platform floats itemType itemCount metadata document).toOption

end Fields

/-! ## Access to the layout -/

def tweakMetadataGetLayout (metadata : MetadataBase) : Option Layout := metadata.layout

def tweakMetadataLayoutGetNumberOfDimensions (layout : Layout) : Nat := layout.dimensions.length

def tweakMetadataLayoutGetDimension (layout : Layout) (dimension : Nat) : Nat :=
  (layout.dimensions[dimension]?).getD 0

end TweakTool.Metadata
