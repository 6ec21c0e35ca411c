import TweakTool.Metadata.Typing

/-! # Merging the document with the defaults

Every setting has a default, and the document may give another value for it. What becomes of one
setting should not depend on the others, except that a control or a layout that does not suit the
item makes the document as a whole unusable. The code takes the settings of the document or the
defaults, all of them or none, and some settings are missing from what it takes. -/

namespace TweakTool.Metadata

open TweakTool.Lib TweakTool.Json
open TweakTool.Common (FloatLibrary tweakVariantFromString scalarField sizeModulus InRange intOf)

/-! ## The values of settings -/

def controlName : ControlType → Text
  | .unspecified => []
  | .checkbox => text "checkbox"
  | .spinbox => text "spinbox"
  | .slider => text "slider"
  | .combobox => text "combobox"
  | .button => text "button"
  | .editbox => text "editbox"
  | .table => text "table"

/-- The node names a control that is permitted. -/
def GivesControl (itemType : VariantType) (node : Node) (control : ControlType) : Prop :=
  node = .string (controlName control) ∧ control ∈ permitted itemType

/-- The node is a number that the type has. For floating point types, that is for the C library to
say. -/
def GivesNumber (floats : FloatLibrary) (type : VariantType) (node : Node) (value : Variant) : Prop :=
  (IsDiscrete type ∧ ∃ z, Denotes type node z ∧ value = optionValue type z) ∨
    ¬ IsDiscrete type ∧ ∃ t s, type = .num t ∧ node = .number s ∧
      Common.parseScalar floats t s = (.success, value)

def GivesDecimals (node : Node) (decimals : BitVec 32) : Prop :=
  ∃ z, Denotes (.num .uint32) node z ∧ decimals = BitVec.ofInt 32 z

def GivesFlag (node : Node) (flag : Bool) : Prop :=
  node = .bool (text (if flag then "true" else "false"))

def GivesText (node : Node) (t : Text) : Prop := node = .string t

/-- The node is a number of elements. -/
def IsSize (node : Node) (n : Nat) : Prop :=
  ∃ s, node = .number s ∧ scanInteger s = some (false, n, []) ∧ n < sizeModulus

def orderName : LayoutOrder → Text
  | .rowMajor => text "row-major"
  | .columnMajor => text "column-major"

/-- Both attributes of a layout are optional. -/
def GivesOrder (layoutNode : Node) (order : LayoutOrder) : Prop :=
  match tweakJsonGetObjectField (some layoutNode) (text "order") typeAny with
  | none => order = .rowMajor
  | some node => node = .string (orderName order)

def GivesDimensions (itemCount : Nat) (layoutNode : Node) (dimensions : List Nat) : Prop :=
  match tweakJsonGetObjectField (some layoutNode) (text "dimensions") typeAny with
  | none => dimensions = [itemCount]
  | some node => ∃ items, node = .array items ∧ List.Forall₂ IsSize items dimensions ∧
    dimensions.prod = itemCount

def GivesLayout (itemCount : Nat) (layoutNode : Node) (layout : Option Layout) : Prop :=
  ∃ order dimensions, GivesOrder layoutNode order ∧
    GivesDimensions itemCount layoutNode dimensions ∧ layout = some ⟨order, dimensions⟩

/-! ## What should become of them -/

/-- A setting has its default unless there is a node of the right type in the document, and the
value that such a node gives. -/
structure Takes {α : Type} (node : Option Node) (gives : Node → α → Prop) (default actual : α) :
    Prop where
  absent : node = none → actual = default
  given : ∀ n v, node = some n → gives n v → actual = v

/-- A setting of a document. -/
def setting (document : Node) (name : String) (mask : Nat) : Option Node :=
  tweakJsonGetObjectField (some document) (text name) mask

def IsInt (node : Node) (z : Int) : Prop :=
  ∃ s negative n, node = .number s ∧ scanInteger s = some (negative, n, []) ∧ intOf negative n = z

/-- The control that the document names is not permitted, or the dimensions do not have the right
product. -/
def Refused (itemType : VariantType) (itemCount : Nat) (document : Node) : Prop :=
  (∃ s, setting document "control" typeString = some (.string s) ∧
    ∀ control ∈ permitted itemType, s ≠ controlName control) ∨
  (isVector itemType ∧ ∃ layoutNode items dimensions,
    setting document "layout" typeObject = some layoutNode ∧
    setting layoutNode "dimensions" typeArray = some (.array items) ∧
    List.Forall₂ IsInt items dimensions ∧ dimensions.prod ≠ itemCount)

/-- The same settings. Only vectors have a layout. -/
@[mk_iff]
structure Same (itemType : VariantType) (m m' : MetadataBase) : Prop where
  controlType : m.controlType = m'.controlType
  min : m.min = m'.min
  max : m.max = m'.max
  step : m.step = m'.step
  decimals : m.decimals = m'.decimals
  readonly : m.readonly = m'.readonly
  caption : m.caption = m'.caption
  unit : m.unit = m'.unit
  layout : isVector itemType → m.layout = m'.layout

/-- Every setting by itself is as it should be. -/
@[mk_iff]
structure Merges (floats : FloatLibrary) (itemType : VariantType) (itemCount : Nat)
    (document : Node) (defaults m : MetadataBase) : Prop where
  controlType : Takes (setting document "control" typeString) (GivesControl itemType)
    defaults.controlType m.controlType
  min : Takes (setting document "min" typeNumber) (GivesNumber floats (optionType itemType))
    defaults.min m.min
  max : Takes (setting document "max" typeNumber) (GivesNumber floats (optionType itemType))
    defaults.max m.max
  step : Takes (setting document "step" typeNumber) (GivesNumber floats (optionType itemType))
    defaults.step m.step
  decimals : Takes (setting document "decimals" typeNumber) GivesDecimals defaults.decimals
    m.decimals
  readonly : Takes (setting document "readonly" typeBool) GivesFlag defaults.readonly m.readonly
  caption : Takes (setting document "caption" typeString) GivesText defaults.caption m.caption
  unit : Takes (setting document "unit" typeString) GivesText defaults.unit m.unit
  layout : isVector itemType → Takes (setting document "layout" typeObject)
    (GivesLayout itemCount) defaults.layout m.layout

/-- Metadata is made, and it is what the document and the defaults give. -/
def Merged (floats : FloatLibrary) (itemType : VariantType) (itemCount : Nat) (document : Node)
    (defaults : MetadataBase) (result : Option MetadataBase) : Prop :=
  ∃ m, result = some m ∧
    (Refused itemType itemCount document → Same itemType m defaults) ∧
    (¬ Refused itemType itemCount document →
      Merges floats itemType itemCount document defaults m)

variable {platform : Platform} {floats : FloatLibrary} {itemType : VariantType} {itemCount : Nat}
  {metadata : MetadataBase} {document : Node}

/-! ## What the code makes of a setting -/

/-- The control is taken over if it is permitted. -/
theorem takes_parseControlType (h : fillWithDefaults floats itemType itemCount = some metadata) :
    Takes (setting document "control" typeString) (GivesControl itemType) metadata.controlType
      (parseControlType (setting document "control" typeString) metadata.controlType) := by
  refine ⟨fun hnone => by rw [hnone]; rfl, ?_⟩
  rintro node control hnode ⟨rfl, hpermitted⟩
  rw [hnode, fillWithDefaults_controlType h]
  cases control with
  | unspecified =>
    cases itemType with
    | num t => cases t <;> exact absurd hpermitted (by decide)
    | null | bool | string | vector t => simp [permitted] at hpermitted
  | table =>
    -- There is no such name for the code, but then the default is what is left.
    cases itemType with
    | vector t => rfl
    | num t => cases t <;> exact absurd hpermitted (by decide)
    | null | bool | string => simp [permitted] at hpermitted
  | checkbox | spinbox | slider | combobox | button | editbox => rfl

variable {type : VariantType} {node : Node} {value : Variant}

/-- A number that the type has is what it is converted to. -/
theorem tweakVariantFromString_of_gives (h : GivesNumber floats type node value) :
    tweakVariantFromString platform floats (cStr (some node)) type = (.success, value) := by
  rcases h with ⟨hdiscrete, z, hz, rfl⟩ | ⟨-, t, s, rfl, rfl, hs⟩
  · exact tweakVariantFromString_of_denotes hdiscrete hz
  · exact hs

/-- A number is taken over if the type has it. -/
theorem takes_parseVariant (name : String) {defVal : Variant} (hdefVal : defVal.type = type) :
    Takes (setting document name typeNumber) (GivesNumber floats type) defVal
      (parseVariant platform floats (setting document name typeNumber) defVal) := by
  refine ⟨fun hnone => by rw [hnone]; rfl, ?_⟩
  intro node value hnode hgives
  have hvalue : tweakJsonGetType (some node) &&& typeValue ≠ 0 :=
    typeValue_of_mask (by decide) (type_of_getObjectField hnode)
  rw [hnode, parseVariant, if_pos hvalue, hdefVal, tweakVariantFromString_of_gives hgives]

/-- Decimals that are absent are zero, whatever their default is. -/
theorem takes_parseUint32 (defVal : BitVec 32) :
    Takes (setting document "decimals" typeNumber) GivesDecimals defVal
        (parseUint32 platform floats 0 (setting document "decimals" typeNumber) defVal) ↔
      (setting document "decimals" typeNumber = none → defVal = 0) := by
  constructor
  · intro h hnone
    have habsent := h.absent hnone
    rw [hnone] at habsent
    exact habsent.symm
  · intro h
    refine ⟨fun hnone => by rw [hnone, h hnone]; rfl, ?_⟩
    rintro node decimals hnode ⟨z, hz, rfl⟩
    have hnumber : tweakJsonGetType (some node) &&& typeNumber ≠ 0 := type_of_getObjectField hnode
    rw [hnode, parseUint32, if_pos hnumber,
      tweakVariantFromString_of_denotes (show IsDiscrete (.num .uint32) from rfl) hz]
    rfl

theorem takes_parseBool (defVal : Bool) :
    Takes (setting document "readonly" typeBool) GivesFlag defVal
      (parseBool platform floats (setting document "readonly" typeBool) defVal) := by
  refine ⟨fun hnone => by rw [hnone]; rfl, ?_⟩
  rintro node flag hnode rfl
  rw [hnode]
  cases flag <;> rfl

theorem takes_parseString (name : String) (defVal : Text) :
    Takes (setting document name typeString) GivesText defVal
      (parseString (setting document name typeString) defVal) := by
  refine ⟨fun hnone => by rw [hnone]; rfl, ?_⟩
  rintro node t hnode rfl
  rw [hnode, parseString, if_pos (type_of_getObjectField hnode)]
  rfl

/-! ## Layouts -/

variable {name : String} {mask : Nat}

/-- An attribute that is there at all is found if it has the type that is asked for. -/
theorem setting_of_typeAny {value : Node}
    (h : tweakJsonGetObjectField (some node) (text name) typeAny = some value) :
    setting node name mask = masked value mask := by
  cases node with
  | object fields =>
    obtain ⟨found, hfound, hmasked⟩ := Option.bind_eq_some_iff.mp h
    rw [masked_typeAny] at hmasked
    cases hmasked
    rw [setting, tweakJsonGetObjectField, hfound, Option.bind_some]
  | null | bool data | number data | string data | array items => cases h

theorem setting_of_typeAny_none
    (h : tweakJsonGetObjectField (some node) (text name) typeAny = none) :
    setting node name mask = none := by
  cases node with
  | object fields =>
    rw [setting, tweakJsonGetObjectField]
    cases hfound : fields.lookup (text name) with
    | none => rfl
    | some value =>
      rw [tweakJsonGetObjectField, hfound, Option.bind_some, masked_typeAny] at h
      cases h
  | null | bool data | number data | string data | array items => rfl

variable {layoutNode : Node} {order : LayoutOrder}

private theorem parseOrder_of_gives (h : GivesOrder layoutNode order) :
    parseOrder (some layoutNode) = .ok order := by
  rw [GivesOrder] at h
  rw [parseOrder]
  cases hnode : tweakJsonGetObjectField (some layoutNode) (text "order") typeAny with
  | none =>
    rw [hnode] at h
    rw [show tweakJsonGetObjectField (some layoutNode) (text "order") typeString = none from
      setting_of_typeAny_none hnode, h]
  | some node =>
    rw [hnode] at h
    subst h
    have hfound : tweakJsonGetObjectField (some layoutNode) (text "order") typeString = some _ :=
      (setting_of_typeAny hnode).trans (masked_string _ (by decide))
    rw [hfound]
    cases order <;> rfl

theorem strtoul_of_scan {s : Text} {n : Nat} (h : scanInteger s = some (false, n, []))
    (hn : n < sizeModulus) : strtoul s = (n, []) := by
  rw [strtoul, strtoull, h]
  simp only [Option.map_some, Option.getD_some, Bool.false_eq_true, if_false]
  rw [if_neg (by rw [sizeModulus] at hn; omega)]

variable {dimensions : List Nat}

private theorem mapM_dimensionOf {items : List Node} (h : List.Forall₂ IsSize items dimensions) :
    items.mapM dimensionOf = .ok dimensions := by
  induction h with
  | nil => rfl
  | @cons node n items dimensions hsize _ ih =>
    obtain ⟨s, rfl, hscan, hn⟩ := hsize
    have hnode : dimensionOf (.number s) = .ok n := by
      rw [dimensionOf, strtoul_of_scan hscan hn]
      rfl
    rw [List.mapM_cons, hnode, ih]
    rfl

/-- The code reads a layout that has dimensions. -/
theorem parseLayoutObject_of_gives (horder : GivesOrder layoutNode order)
    (hdimensions : GivesDimensions itemCount layoutNode dimensions) :
    parseLayoutObject (some layoutNode) = .error .exit ∨
      parseLayoutObject (some layoutNode) = .ok ⟨order, dimensions⟩ := by
  rw [GivesDimensions] at hdimensions
  rw [parseLayoutObject]
  cases hnode : tweakJsonGetObjectField (some layoutNode) (text "dimensions") typeAny with
  | none =>
    rw [show tweakJsonGetObjectField (some layoutNode) (text "dimensions") typeArray = none from
      setting_of_typeAny_none hnode]
    exact .inl rfl
  | some node =>
    rw [hnode] at hdimensions
    obtain ⟨items, rfl, hsizes, -⟩ := hdimensions
    have hfound : tweakJsonGetObjectField (some layoutNode) (text "dimensions") typeArray =
        some (.array items) :=
      (setting_of_typeAny hnode).trans (by simp [masked, Node.type, typeArray])
    rw [hfound]
    simp only [tweakJsonGetArraySize, mapM_range (g := dimensionOf) (parseDimension_eq items),
      mapM_dimensionOf hsizes, parseOrder_of_gives horder]
    exact .inr rfl

variable {layout : Option Layout}

/-- A layout that has been read is what the document gives. -/
theorem takes_userLayout {defaults : Option Layout} (hsome : layout.isSome)
    (h : userLayout document = .ok layout) :
    Takes (setting document "layout" typeObject) (GivesLayout itemCount) defaults layout := by
  rw [userLayout] at h
  refine ⟨fun hnone => ?_, ?_⟩
  · rw [show tweakJsonGetObjectField (some document) (text "layout") typeObject = none from hnone]
      at h
    cases h
    cases hsome
  · rintro layoutNode value hnode ⟨order, dimensions, horder, hdimensions, rfl⟩
    rw [show tweakJsonGetObjectField (some document) (text "layout") typeObject = some layoutNode
      from hnode] at h
    rcases parseLayoutObject_of_gives horder hdimensions with hparse | hparse
    · simp only [hparse] at h
      cases h
      cases hsome
    · simp only [hparse] at h
      cases h
      rfl

/-! ## The whole document -/

/-- The controls that `parse_control_type` has a name for. -/
def namedControls : List ControlType := [.checkbox, .spinbox, .slider, .combobox, .button, .editbox]

/-- The value of a field is converted to this one, or not at all. -/
def ConvertsTo (platform : Platform) (floats : FloatLibrary) (node : Option Node) (value : Variant) :
    Prop :=
  ∀ n result out, node = some n →
    tweakVariantFromString platform floats (cStr (some n)) value.type = (result, out) →
    result ≠ .fail → out = value

/-- A document that changes nothing where it is taken over: it names no other control than the
default, its numbers and its flag are converted to the defaults, its texts are the defaults. -/
@[mk_iff]
structure Ineffective (platform : Platform) (floats : FloatLibrary) (itemType : VariantType)
    (document : Node) (defaults : MetadataBase) (layout : Option Layout) : Prop where
  controlType : ∀ control ∈ namedControls,
    setting document "control" typeString = some (.string (controlName control)) →
    control = defaults.controlType
  min : ConvertsTo platform floats (setting document "min" typeNumber) defaults.min
  max : ConvertsTo platform floats (setting document "max" typeNumber) defaults.max
  step : ConvertsTo platform floats (setting document "step" typeNumber) defaults.step
  decimals : ConvertsTo platform floats (setting document "decimals" typeNumber)
    (.num .uint32 defaults.decimals)
  noDecimals : setting document "decimals" typeNumber = none → defaults.decimals = 0
  readonly : ConvertsTo platform floats (setting document "readonly" typeBool)
    (.bool defaults.readonly)
  caption : ∀ s, setting document "caption" typeString = some (.string s) → s = defaults.caption
  unit : ∀ s, setting document "unit" typeString = some (.string s) → s = defaults.unit
  layout : isVector itemType → layout = defaults.layout

/-- What a field gives, if it gives something valid, is this. -/
def GivesOnly {α : Type} (node : Option Node) (gives : Node → α → Prop) (value : α) : Prop :=
  ∀ n v, node = some n → gives n v → v = value

/-- A document with nothing to take over: no field of it has a valid value other than the default. -/
@[mk_iff]
structure Redundant (floats : FloatLibrary) (itemType : VariantType) (itemCount : Nat)
    (document : Node) (defaults : MetadataBase) : Prop where
  controlType : GivesOnly (setting document "control" typeString) (GivesControl itemType)
    defaults.controlType
  min : GivesOnly (setting document "min" typeNumber) (GivesNumber floats (optionType itemType))
    defaults.min
  max : GivesOnly (setting document "max" typeNumber) (GivesNumber floats (optionType itemType))
    defaults.max
  step : GivesOnly (setting document "step" typeNumber) (GivesNumber floats (optionType itemType))
    defaults.step
  decimals : GivesOnly (setting document "decimals" typeNumber) GivesDecimals defaults.decimals
  readonly : GivesOnly (setting document "readonly" typeBool) GivesFlag defaults.readonly
  caption : GivesOnly (setting document "caption" typeString) GivesText defaults.caption
  unit : GivesOnly (setting document "unit" typeString) GivesText defaults.unit
  layout : isVector itemType → GivesOnly (setting document "layout" typeObject)
    (GivesLayout itemCount) defaults.layout

/-- The code takes over what is wanted, or leaves out what is not: a document that is taken over
although it should be refused changes nothing, and otherwise its decimals are not absent where their
default is not zero; and a document that is left out although it should be taken over has nothing to
take over. -/
structure Mergeable (platform : Platform) (floats : FloatLibrary) (itemType : VariantType)
    (itemCount : Nat) (document : Node) (defaults : MetadataBase) (layout : Option Layout) :
    Prop where
  refused : Accepts itemType itemCount (requestedControl platform floats itemType document) layout →
    Refused itemType itemCount document →
    Ineffective platform floats itemType document defaults layout
  accepted : Accepts itemType itemCount (requestedControl platform floats itemType document) layout →
    ¬ Refused itemType itemCount document →
    setting document "decimals" typeNumber = none → defaults.decimals = 0
  dropped : ¬ Accepts itemType itemCount (requestedControl platform floats itemType document) layout →
    ¬ Refused itemType itemCount document →
    Redundant floats itemType itemCount document defaults

/-! ### Documents that change nothing -/

/-- A string that was asked for is one. -/
theorem setting_string (h : setting document name typeString = some node) :
    ∃ s, node = .string s := by
  have htype := type_of_getObjectField h
  cases node with
  | string s => exact ⟨s, rfl⟩
  | null | bool data | number data | array items | object fields =>
    exact absurd (by simp [tweakJsonGetType, Node.type, typeString]) htype

private theorem parseControlType_eq_iff (defVal : ControlType) :
    parseControlType (setting document "control" typeString) defVal = defVal ↔
      ∀ control ∈ namedControls,
        setting document "control" typeString = some (.string (controlName control)) →
        control = defVal := by
  cases hnode : setting document "control" typeString with
  | none => exact iff_of_true rfl (by rintro _ _ ⟨⟩)
  | some node =>
    obtain ⟨s, rfl⟩ := setting_string hnode
    simp only [namedControls, List.forall_mem_cons, Option.some.injEq, Node.string.injEq]
    constructor
    · intro h
      refine ⟨?_, ?_, ?_, ?_, ?_, ?_, by rintro _ ⟨⟩⟩ <;>
        · rintro rfl
          exact h
    · rintro ⟨hcheckbox, hspinbox, hslider, hcombobox, hbutton, heditbox, -⟩
      have hstring : tweakJsonGetType (some (.string s)) = typeString := rfl
      rw [parseControlType, if_pos hstring]
      -- each name in turn, and what the document would have to be for it
      split
      · next h => exact hcheckbox h.symm
      split
      · next h => exact hspinbox h.symm
      split
      · next h => exact hslider h.symm
      split
      · next h => exact hcombobox h.symm
      split
      · next h => exact hbutton h.symm
      split
      · next h => exact heditbox h.symm
      · rfl

theorem convertsTo_some {out : Variant} {result : Common.ConversionResult}
    (h : tweakVariantFromString platform floats (cStr (some node)) value.type = (result, out)) :
    ConvertsTo platform floats (some node) value ↔ (result ≠ .fail → out = value) := by
  constructor
  · exact fun hconverts => hconverts node result out rfl h
  · rintro hout _ _ _ ⟨⟩ h'
    cases h.symm.trans h'
    exact hout

/-- When a number changes nothing. -/
theorem parseVariant_eq_iff (name : String) (defVal : Variant) :
    parseVariant platform floats (setting document name typeNumber) defVal = defVal ↔
      ConvertsTo platform floats (setting document name typeNumber) defVal := by
  cases hnode : setting document name typeNumber with
  | none => exact iff_of_true rfl (by rintro _ _ _ ⟨⟩)
  | some node =>
    have hvalue : tweakJsonGetType (some node) &&& typeValue ≠ 0 :=
      typeValue_of_mask (by decide) (type_of_getObjectField hnode)
    rcases hconversion : tweakVariantFromString platform floats (cStr (some node)) defVal.type with
      ⟨result, out⟩
    rw [parseVariant, if_pos hvalue, convertsTo_some hconversion, hconversion]
    cases result <;> simp

private theorem parseUint32_eq_iff (defVal : BitVec 32) :
    parseUint32 platform floats 0 (setting document "decimals" typeNumber) defVal = defVal ↔
      ConvertsTo platform floats (setting document "decimals" typeNumber) (.num .uint32 defVal) ∧
        (setting document "decimals" typeNumber = none → defVal = 0) := by
  cases hnode : setting document "decimals" typeNumber with
  | none =>
    have hnone : parseUint32 platform floats 0 none defVal = 0 := rfl
    rw [hnone]
    exact ⟨fun h => ⟨by rintro _ _ _ ⟨⟩, fun _ => h.symm⟩, fun h => (h.2 rfl).symm⟩
  | some node =>
    have hnumber : tweakJsonGetType (some node) &&& typeNumber ≠ 0 := type_of_getObjectField hnode
    rcases hconversion : tweakVariantFromString platform floats (cStr (some node)) (.num .uint32) with
      ⟨result, out⟩
    have hends := Common.ends_parseScalar floats .uint32 (cStr (some node))
    rw [show Common.parseScalar floats .uint32 (cStr (some node)) = (result, out) from hconversion]
      at hends
    rw [parseUint32, if_pos hnumber, convertsTo_some hconversion, hconversion]
    -- an unsigned number is not lost
    cases hends with
    | failed => simp
    | lost hlost => exact absurd hlost.1 (by decide)
    | converted item hresult _ _ =>
      cases result with
      | fail => exact absurd rfl hresult
      | success | truncated =>
        rw [forall_prop_of_true hresult]
        dsimp only
        rw [Common.scalarField_num]
        refine ⟨fun h => ⟨congrArg _ h, by rintro ⟨⟩⟩, fun h => ?_⟩
        cases h.1
        rfl

private theorem parseBool_eq_iff (defVal : Bool) :
    parseBool platform floats (setting document "readonly" typeBool) defVal = defVal ↔
      ConvertsTo platform floats (setting document "readonly" typeBool) (.bool defVal) := by
  cases hnode : setting document "readonly" typeBool with
  | none => exact iff_of_true rfl (by rintro _ _ _ ⟨⟩)
  | some node =>
    have hvalue : tweakJsonGetType (some node) &&& typeValue ≠ 0 :=
      typeValue_of_mask (by decide) (type_of_getObjectField hnode)
    rcases hconversion : tweakVariantFromString platform floats (cStr (some node)) .bool with
      ⟨result, out⟩
    rw [parseBool, if_pos hvalue, convertsTo_some hconversion, hconversion]
    rw [tweakVariantFromString, Common.parseBool] at hconversion
    split at hconversion
    · cases hconversion
      simp
    · split at hconversion <;> cases hconversion <;> simp

private theorem parseString_eq_iff (name : String) (defVal : Text) :
    parseString (setting document name typeString) defVal = defVal ↔
      ∀ s, setting document name typeString = some (.string s) → s = defVal := by
  cases hnode : setting document name typeString with
  | none => exact iff_of_true rfl (by rintro _ ⟨⟩)
  | some node =>
    obtain ⟨s, rfl⟩ := setting_string hnode
    rw [parseString, if_pos (type_of_getObjectField hnode)]
    simp only [Option.some.injEq, Node.string.injEq, forall_eq']
    rfl

/-- A setting stays at its default exactly if the document gives nothing else for it. -/
theorem takes_default_iff {α : Type} {node : Option Node} {gives : Node → α → Prop} {default : α} :
    Takes node gives default default ↔ GivesOnly node gives default :=
  ⟨fun h n v hnode hgives => (h.given n v hnode hgives).symm,
    fun h => ⟨fun _ => rfl, fun n v hnode hgives => (h n v hnode hgives).symm⟩⟩

private theorem merges_default_iff {defaults : MetadataBase} :
    Merges floats itemType itemCount document defaults defaults ↔
      Redundant floats itemType itemCount document defaults := by
  simp only [merges_iff, redundant_iff, takes_default_iff]

theorem requestedOptions_eq_none (h : setting document "options" typeArray = none) :
    requestedOptions platform floats itemType document = none := by
  rw [requestedOptions, show tweakJsonGetObjectField (some document) (text "options") typeArray =
    none from h]
  rfl

/-- Unless it should be refused, the document leaves a vector its table. -/
theorem requestedControl_of_not_refused (hoptions : setting document "options" typeArray = none)
    (hvector : isVector itemType) (h : ¬ Refused itemType itemCount document) :
    requestedControl platform floats itemType document = .table := by
  cases itemType with
  | null | bool | num t | string => cases hvector
  | vector t =>
    rw [requestedControl, requestedOptions_eq_none hoptions]
    cases hnode : setting document "control" typeString with
    | none =>
      rw [show tweakJsonGetObjectField (some document) (text "control") typeString = none from
        hnode]
      rfl
    | some node =>
      have htype := type_of_getObjectField hnode
      rw [show tweakJsonGetObjectField (some document) (text "control") typeString = some node from
        hnode]
      cases node with
      | string s =>
        have hname : s = text "table" := by
          by_contra hne
          refine h (.inl ⟨s, hnode, ?_⟩)
          intro control hcontrol
          obtain rfl : control = .table := by simpa [permitted] using hcontrol
          exact hne
        rw [hname]
        rfl
      | null | bool data | number data | array items | object fields =>
        exact absurd (by simp [tweakJsonGetType, Node.type, typeString]) htype

/-- Without options, every setting is read by itself. -/
theorem userSettings_eq (h : fillWithDefaults floats itemType itemCount = some metadata)
    (hoptions : setting document "options" typeArray = none) (layout : Option Layout) :
    userSettings platform floats metadata document layout =
      { controlType := parseControlType (setting document "control" typeString) metadata.controlType
        min := parseVariant platform floats (setting document "min" typeNumber) metadata.min
        max := parseVariant platform floats (setting document "max" typeNumber) metadata.max
        readonly := parseBool platform floats (setting document "readonly" typeBool)
          metadata.readonly
        decimals := parseUint32 platform floats 0 (setting document "decimals" typeNumber)
          metadata.decimals
        step := parseVariant platform floats (setting document "step" typeNumber) metadata.step
        caption := parseString (setting document "caption" typeString) metadata.caption
        unit := parseString (setting document "unit" typeString) metadata.unit
        options := none
        layout := layout } := by
  have hnone : userOptions platform floats metadata document = none :=
    (userOptions_eq h).trans (requestedOptions_eq_none hoptions)
  simp only [userSettings, hnone]
  rfl

/-- The settings are the defaults exactly if the document is ineffective. -/
theorem same_userSettings (h : fillWithDefaults floats itemType itemCount = some metadata)
    (hoptions : setting document "options" typeArray = none) (layout : Option Layout) :
    Same itemType (userSettings platform floats metadata document layout) metadata ↔
      Ineffective platform floats itemType document metadata layout := by
  rw [userSettings_eq h hoptions, same_iff, ineffective_iff]
  simp only [parseControlType_eq_iff, parseVariant_eq_iff, parseUint32_eq_iff, parseBool_eq_iff,
    parseString_eq_iff, and_assoc]

private theorem merges_userSettings (h : fillWithDefaults floats itemType itemCount = some metadata)
    (hoptions : setting document "options" typeArray = none)
    (hlayout : userLayout document = .ok layout)
    (haccepts : Accepts itemType itemCount (requestedControl platform floats itemType document)
      layout) (hrefused : ¬ Refused itemType itemCount document) :
    Merges floats itemType itemCount document metadata
        (userSettings platform floats metadata document layout) ↔
      (setting document "decimals" typeNumber = none → metadata.decimals = 0) := by
  obtain ⟨hmin, hmax, hstep⟩ := fillWithDefaults_types h
  rw [userSettings_eq h hoptions, ← takes_parseUint32 metadata.decimals]
  refine ⟨Merges.decimals, fun hdecimals => ?_⟩
  refine ⟨takes_parseControlType h, takes_parseVariant _ hmin, takes_parseVariant _ hmax,
    takes_parseVariant _ hstep, hdecimals, takes_parseBool _, takes_parseString _ _,
    takes_parseString _ _, ?_⟩
  intro hvector
  -- Only a table with a layout is taken over for a vector.
  rw [Accepts, if_pos hvector, requestedControl_of_not_refused hoptions hvector hrefused]
    at haccepts
  obtain ⟨l, rfl, -⟩ := haccepts rfl
  exact takes_userLayout rfl hlayout

/-- A document that gives a caption, a limit and a control. -/
def captionDocument : Node :=
  .object [(text "caption", .string (text "a")), (text "min", .number (text "-5")),
    (text "control", .string (text "slider"))]

private theorem not_refused_captionDocument : ¬ Refused (.num .sint8) 1 captionDocument := by
  rintro (⟨s, hs, hrefused⟩ | ⟨hvector, -⟩)
  · have hslider : setting captionDocument "control" typeString = some (.string (text "slider")) := rfl
    obtain rfl := Node.string.inj (Option.some.inj (hslider.symm.trans hs))
    exact hrefused .slider (by decide) rfl
  · cases hvector

end TweakTool.Metadata
