import TweakTool.Common.Stored
import TweakTool.Metadata.Create

/-! # Copies of metadata

`tweak_metadata_copy` and the getters, on metadata as they are in memory. What new memory contains is a
parameter: the record that is filled in, and what the C library leaves open at each of its calls
(`libs`). -/

namespace TweakTool.Metadata

open TweakTool.Lib TweakTool.Common

structure StoredOption where
  text : VariantString
  value : StoredVariant

/-- `struct tweak_metadata_options_base`; a null pointer is `none`. -/
structure StoredOptions where
  options : Option (List StoredOption)

structure StoredLayout where
  order : LayoutOrder
  dimensions : Option (List Nat)

structure StoredMetadata where
  controlType : ControlType
  min : StoredVariant
  max : StoredVariant
  readonly : Bool
  decimals : BitVec 32
  step : StoredVariant
  caption : VariantString
  unit : VariantString
  optionsPresent : Bool
  options : StoredOptions
  layoutPresent : Bool
  layout : StoredLayout

/-! ## Copying -/

def metadataOptionCopy (textLib valueLib : CLibrary) (src : StoredOption) : StoredOption where
  text := tweakVariantStringCopy textLib src.text
  value := tweakVariantCopy valueLib src.value

/-- `clone_options`. What is pushed to the array is copied once more. -/
def cloneOptions (libs : Nat → CLibrary) (options : StoredOptions) : StoredOptions :=
  match options.options with
  | none => ⟨none⟩
  | some options =>
    ⟨some (options.mapIdx fun ix option =>
      let optionCopy := metadataOptionCopy (libs (4 * ix)) (libs (4 * ix + 1)) option
      metadataOptionCopy (libs (4 * ix + 2)) (libs (4 * ix + 3)) optionCopy)⟩

def cloneLayout (layout : StoredLayout) : StoredLayout :=
  match layout.dimensions with
  | none => ⟨.rowMajor, none⟩
  | some dimensions => ⟨layout.order, some dimensions⟩

/-- `tweak_metadata_copy`, with `memory` for what `malloc` returned. -/
def tweakMetadataCopy (libs : Nat → CLibrary) (memory metadata : StoredMetadata) : StoredMetadata :=
  let result := memory
  let result := { result with controlType := metadata.controlType }
  let result := { result with min := tweakVariantCopy (libs 0) metadata.min }
  let result := { result with max := tweakVariantCopy (libs 1) metadata.max }
  let result := { result with readonly := metadata.readonly }
  -- both sides are the copy
  let result := { result with decimals := result.decimals }
  let result := { result with step := tweakVariantCopy (libs 2) metadata.step }
  let result := { result with caption := tweakVariantStringCopy (libs 3) metadata.caption }
  let result := { result with unit := tweakVariantStringCopy (libs 4) metadata.unit }
  let result := { result with optionsPresent := metadata.optionsPresent }
  let result :=
    if metadata.optionsPresent then
      { result with options := cloneOptions (fun n => libs (n + 5)) metadata.options }
    else { result with options := ⟨none⟩ }
  let result := { result with layoutPresent := metadata.layoutPresent }
  if metadata.layoutPresent then { result with layout := cloneLayout metadata.layout }
  else { result with layout := ⟨.rowMajor, none⟩ }

/-! ## Getters -/

namespace StoredMetadata

def tweakMetadataGetControlType (metadata : StoredMetadata) : ControlType := metadata.controlType

def tweakMetadataGetMin (metadata : StoredMetadata) : StoredVariant := metadata.min

def tweakMetadataGetMax (metadata : StoredMetadata) : StoredVariant := metadata.max

def tweakMetadataGetReadonly (metadata : StoredMetadata) : Bool := metadata.readonly

def tweakMetadataGetDecimals (metadata : StoredMetadata) : BitVec 32 := metadata.decimals

def tweakMetadataGetStep (metadata : StoredMetadata) : StoredVariant := metadata.step

def tweakMetadataGetCaption (metadata : StoredMetadata) : VariantString := metadata.caption

def tweakMetadataGetUnit (metadata : StoredMetadata) : VariantString := metadata.unit

def tweakMetadataGetOptions (metadata : StoredMetadata) : Option StoredOptions :=
  if metadata.optionsPresent then some metadata.options else none

def tweakMetadataGetLayout (metadata : StoredMetadata) : Option StoredLayout :=
  if metadata.layoutPresent then some metadata.layout else none

end StoredMetadata

namespace StoredOptions

/-- The getters for options follow the pointer to the array; `none` if it is null. -/
def tweakMetadataGetEnumSize (arg : StoredOptions) : Option Nat := arg.options.map (·.length)

def tweakMetadataGetEnumText (arg : StoredOptions) (index : Nat) : Option (Option VariantString) :=
  arg.options.map fun options => (options[index]?).map (·.text)

def tweakMetadataGetEnumValue (arg : StoredOptions) (index : Nat) : Option (Option StoredVariant) :=
  arg.options.map fun options => (options[index]?).map (·.value)

end StoredOptions

namespace StoredLayout

def tweakMetadataLayoutGetOrder (layout : StoredLayout) : LayoutOrder := layout.order

def tweakMetadataLayoutGetNumberOfDimensions (layout : StoredLayout) : Option Nat :=
  layout.dimensions.map (·.length)

def tweakMetadataLayoutGetDimension (layout : StoredLayout) (dimension : Nat) : Option Nat :=
  layout.dimensions.map fun dimensions => (dimensions[dimension]?).getD 0

end StoredLayout

def shownOption (arg : StoredOptions) (index : Nat) :
    Option Nat × Option (Option (Option CString × Nat)) ×
      Option (Option (VariantOf (Option CString × Nat) Bytes)) :=
  (arg.tweakMetadataGetEnumSize, (arg.tweakMetadataGetEnumText index).map (·.map shownString),
    (arg.tweakMetadataGetEnumValue index).map (·.map shownVariant))

def shownDimension (layout : StoredLayout) (dimension : Nat) : LayoutOrder × Option Nat × Option Nat :=
  (layout.tweakMetadataLayoutGetOrder, layout.tweakMetadataLayoutGetNumberOfDimensions,
    layout.tweakMetadataLayoutGetDimension dimension)

structure SameGetters (a b : StoredMetadata) : Prop where
  controlType : a.tweakMetadataGetControlType = b.tweakMetadataGetControlType
  min : shownVariant a.tweakMetadataGetMin = shownVariant b.tweakMetadataGetMin
  max : shownVariant a.tweakMetadataGetMax = shownVariant b.tweakMetadataGetMax
  readonly : a.tweakMetadataGetReadonly = b.tweakMetadataGetReadonly
  decimals : a.tweakMetadataGetDecimals = b.tweakMetadataGetDecimals
  step : shownVariant a.tweakMetadataGetStep = shownVariant b.tweakMetadataGetStep
  caption : shownString a.tweakMetadataGetCaption = shownString b.tweakMetadataGetCaption
  unit : shownString a.tweakMetadataGetUnit = shownString b.tweakMetadataGetUnit
  options : ∀ index, a.tweakMetadataGetOptions.map (shownOption · index) =
    b.tweakMetadataGetOptions.map (shownOption · index)
  layout : ∀ dimension, a.tweakMetadataGetLayout.map (shownDimension · dimension) =
    b.tweakMetadataGetLayout.map (shownDimension · dimension)

/-! ## Metadata in memory -/

structure KeptOption (option : MetadataOption) (stored : StoredOption) : Prop where
  text : KeptString option.text stored.text
  value : KeptVariant option.value stored.value

inductive KeptOptions : Option (List MetadataOption) → Bool → StoredOptions → Prop
  | absent (options : StoredOptions) : KeptOptions none false options
  | present {options : List MetadataOption} {stored : List StoredOption}
    (h : List.Forall₂ KeptOption options stored) : KeptOptions (some options) true ⟨some stored⟩

inductive KeptLayout : Option Layout → Bool → StoredLayout → Prop
  | absent (layout : StoredLayout) : KeptLayout none false layout
  | present (layout : Layout) : KeptLayout (some layout) true ⟨layout.order, some layout.dimensions⟩

/-- Metadata in memory: every string is one that was assigned to a new object or copied. The unit is
assigned twice from one field of the document. -/
structure Kept (base : MetadataBase) (metadata : StoredMetadata) : Prop where
  controlType : metadata.controlType = base.controlType
  min : KeptVariant base.min metadata.min
  max : KeptVariant base.max metadata.max
  readonly : metadata.readonly = base.readonly
  decimals : metadata.decimals = base.decimals
  step : KeptVariant base.step metadata.step
  caption : KeptString base.caption metadata.caption
  unit : KeptString base.unit metadata.unit
  options : KeptOptions base.options metadata.optionsPresent metadata.options
  layout : KeptLayout base.layout metadata.layoutPresent metadata.layout

/-- Metadata in memory that `tweak_metadata_create` has returned. -/
def Created (platform : Json.Platform) (floats : FloatLibrary) (itemType : VariantType)
    (itemCount : Nat) (jsonSnippet : Text) (metadata : StoredMetadata) : Prop :=
  ∃ base, tweakMetadataCreate platform floats itemType itemCount jsonSnippet = some base ∧
    Kept base metadata

/-! ## Each field -/

private theorem KeptOption.shown_copy {option : MetadataOption} {stored : StoredOption}
    (h : KeptOption option stored) (lib₁ lib₂ lib₃ lib₄ : CLibrary) :
    shownString (metadataOptionCopy lib₃ lib₄ (metadataOptionCopy lib₁ lib₂ stored)).text =
        shownString stored.text ∧
      shownVariant (metadataOptionCopy lib₃ lib₄ (metadataOptionCopy lib₁ lib₂ stored)).value =
        shownVariant stored.value := by
  constructor
  · exact ((h.text.copy lib₁).shownString_copy lib₃).trans (h.text.shownString_copy lib₁)
  · exact ((h.value.copy lib₂).shownVariant_copy lib₄).trans (h.value.shownVariant_copy lib₂)

theorem exists_keptOption {options : List MetadataOption} {stored : List StoredOption}
    (h : List.Forall₂ KeptOption options stored) :
    ∀ option ∈ stored, ∃ base, KeptOption base option := by
  induction h with
  | nil => exact List.forall_mem_nil _
  | cons hkept _ ih => exact List.forall_mem_cons.mpr ⟨⟨_, hkept⟩, ih⟩

/-- Option by option. -/
theorem shownOption_cloneOptions (libs : Nat → CLibrary) {options : List MetadataOption}
    {stored : List StoredOption} (h : List.Forall₂ KeptOption options stored) (index : Nat) :
    shownOption (cloneOptions libs ⟨some stored⟩) index = shownOption ⟨some stored⟩ index := by
  simp only [shownOption, cloneOptions, StoredOptions.tweakMetadataGetEnumSize,
    StoredOptions.tweakMetadataGetEnumText, StoredOptions.tweakMetadataGetEnumValue, Option.map_some,
    List.length_mapIdx, List.getElem?_mapIdx, Option.map_map]
  cases hoption : stored[index]? with
  | none => rfl
  | some option =>
    obtain ⟨base, hkept⟩ := exists_keptOption h option (List.mem_of_getElem? hoption)
    obtain ⟨htext, hvalue⟩ := hkept.shown_copy (libs (4 * index)) (libs (4 * index + 1))
      (libs (4 * index + 2)) (libs (4 * index + 3))
    simp only [Option.map_some, Function.comp_apply, htext, hvalue]

/-- The copy, field by field. -/
theorem tweakMetadataCopy_eq (libs : Nat → CLibrary) (memory metadata : StoredMetadata) :
    tweakMetadataCopy libs memory metadata =
      { controlType := metadata.controlType
        min := tweakVariantCopy (libs 0) metadata.min
        max := tweakVariantCopy (libs 1) metadata.max
        readonly := metadata.readonly
        decimals := memory.decimals
        step := tweakVariantCopy (libs 2) metadata.step
        caption := tweakVariantStringCopy (libs 3) metadata.caption
        unit := tweakVariantStringCopy (libs 4) metadata.unit
        optionsPresent := metadata.optionsPresent
        options :=
          if metadata.optionsPresent then cloneOptions (fun n => libs (n + 5)) metadata.options
          else ⟨none⟩
        layoutPresent := metadata.layoutPresent
        layout := if metadata.layoutPresent then cloneLayout metadata.layout else ⟨.rowMajor, none⟩ } := by
  obtain ⟨_, _, _, _, _, _, _, _, optionsPresent, _, layoutPresent, _⟩ := metadata
  cases optionsPresent <;> cases layoutPresent <;> rfl

/-- The copy shows what the original does, but for the decimals, which it has from new memory. -/
theorem tweakMetadataCopy_iff (platform : Json.Platform) (floats : FloatLibrary)
    (itemType : VariantType) (itemCount : Nat) (jsonSnippet : Text) {metadata : StoredMetadata}
    (h : Created platform floats itemType itemCount jsonSnippet metadata) (libs : Nat → CLibrary)
    (memory : StoredMetadata) :
    SameGetters (tweakMetadataCopy libs memory metadata) metadata ↔
      memory.decimals = metadata.decimals := by
  obtain ⟨base, -, hkept⟩ := h
  obtain ⟨-, hmin, hmax, -, -, hstep, hcaption, hunit, hoptions, hlayout⟩ := hkept
  obtain ⟨controlType, min, max, readonly, decimals, step, caption, unit, optionsPresent, options,
    layoutPresent, layout⟩ := metadata
  rw [tweakMetadataCopy_eq]
  constructor
  · intro hsame
    exact hsame.decimals
  · intro hdecimals
    refine ⟨rfl, hmin.shownVariant_copy _, hmax.shownVariant_copy _, rfl, hdecimals,
      hstep.shownVariant_copy _, hcaption.shownString_copy _, hunit.shownString_copy _, ?_, ?_⟩
    -- what is absent was never set in either of them, and is not looked at
    · intro index
      generalize base.options = baseOptions at hoptions
      cases hoptions with
      | absent => rfl
      | present hstored =>
        simp only [StoredMetadata.tweakMetadataGetOptions, if_true, Option.map_some,
          shownOption_cloneOptions _ hstored index]
    · intro dimension
      generalize base.layout = baseLayout at hlayout
      cases hlayout <;> rfl

/-- Metadata of a number with a slider and four decimals, as they are in memory. -/
def sliderMetadata : StoredMetadata where
  controlType := .slider
  min := .num .float (numDefaults .unused .float).min
  max := .num .float (numDefaults .unused .float).max
  readonly := false
  decimals := 4
  step := .num .float (numDefaults .unused .float).step
  caption := .empty
  unit := .empty
  optionsPresent := false
  options := ⟨none⟩
  layoutPresent := false
  layout := ⟨.rowMajor, none⟩

private theorem created_sliderMetadata :
    Created ⟨true, fun _ => []⟩ .unused (.num .float) 1 [] sliderMetadata := by
  have hempty : KeptString [] .empty := ⟨.empty, rfl, .assigned Strings.zeroLibrary none (by decide)⟩
  exact ⟨fillWithDefaultsNum .unused .float, rfl, rfl, .num _ _, .num _ _, rfl, rfl, .num _ _, hempty,
    hempty, .absent _, .absent _⟩

/-- A matrix with named values. -/
def choiceText : Text :=
  text "\x7b\"layout\": \x7b\"dimensions\": [2, 3]\x7d, \"caption\": \"gain matrix\", \"options\": [\"off\", \"on\"]\x7d"

def assignedString (t : Text) : VariantString :=
  tweakAssignString Strings.zeroLibrary .empty (cText (t ++ [0]))

/-- An assigned string is kept. -/
theorem keptString_assignedString {t : Text} {s : CString} (hs : cText (t ++ [0]) = some s)
    (hsize : (s.val.length + 1) * 3 < sizeModulus) : KeptString t (assignedString t) := by
  rw [assignedString, hs]
  exact ⟨s, hs, .assigned Strings.zeroLibrary (some s) hsize⟩

/-- The metadata that the text gives, as they are in memory. -/
def choiceMetadata : StoredMetadata where
  controlType := .combobox
  min := .null
  max := .null
  readonly := false
  decimals := 0
  step := .null
  caption := assignedString (text "gain matrix")
  unit := assignedString []
  optionsPresent := true
  options := ⟨some [⟨assignedString (text "off"), .num .sint8 0⟩,
    ⟨assignedString (text "on"), .num .sint8 1⟩]⟩
  layoutPresent := true
  layout := ⟨.rowMajor, some [2, 3]⟩

private theorem created_choiceMetadata :
    Created ⟨true, fun _ => []⟩ .unused (.vector .sint8) 6 choiceText choiceMetadata := by
  refine ⟨⟨.combobox, .null, .null, false, 0, .null, text "gain matrix", [],
    some [⟨text "off", .num .sint8 0⟩, ⟨text "on", .num .sint8 1⟩], some ⟨.rowMajor, [2, 3]⟩⟩,
    by decide +kernel, rfl, .null, .null, rfl, rfl, .null, ?_, ?_, .present ?_,
    .present ⟨.rowMajor, [2, 3]⟩⟩
  · exact keptString_assignedString rfl (by decide)
  · exact keptString_assignedString rfl (by decide)
  · exact .cons ⟨keptString_assignedString rfl (by decide), .num .sint8 0⟩
      (.cons ⟨keptString_assignedString rfl (by decide), .num .sint8 1⟩ .nil)

/-- Texts, options and layout, copied into memory that held something else. -/
theorem tweakMetadataCopy_choiceMetadata :
    SameGetters (tweakMetadataCopy (fun _ => Strings.zeroLibrary)
      { sliderMetadata with decimals := 0 } choiceMetadata) choiceMetadata :=
  (tweakMetadataCopy_iff _ _ _ _ _ created_choiceMetadata _ { sliderMetadata with decimals := 0 }).mpr
    rfl

/-- In cleared memory the copy has no decimals. -/
theorem not_sameGetters_sliderMetadata :
    Created ⟨true, fun _ => []⟩ .unused (.num .float) 1 [] sliderMetadata ∧
      ¬ SameGetters (tweakMetadataCopy (fun _ => Strings.zeroLibrary)
        { sliderMetadata with decimals := 0 } sliderMetadata) sliderMetadata := by
  refine ⟨created_sliderMetadata, fun h => ?_⟩
  exact absurd h.decimals (by decide)

end TweakTool.Metadata
