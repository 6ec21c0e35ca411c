import Mathlib.Algebra.BigOperators.Group.List.Basic
import TweakTool.Metadata.Create

/-! # The layout of vectors

A vector is shown as a table, and the layout of its metadata says how its elements are arranged
there. Programs rely on it: the command line client computes the index of an element from the
dimensions. The document that overrides the defaults can take the layout away or put a wrong one in
its place. -/

namespace TweakTool.Metadata

open TweakTool.Lib TweakTool.Json
open TweakTool.Common (FloatLibrary sizeModulus)

def isVector : VariantType → Bool
  | .vector _ => true
  | _ => false

/-- The layout arranges exactly `itemCount` elements. -/
structure Layout.Covers (layout : Layout) (itemCount : Nat) : Prop where
  nonempty : 1 ≤ tweakMetadataLayoutGetNumberOfDimensions layout
  product : layout.dimensions.prod = itemCount

/-- What the header promises of `tweak_metadata_get_layout`, and what makes the layout usable. -/
structure Lawful (itemType : VariantType) (itemCount : Nat) (layout : Option Layout) : Prop where
  present : layout.isSome ↔ isVector itemType
  covers : ∀ l, layout = some l → l.Covers itemCount

/-! ## What the document asks for -/

def defaultControl : VariantType → ControlType
  | .null => .unspecified
  | .bool => .checkbox
  | .num t => numControl t
  | .string => .editbox
  | .vector _ => .table

/-- The type of the values of options: that of the elements for a vector. -/
def optionType : VariantType → VariantType
  | .vector t => .num t
  | t => t

/-- The options of the document, if it has options that can be parsed. -/
def requestedOptions (platform : Platform) (floats : FloatLibrary) (itemType : VariantType)
    (document : Node) : Option (List MetadataOption) :=
  let optionsNode := tweakJsonGetObjectField (some document) (text "options") typeArray
  if tweakJsonGetType optionsNode = typeArray then
    parseOptionsArray platform floats optionsNode (optionType itemType)
  else none

/-- The control the document names; without a known name a combobox if it has options, otherwise the
default. -/
def requestedControl (platform : Platform) (floats : FloatLibrary) (itemType : VariantType)
    (document : Node) : ControlType :=
  parseControlType (tweakJsonGetObjectField (some document) (text "control") typeString)
    (if (requestedOptions platform floats itemType document).isSome then .combobox
      else defaultControl itemType)

/-- The controls for an item that is no vector. -/
def controls : VariantType → List ControlType
  | .bool => [.button, .checkbox, .spinbox, .combobox]
  | .num t => if t.isInteger then [.spinbox, .slider, .combobox] else [.slider, .spinbox]
  | .string => [.editbox]
  | _ => []

/-- The layout the document asks for is right for the item or is refused. Only a document for a
table, with a layout that does not have the right product in `size_t`, is refused for a vector; and
only the control of a document is looked at for other items. -/
def Fitting (itemType : VariantType) (itemCount : Nat) (control : ControlType) :
    Option Layout → Prop
  | none => isVector itemType → control = .table
  | some layout =>
    if isVector itemType then
      layout.Covers itemCount ∨
        control = .table ∧ layout.dimensions.prod % sizeModulus ≠ itemCount
    else control ∉ controls itemType

variable {platform : Platform} {floats : FloatLibrary} {itemType : VariantType} {itemCount : Nat}
  {metadata : MetadataBase} {document : Node}

/-! ## The defaults -/

theorem isSome_fillWithDefaults (floats : FloatLibrary) (itemType : VariantType) (itemCount : Nat) :
    (fillWithDefaults floats itemType itemCount).isSome ↔ itemType ≠ .null := by
  cases itemType <;> simp [fillWithDefaults]

theorem fillWithDefaults_controlType (h : fillWithDefaults floats itemType itemCount = some metadata) :
    metadata.controlType = defaultControl itemType := by
  cases itemType <;> cases h <;> rfl

theorem fillWithDefaults_min (h : fillWithDefaults floats itemType itemCount = some metadata) :
    metadata.min.type = optionType itemType := by
  cases itemType <;> cases h <;> rfl

/-- By default a vector has one dimension. -/
theorem lawful_fillWithDefaults (h : fillWithDefaults floats itemType itemCount = some metadata) :
    Lawful itemType itemCount metadata.layout := by
  cases itemType with
  | vector t =>
    cases h
    refine ⟨by simp [fillWithDefaultsVector, isVector], ?_⟩
    rintro l ⟨⟩
    exact ⟨Nat.le_refl 1, List.prod_singleton⟩
  | null => cases h
  | bool | num t | string =>
    cases h
    exact ⟨by simp [fillWithDefaultsBool, fillWithDefaultsNum, fillWithDefaultsString, isVector],
      by rintro l ⟨⟩⟩

/-! ## The user's settings -/

theorem userSettings_layout (metadata : MetadataBase) (document : Node) (layout : Option Layout) :
    (userSettings platform floats metadata document layout).layout = layout := by
  rw [userSettings]
  split <;> rfl

theorem userOptions_eq (h : fillWithDefaults floats itemType itemCount = some metadata) :
    userOptions platform floats metadata document =
      requestedOptions platform floats itemType document := by
  rw [userOptions, requestedOptions, fillWithDefaults_min h]

/-- The options are those of the document. -/
theorem userSettings_options (h : fillWithDefaults floats itemType itemCount = some metadata)
    (layout : Option Layout) :
    (userSettings platform floats metadata document layout).options =
      requestedOptions platform floats itemType document := by
  rw [← userOptions_eq h, userSettings]
  split <;> rfl

/-- The control is the one the document asks for. -/
theorem userSettings_controlType (h : fillWithDefaults floats itemType itemCount = some metadata)
    (layout : Option Layout) :
    (userSettings platform floats metadata document layout).controlType =
      requestedControl platform floats itemType document := by
  rw [requestedControl, ← userOptions_eq h, ← fillWithDefaults_controlType h, userSettings]
  split
  · next hsome =>
    have hsome : userOptions platform floats metadata document = some _ := hsome
    simp only [hsome]
    rfl
  · next hnone =>
    have hnone : userOptions platform floats metadata document = none := hnone
    simp only [hnone]
    rfl

/-- The loop wraps around at each step, which is as good as once at the end. -/
theorem product_eq (dimensions : List Nat) : product dimensions = dimensions.prod % sizeModulus := by
  have hloop : ∀ acc, dimensions.foldl (fun product d => product * d % sizeModulus)
      (acc % sizeModulus) = acc * dimensions.prod % sizeModulus := by
    induction dimensions with
    | nil => simp
    | cons d dimensions ih =>
      intro acc
      rw [List.foldl_cons, Nat.mod_mul_mod, ih, List.prod_cons, Nat.mul_assoc]
  rw [product, ← Nat.one_mul dimensions.prod, ← hloop]
  rfl

/-- For a scalar only the control is checked. -/
theorem validateMetadata_scalar (h : isVector itemType = false) (settings : MetadataBase) :
    validateMetadata itemType itemCount settings = true ↔
      settings.controlType ∈ controls itemType := by
  cases itemType with
  | vector t => cases h
  | null => simp [validateMetadata, controls]
  | bool =>
    rw [validateMetadata, validateMetadataBool, controls]
    cases settings.controlType <;> decide
  | string =>
    rw [validateMetadata, validateMetadataString, controls]
    cases settings.controlType <;> decide
  | num t =>
    rw [validateMetadata, controls]
    split
    · rw [validateMetadataInteger]
      cases settings.controlType <;> decide
    · rw [validateMetadataFloat]
      cases settings.controlType <;> decide

/-- For a table the layout is checked as well. -/
theorem validateMetadata_vector (h : isVector itemType = true) (settings : MetadataBase) :
    validateMetadata itemType itemCount settings = true ↔
      (settings.controlType = .table →
        ∃ layout, settings.layout = some layout ∧ layout.dimensions.prod % sizeModulus = itemCount) := by
  cases itemType with
  | null | bool | num t | string => cases h
  | vector t =>
    rw [validateMetadata, validateMetadataVector]
    by_cases hcontrol : settings.controlType = .table
    · rw [if_pos hcontrol]
      cases hlayout : settings.layout with
      | none => simp [hcontrol]
      | some layout =>
        rw [beq_iff_eq, product_eq, eq_comm]
        simp [hcontrol]
    · simp [hcontrol]

/-- Settings that are taken over are right exactly if their layout is. -/
theorem lawful_iff_fitting (settings : MetadataBase)
    (hvalid : validateMetadata itemType itemCount settings = true) :
    Lawful itemType itemCount settings.layout ↔
      Fitting itemType itemCount settings.controlType settings.layout := by
  cases hvector : isVector itemType with
  | false =>
    have hcontrol := (validateMetadata_scalar hvector settings).mp hvalid
    cases hlayout : settings.layout with
    | none => exact iff_of_true ⟨by simp [hvector], by rintro l ⟨⟩⟩ (by simp [Fitting, hvector])
    | some layout =>
      refine iff_of_false ?_ (by simp [Fitting, hvector, hcontrol])
      intro hlawful
      have hvector' := hlawful.present.mp rfl
      rw [hvector] at hvector'
      cases hvector'
  | true =>
    have htable := (validateMetadata_vector hvector settings).mp hvalid
    cases hlayout : settings.layout with
    | none =>
      refine iff_of_false ?_ ?_
      · intro hlawful
        cases hlawful.present.mpr hvector
      · intro hfitting -- a table without a layout is not valid
        obtain ⟨layout, hsome, -⟩ := htable (hfitting hvector)
        rw [hlayout] at hsome
        cases hsome
    | some layout =>
      simp only [Fitting, hvector, if_true]
      refine ⟨fun h => .inl (h.covers layout rfl), ?_⟩
      rintro (hcovers | ⟨hcontrol, hproduct⟩)
      · refine ⟨by simp [hvector], ?_⟩
        rintro l ⟨⟩
        exact hcovers
      · obtain ⟨l, hl, hequal⟩ := htable hcontrol
        rw [hlayout] at hl
        cases hl
        exact absurd hequal hproduct

/-- Settings that are refused do no harm. -/
theorem fitting_of_refused (settings : MetadataBase)
    (hinvalid : validateMetadata itemType itemCount settings = false) :
    Fitting itemType itemCount settings.controlType settings.layout := by
  rw [← Bool.not_eq_true] at hinvalid
  cases hvector : isVector itemType with
  | false =>
    rw [validateMetadata_scalar hvector] at hinvalid
    cases settings.layout with
    | none => simp [Fitting, hvector]
    | some layout => simpa [Fitting, hvector] using hinvalid
  | true =>
    rw [validateMetadata_vector hvector] at hinvalid
    obtain ⟨hcontrol, hlayout⟩ := Classical.not_imp.mp hinvalid
    cases hsettings : settings.layout with
    | none => exact fun _ => hcontrol
    | some layout =>
      simp only [Fitting, hvector, if_true]
      exact .inr ⟨hcontrol, fun hproduct => hlayout ⟨layout, hsettings, hproduct⟩⟩

/-- The resulting layout is lawful exactly if the one asked for is fitting. -/
theorem lawful_update (settings : MetadataBase) (hdefault : Lawful itemType itemCount metadata.layout) :
    Lawful itemType itemCount
        (if validateMetadata itemType itemCount settings then settings else metadata).layout ↔
      Fitting itemType itemCount settings.controlType settings.layout := by
  split
  · next hvalid => exact lawful_iff_fitting settings hvalid
  · next hinvalid => exact iff_of_true hdefault (fitting_of_refused settings (by simpa using hinvalid))

/-! ## The law -/

/-- Metadata is made, and its layout is as it should be, exactly if the item has a type and the
document, where there is one, can be parsed and asks for something fitting. -/
theorem tweakMetadataCreate_lawful_iff (platform : Platform) (floats : FloatLibrary)
    (itemType : VariantType) (itemCount : Nat) (jsonSnippet : Text) :
    (∃ metadata, tweakMetadataCreate platform floats itemType itemCount jsonSnippet = some metadata ∧
      Lawful itemType itemCount (tweakMetadataGetLayout metadata)) ↔
    itemType ≠ .null ∧ ∀ document, tweakJsonParse platform jsonSnippet = some document →
      ∃ layout, userLayout document = .ok layout ∧
        Fitting itemType itemCount (requestedControl platform floats itemType document) layout := by
  rw [tweakMetadataCreate, ← isSome_fillWithDefaults floats itemType itemCount]
  cases hfill : fillWithDefaults floats itemType itemCount with
  | none => simp
  | some defaults =>
    have hdefault := lawful_fillWithDefaults hfill
    cases tweakJsonParse platform jsonSnippet with
    | none => simpa [tweakMetadataGetLayout] using hdefault
    | some document =>
      simp only [updateWithCustomUserSettings]
      cases hlayout : userLayout document with
      | error failure => simp [bind, Except.bind, Except.toOption, hlayout]
      | ok layout =>
        have hupdate := lawful_update (userSettings platform floats defaults document layout) hdefault
        rw [userSettings_controlType hfill, userSettings_layout] at hupdate
        simpa [bind, Except.bind, Except.toOption, pure, Except.pure, tweakMetadataGetLayout, hlayout]
          using hupdate

/-- A vector that is to be shown with a slider has no layout. -/
theorem not_lawful_slider :
    ∃ metadata, tweakMetadataCreate ⟨true, fun _ => []⟩ .unused (.vector .sint32) 2
        (text "\x7b\"control\": \"slider\"\x7d") = some metadata ∧
      ¬ Lawful (.vector .sint32) 2 (tweakMetadataGetLayout metadata) := by
  refine ⟨_, rfl, ?_⟩
  intro hlawful
  have hsome := hlawful.present.mpr rfl
  revert hsome
  decide

end TweakTool.Metadata
