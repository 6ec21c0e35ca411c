import TweakTool.Common.Contract
import TweakTool.Metadata.Safety

/-! # Metadata for the editors

An editor takes the limits, the step and the options of an item from its metadata and expects them
to have the type of the item, and it has a widget for the controls of the documentation only. The
defaults are made for that. A document can break it where a conversion ends without a value, and
where the control is not looked at. -/

namespace TweakTool.Metadata

open TweakTool.Lib TweakTool.Json
open TweakTool.Common (FloatLibrary tweakVariantFromString sizeModulus Lost)

/-! ## What an editor expects -/

/-- The table "Editor availability for each respective data flavour". -/
def permitted : VariantType → List ControlType
  | .null => []
  | .bool => [.checkbox, .spinbox, .combobox, .button]
  | .num t =>
    if t.isInteger then [.spinbox, .slider, .combobox, .editbox] else [.spinbox, .slider, .editbox]
  | .string => [.editbox]
  | .vector _ => [.table]

/-- The limits and the step are numbers for the item, or there are options instead. -/
def Typed (type : VariantType) (metadata : MetadataBase) : Prop :=
  match metadata.options with
  | none => metadata.min.type = type ∧ metadata.max.type = type ∧ metadata.step.type = type
  | some options =>
    metadata.min.type = .null ∧ metadata.max.type = .null ∧ metadata.step.type = .null ∧
      ∀ option ∈ options, option.value.type = type

structure WellTyped (itemType : VariantType) (metadata : MetadataBase) : Prop where
  typed : Typed (optionType itemType) metadata
  permitted : metadata.controlType ∈ permitted itemType
  combobox : metadata.controlType = .combobox → metadata.options.isSome

/-! ## What the document may ask for -/

/-- The conversion ends without a value. -/
def LostText (floats : FloatLibrary) (type : VariantType) (s : Text) : Prop :=
  ∃ t, type = .num t ∧ Lost floats t s

/-- The document has a number in the field, which is lost in the conversion. -/
def LostField (floats : FloatLibrary) (type : VariantType) (document : Node) (name : String) :
    Prop :=
  ∃ node, tweakJsonGetObjectField (some document) (text name) typeNumber = some node ∧
    LostText floats type (cStr node)

/-- The element of the list of options has a value, which is lost in the conversion. -/
def LostOption (floats : FloatLibrary) (type : VariantType) (item : Node) : Prop :=
  ∃ node, tweakJsonGetObjectField (some item) (text "value") (typeNumber ||| typeBool) = some node ∧
    LostText floats type (cStr node)

/-- The settings with a control and a layout are taken over. -/
def Accepts (itemType : VariantType) (itemCount : Nat) (control : ControlType)
    (layout : Option Layout) : Prop :=
  if isVector itemType then
    control = .table → ∃ l, layout = some l ∧ l.dimensions.prod % sizeModulus = itemCount
  else control ∈ controls itemType

/-- The document asks for something that an editor can deal with. -/
structure Usable (floats : FloatLibrary) (itemType : VariantType) (document : Node)
    (control : ControlType) (options : Option (List MetadataOption)) : Prop where
  table : isVector itemType → control = .table
  combobox : control = .combobox → options.isSome
  fields : options = none →
    ∀ name ∈ ["min", "max", "step"], ¬ LostField floats (optionType itemType) document name
  values : options.isSome →
    ∀ items, tweakJsonGetObjectField (some document) (text "options") typeArray =
        some (.array items) →
      ∀ item ∈ items, ¬ LostOption floats (optionType itemType) item

variable {platform : Platform} {floats : FloatLibrary} {itemType : VariantType} {itemCount : Nat}
  {metadata : MetadataBase} {document : Node}

/-! ## Conversions -/

/-- The types of numbers and options. -/
def IsScalar : VariantType → Prop
  | .null | .vector _ => False
  | _ => True

private theorem isScalar_optionType (h : itemType ≠ .null) : IsScalar (optionType itemType) := by
  cases itemType with
  | null => exact absurd rfl h
  | bool | num t | string | vector t => trivial

variable {type : VariantType} {s : Text} {out : Variant}

/-- A conversion that is not refused gives a value of the type, or nothing. -/
theorem type_tweakVariantFromString (htype : IsScalar type) {result : Common.ConversionResult}
    (hresult : result ≠ .fail) (h : tweakVariantFromString platform floats s type = (result, out)) :
    out.type = type ∧ ¬ LostText floats type s ∨ out.type = .null ∧ LostText floats type s := by
  cases type with
  | null | vector t => cases htype
  | bool =>
    refine .inl ⟨?_, by rintro ⟨_, ⟨⟩, _⟩⟩
    rw [tweakVariantFromString, Common.parseBool] at h
    split at h
    · cases h
      rfl
    · split at h
      · cases h
        rfl
      · cases h
        exact absurd rfl hresult
  | string =>
    refine .inl ⟨?_, by rintro ⟨_, ⟨⟩, _⟩⟩
    rw [tweakVariantFromString, Common.parseString] at h
    split at h <;> cases h <;> rfl
  | num t =>
    have hends := Common.ends_parseScalar floats t s
    rw [show Common.parseScalar floats t s = (result, out) from h] at hends
    cases hends with
    | failed => exact absurd rfl hresult
    | lost hlost => exact .inr ⟨rfl, t, rfl, hlost⟩
    | converted item _ hlost _ =>
      refine .inl ⟨rfl, ?_⟩
      rintro ⟨_, ⟨⟩, h⟩
      exact hlost h

theorem not_lostText_of_fail (h : tweakVariantFromString platform floats s type = (.fail, out)) :
    ¬ LostText floats type s := by
  rintro ⟨t, rfl, hlost⟩
  have hends := Common.ends_parseScalar floats t s
  rw [show Common.parseScalar floats t s = (.fail, out) from h] at hends
  cases hends with
  | failed hinteger hnumber => exact hnumber hlost.2.2
  | converted item hne _ _ => exact hne rfl

/-- A setting that is fetched as a number has the type of its default unless it is lost. -/
theorem type_parseVariant {defVal : Variant} (htype : IsScalar defVal.type) (name : String) :
    (parseVariant platform floats
        (tweakJsonGetObjectField (some document) (text name) typeNumber) defVal).type =
      defVal.type ↔ ¬ LostField floats defVal.type document name := by
  cases hnode : tweakJsonGetObjectField (some document) (text name) typeNumber with
  | none => exact iff_of_true rfl fun ⟨_, hnode', _⟩ => by rw [hnode] at hnode'; cases hnode'
  | some node =>
    have hlost : LostField floats defVal.type document name ↔
        LostText floats defVal.type (cStr (some node)) := by
      simp only [LostField, hnode, Option.some.injEq, exists_eq_left']
    have hvalue : tweakJsonGetType (some node) &&& typeValue ≠ 0 :=
      typeValue_of_mask (by decide) (type_of_getObjectField hnode)
    rw [hlost, parseVariant, if_pos hvalue]
    rcases hconversion : tweakVariantFromString platform floats (cStr (some node)) defVal.type with
      ⟨result, tmp⟩
    cases result with
    | fail => exact iff_of_true rfl (not_lostText_of_fail hconversion)
    | success | truncated =>
      rcases type_tweakVariantFromString htype (by decide) hconversion with ⟨htmp, hnot⟩ | ⟨htmp, hlost⟩
      · exact iff_of_true htmp hnot
      · refine iff_of_false ?_ (not_not_intro hlost)
        intro heq
        rw [← heq, show VariantOf.type tmp = .null from htmp] at htype
        exact htype

/-! ## Options -/

/-- A round adds an option. Its value, which the variable then has, is of the type or lost. -/
theorem parseElement_spec {node : Node} {state state' : OptionsState}
    (h : parseElement platform floats (masked node (typeString ||| typeObject)) state = some state')
    (htype : IsScalar state.2.type) :
    ∃ option, state' = (state.1 ++ [option], option.value) ∧
      (option.value.type = state.2.type ∧ ¬ LostOption floats state.2.type node ∨
        option.value.type = .null ∧ LostOption floats state.2.type node) := by
  cases node with
  | null | bool data | number data | array items =>
    simp [parseElement, masked, Node.type, typeString, typeObject, tweakJsonGetType] at h
  | string t =>
    rw [masked_string t (by decide)] at h
    cases h
    exact ⟨_, rfl, .inl ⟨rfl, by rintro ⟨_, ⟨⟩, _⟩⟩⟩
  | object fields =>
    rw [masked_object fields (by decide)] at h
    have h : parseOptionsArrayOptionNode platform floats state (some (.object fields)) =
      some state' := h
    rw [parseOptionsArrayOptionNode] at h
    split at h
    · next textNode valueNode htext hvalue =>
      have hlost : LostOption floats state.2.type (.object fields) ↔
          LostText floats state.2.type (cStr (some valueNode)) := by
        simp only [LostOption, hvalue, Option.some.injEq, exists_eq_left']
      rw [hlost]
      rcases hconversion : tweakVariantFromString platform floats (cStr (some valueNode))
        state.2.type with ⟨result, tmp⟩
      rw [hconversion] at h
      cases result with
      | fail => cases h
      | success | truncated =>
        cases h
        exact ⟨_, rfl, type_tweakVariantFromString htype (by decide) hconversion⟩
    · cases h

/-- The loop from some element on. The variable has the type until a value is lost, and then there
is no next one. -/
theorem foldlM_typed (htype : IsScalar type) (items : List Node) :
    ∀ (done : List Node) (state final : OptionsState),
      (done = [] → state.2.type = type) → (state.2.type = type ∨ state.2.type = .null) →
      (List.range' done.length items.length).foldlM
        (parseOptionsArrayItem platform floats (some (.array (done ++ items)))) state = some final →
      ((∀ option ∈ final.1, option.value.type = type) ↔
        (∀ option ∈ state.1, option.value.type = type) ∧
          ∀ item ∈ items, ¬ LostOption floats type item) := by
  induction items with
  | nil =>
    rintro done state final - - ⟨⟩
    simp
  | cons item items ih =>
    intro done state final hfirst hstate h
    have hitem : tweakJsonGetArrayItem (some (.array (done ++ item :: items))) done.length
        (typeString ||| typeObject) = masked item (typeString ||| typeObject) := by
      rw [tweakJsonGetArrayItem, List.getElem?_append_right (Nat.le_refl _), Nat.sub_self]
      rfl
    rw [List.length_cons, List.range'_succ, List.foldlM_cons, parseOptionsArrayItem_eq, hitem] at h
    obtain ⟨next, hnext, h⟩ := Option.bind_eq_some_iff.mp h
    obtain ⟨defaultValue, hdefault, hnext⟩ := Option.bind_eq_some_iff.mp hnext
    obtain ⟨hsame, hnull⟩ := type_nextDefault hdefault
    have hdefaultType : defaultValue.type = type := by
      rw [hsame]
      cases done with
      | nil => exact hfirst rfl
      | cons node done => exact hstate.resolve_right (hnull (by simp))
    obtain ⟨option, rfl, hoption⟩ := parseElement_spec hnext (hdefaultType ▸ htype)
    simp only [hdefaultType] at hoption
    have hrest := ih (done ++ [item]) (state.1 ++ [option], option.value) final (by simp)
      (hoption.imp And.left And.left) (by
        rw [List.length_append, List.length_singleton, List.append_assoc, List.singleton_append]
        exact h)
    have hvalue : option.value.type = type ↔ ¬ LostOption floats type item := by
      rcases hoption with ⟨hsame, hnot⟩ | ⟨hnull, hlost⟩
      · exact iff_of_true hsame hnot
      · refine iff_of_false (fun heq => ?_) (not_not_intro hlost)
        rw [← heq, hnull] at htype
        exact htype
    rw [hrest, List.forall_mem_cons, ← hvalue, ← and_assoc, List.forall_mem_append,
      List.forall_mem_singleton]

private theorem parseOptionsArray_typed (htype : IsScalar type) {items : List Node}
    {options : List MetadataOption}
    (h : parseOptionsArray platform floats (some (.array items)) type = some options) :
    (∀ option ∈ options, option.value.type = type) ↔
      ∀ item ∈ items, ¬ LostOption floats type item := by
  obtain ⟨final, hfinal, rfl⟩ := Option.map_eq_some_iff.mp h
  rw [List.range_eq_range'] at hfinal
  have hloop := foldlM_typed htype items [] ([], zeroVariant type) final
    (fun _ => type_zeroVariant type) (.inl (type_zeroVariant type)) hfinal
  simpa using hloop

/-! ## Metadata -/

private theorem wellTyped_fillWithDefaults
    (h : fillWithDefaults floats itemType itemCount = some metadata) :
    WellTyped itemType metadata := by
  refine ⟨?_, ?_, ?_⟩
  · cases itemType <;> cases h <;> exact ⟨rfl, rfl, rfl⟩
  · rw [fillWithDefaults_controlType h]
    cases itemType with
    | num t => cases t <;> decide
    | null => cases h
    | bool | string | vector t => exact List.mem_cons_self
  · rw [fillWithDefaults_controlType h]
    cases itemType with
    | num t => cases t <;> exact nofun
    | null | bool | string | vector t => exact nofun

/-- What is checked of the settings. -/
theorem validateMetadata_iff (itemType : VariantType) (itemCount : Nat) (settings : MetadataBase) :
    validateMetadata itemType itemCount settings = true ↔
      Accepts itemType itemCount settings.controlType settings.layout := by
  rw [Accepts]
  split
  · next hvector => exact validateMetadata_vector hvector settings
  · next hscalar => exact validateMetadata_scalar (by simpa using hscalar) settings

private theorem controls_subset_permitted (itemType : VariantType) :
    ∀ control ∈ controls itemType, control ∈ permitted itemType := by
  cases itemType with
  | num t => cases t <;> decide
  | null | bool | string => decide
  | vector t => exact nofun

variable {layout : Option Layout}

/-- Of the settings that are taken over, only a vector's have a control that is not permitted. -/
theorem mem_permitted_iff {control : ControlType} (h : Accepts itemType itemCount control layout) :
    control ∈ permitted itemType ↔ (isVector itemType → control = .table) := by
  rw [Accepts] at h
  cases itemType with
  | vector t => simp [permitted, isVector]
  | null | bool | num t | string =>
    exact iff_of_true (controls_subset_permitted _ _ h) (by rintro ⟨⟩)

private theorem typed_userSettings (h : fillWithDefaults floats itemType itemCount = some metadata)
    (layout : Option Layout) :
    Typed (optionType itemType) (userSettings platform floats metadata document layout) ↔
      (requestedOptions platform floats itemType document = none →
        ∀ name ∈ ["min", "max", "step"], ¬ LostField floats (optionType itemType) document name) ∧
      ((requestedOptions platform floats itemType document).isSome →
        ∀ items, tweakJsonGetObjectField (some document) (text "options") typeArray =
            some (.array items) →
          ∀ item ∈ items, ¬ LostOption floats (optionType itemType) item) := by
  have hscalar : IsScalar (optionType itemType) := isScalar_optionType
    ((isSome_fillWithDefaults floats itemType itemCount).mp (by rw [h]; rfl))
  obtain ⟨hmin, hmax, hstep⟩ := fillWithDefaults_types h
  rw [Typed, userSettings_options h]
  cases hoptions : requestedOptions platform floats itemType document with
  | none => -- the limits and the step are read
    rw [← userOptions_eq h] at hoptions
    have htype : ∀ (defVal : Variant) (name : String), defVal.type = optionType itemType →
        ((parseVariant platform floats
          (tweakJsonGetObjectField (some document) (text name) typeNumber) defVal).type =
            optionType itemType ↔ ¬ LostField floats (optionType itemType) document name) := by
      intro defVal name hdefVal
      rw [← hdefVal]
      exact type_parseVariant (hdefVal ▸ hscalar) name
    simp only [userSettings, hoptions, mergeMetadataDefault, mergeMetadataCommon,
      htype _ _ hmin, htype _ _ hmax, htype _ _ hstep]
    simp
  | some options => -- the options take their place
    have huser : userOptions platform floats metadata document = some options :=
      (userOptions_eq h).trans hoptions
    rw [requestedOptions] at hoptions
    split at hoptions
    · next harray =>
      cases hnode : tweakJsonGetObjectField (some document) (text "options") typeArray with
      | none =>
        rw [hnode] at harray
        cases harray
      | some node =>
        obtain ⟨items, rfl⟩ := isArray_of_typeArray (type_of_getObjectField hnode)
        rw [hnode] at hoptions
        simp only [userSettings, huser, mergeMetadataOptionsMapPresent, mergeMetadataCommon]
        rw [parseOptionsArray_typed hscalar hoptions]
        simp [VariantOf.type]
    · cases hoptions

/-- Settings that are accepted have the types of the item. -/
theorem wellTyped_userSettings (h : fillWithDefaults floats itemType itemCount = some metadata)
    (haccepts : Accepts itemType itemCount (requestedControl platform floats itemType document)
      layout) :
    WellTyped itemType (userSettings platform floats metadata document layout) ↔
      Usable floats itemType document (requestedControl platform floats itemType document)
        (requestedOptions platform floats itemType document) := by
  have hcontrol : (userSettings platform floats metadata document layout).controlType = _ :=
    userSettings_controlType h layout
  have hoptions : (userSettings platform floats metadata document layout).options = _ :=
    userSettings_options h layout
  constructor
  · rintro ⟨htyped, hpermitted, hcombobox⟩
    rw [hcontrol] at hpermitted hcombobox
    rw [hoptions] at hcombobox
    obtain ⟨hfields, hvalues⟩ := (typed_userSettings h layout).mp htyped
    exact ⟨(mem_permitted_iff haccepts).mp hpermitted, hcombobox, hfields, hvalues⟩
  · rintro ⟨htable, hcombobox, hfields, hvalues⟩
    refine ⟨(typed_userSettings h layout).mpr ⟨hfields, hvalues⟩, ?_, ?_⟩
    · rw [hcontrol]
      exact (mem_permitted_iff haccepts).mpr htable
    · rw [hcontrol, hoptions]
      exact hcombobox

/-- Metadata is well typed exactly if the document, where it is taken over, asks for something that
an editor can deal with. -/
theorem tweakMetadataCreate_wellTyped_iff (platform : Platform) (floats : FloatLibrary)
    (itemType : VariantType) (itemCount : Nat) (jsonSnippet : Text) :
    (∀ metadata, tweakMetadataCreate platform floats itemType itemCount jsonSnippet =
        some metadata → WellTyped itemType metadata) ↔
    (itemType ≠ .null → ∀ document, tweakJsonParse platform jsonSnippet = some document →
      ∀ layout, userLayout document = .ok layout →
      Accepts itemType itemCount (requestedControl platform floats itemType document) layout →
      Usable floats itemType document (requestedControl platform floats itemType document)
        (requestedOptions platform floats itemType document)) := by
  rw [tweakMetadataCreate, ← isSome_fillWithDefaults floats itemType itemCount]
  cases hfill : fillWithDefaults floats itemType itemCount with
  | none => simp
  | some defaults =>
    have hdefault := wellTyped_fillWithDefaults hfill
    cases tweakJsonParse platform jsonSnippet with
    | none => simpa using hdefault
    | some document =>
      simp only [updateWithCustomUserSettings]
      cases hlayout : userLayout document with
      | error failure => simp [bind, Except.bind, Except.toOption, hlayout]
      | ok layout =>
        have hvalid := validateMetadata_iff itemType itemCount
          (userSettings platform floats defaults document layout)
        rw [userSettings_controlType hfill, userSettings_layout] at hvalid
        by_cases haccepts : Accepts itemType itemCount
            (requestedControl platform floats itemType document) layout
        · have hsettings := wellTyped_userSettings hfill haccepts
          simp [bind, Except.bind, Except.toOption, pure, Except.pure, hlayout,
            hvalid.mpr haccepts, hsettings, haccepts]
        · have hrefused := mt hvalid.mp haccepts
          simp [bind, Except.bind, Except.toOption, pure, Except.pure, hlayout, hrefused, haccepts,
            hdefault]

/-- Without options there is nothing to choose from in a combobox. -/
theorem not_wellTyped_combobox :
    ∃ metadata, tweakMetadataCreate ⟨true, fun _ => []⟩ .unused (.num .sint32) 1
        (text "\x7b\"control\": \"combobox\"\x7d") = some metadata ∧
      ¬ WellTyped (.num .sint32) metadata := by
  refine ⟨_, rfl, ?_⟩
  intro h
  exact absurd (h.combobox rfl) (by decide)

end TweakTool.Metadata
