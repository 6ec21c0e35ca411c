import TweakTool.Common.Clamp
import TweakTool.Metadata.Create

/-! # The options of an item

A document can list the values an item may take: a bare string is the label of the value that
follows the previous one, and an object has a label and a value of its own. The loop of
`parse_options_array` computes the value that follows before it looks at what kind of element comes
next, so it also stops where nobody needs that value. -/

namespace TweakTool.Metadata

open TweakTool.Lib TweakTool.Json
open TweakTool.Common (FloatLibrary tweakVariantFromString lowest highest InRange intOf numValue
  isSigned machineValue)

/-! ## Numbering

What the list of options means, with integers for the values. -/

inductive Element where
  | label (text : Text)
  | explicit (text : Text) (value : Int)

/-- The labels with their values. `next` is the value of a bare string at the start of the list; no
list has a value above `max`. -/
def numbered (max : Int) : (next : Int) → List Element → Option (List (Text × Int))
  | _, [] => some []
  | next, .label t :: elements =>
    if next ≤ max then (numbered max (next + 1) elements).map ((t, next) :: ·) else none
  | _, .explicit t z :: elements => (numbered max (z + 1) elements).map ((t, z) :: ·)

/-- No element with a value of its own comes after one that has the value `max`. -/
def Spaced (max : Int) : (next : Int) → List Element → Prop
  | _, [] => True
  | next, .label _ :: elements => Spaced max (next + 1) elements
  | next, .explicit _ z :: elements => next ≤ max ∧ Spaced max (z + 1) elements

/-- The numbering of the loop, which wants a value for every element. -/
def stepped (max : Int) : (next : Int) → List Element → Option (List (Text × Int))
  | _, [] => some []
  | next, .label t :: elements =>
    if next ≤ max then (stepped max (next + 1) elements).map ((t, next) :: ·) else none
  | next, .explicit t z :: elements =>
    if next ≤ max then (stepped max (z + 1) elements).map ((t, z) :: ·) else none

/-- The loop numbers the elements as it should. -/
theorem stepped_of_spaced {max : Int} (elements : List Element) :
    ∀ {next : Int}, Spaced max next elements →
      stepped max next elements = numbered max next elements := by
  induction elements with
  | nil => intro next _; rfl
  | cons element elements ih =>
    intro next h
    cases element with
    | label t => rw [stepped, numbered, ih h]
    | explicit t z => rw [stepped, numbered, if_pos h.1, ih h.2]

/-- The loop wants a value that the type does not have. -/
theorem stepped_of_not_spaced {max : Int} (elements : List Element) :
    ∀ {next : Int}, ¬ Spaced max next elements → stepped max next elements = none := by
  induction elements with
  | nil => exact fun h => absurd trivial h
  | cons element elements ih =>
    intro next h
    cases element with
    | label t =>
      rw [stepped, ih h]
      exact ite_self _
    | explicit t z =>
      rw [stepped]
      split
      · next hnext => rw [ih fun hrest => h ⟨hnext, hrest⟩, Option.map_none]
      · rfl

private theorem stepped_eq_numbered_iff (max next : Int) (elements : List Element) :
    stepped max next elements = numbered max next elements ↔
      numbered max next elements = none ∨ Spaced max next elements := by
  by_cases hspaced : Spaced max next elements
  · exact iff_of_true (stepped_of_spaced elements hspaced) (.inr hspaced)
  · rw [stepped_of_not_spaced elements hspaced, eq_comm]
    exact (or_iff_left hspaced).symm

/-! ## The document -/

/-- The types whose options are numbered. -/
def IsDiscrete : VariantType → Prop
  | .bool => True
  | .num t => t.isInteger
  | _ => False

def greatest : VariantType → Int
  | .num t => highest t
  | _ => 1

def optionValue : VariantType → Int → Variant
  | .bool, z => .bool (z ≠ 0)
  | .num t, z => .num t (BitVec.ofInt _ z)
  | _, _ => .null

/-- The node spells an integer that is a value of the type. -/
def Denotes : VariantType → Node → Int → Prop
  | .bool, node, z =>
    (node = .bool (text "true") ∨ node = .number (text "1")) ∧ z = 1 ∨
      (node = .bool (text "false") ∨ node = .number (text "0")) ∧ z = 0
  | .num t, node, z => InRange t z ∧ ∃ s negative n,
    node = .number s ∧ scanInteger s = some (negative, n, []) ∧ intOf negative n = z
  | _, _, _ => False

/-- The node is an element of a list of options. -/
inductive Reads (itemType : VariantType) : Node → Element → Prop where
  | label (t : Text) : Reads itemType (.string t) (.label t)
  | explicit {fields : List (Text × Node)} {t : Text} {value : Node} {z : Int}
      (htext : fields.lookup (text "text") = some (.string t))
      (hvalue : fields.lookup (text "value") = some value) (hz : Denotes itemType value z) :
      Reads itemType (.object fields) (.explicit t z)

/-- The options of the elements, with the values they should have. -/
def expectedOptions (itemType : VariantType) (elements : List Element) :
    Option (List MetadataOption) :=
  (numbered (greatest itemType) 0 elements).map
    (List.map fun (t, z) => ⟨t, optionValue itemType z⟩)

variable {platform : Platform} {floats : FloatLibrary} {itemType : VariantType}

/-! ## Values -/

/-- The integers that the values of the type stand for. -/
def Legal (itemType : VariantType) (z : Int) : Prop :=
  match itemType with
  | .num t => InRange t z
  | _ => 0 ≤ z ∧ z ≤ 1

variable {node : Node} {z : Int}

private theorem legal_of_denotes (h : Denotes itemType node z) : Legal itemType z := by
  cases itemType with
  | bool =>
    rcases h with ⟨-, rfl⟩ | ⟨-, rfl⟩
    · exact ⟨by decide, by decide⟩
    · exact ⟨by decide, by decide⟩
  | num t => exact h.1
  | null | string | vector t => cases h

variable {t : NumType}

/-- Within its range, an integer is what the C library reads. -/
theorem machineValue_of_inRange (ht : t.isInteger) {negative : Bool} {n : Nat}
    (h : InRange t (intOf negative n)) : machineValue t negative n = intOf negative n := by
  rw [InRange] at h
  cases hsigned : isSigned t with
  | true =>
    have hlimits := Common.limits_signed hsigned
    rw [Common.machineValue_signed hsigned]
    omega
  | false =>
    have hlimits := Common.limits_unsigned ht hsigned
    simp only [machineValue, hsigned, intOf, Bool.false_eq_true, if_false] at h ⊢
    cases negative with
    | false =>
      simp only [Bool.false_eq_true, if_false] at h ⊢
      rw [if_neg (by omega)]
    | true =>
      obtain rfl : n = 0 := by
        simp only [if_true] at h
        omega
      rfl

theorem tweakVariantFromString_of_denotes (hitem : IsDiscrete itemType)
    (h : Denotes itemType node z) :
    tweakVariantFromString platform floats (cStr (some node)) itemType =
      (.success, optionValue itemType z) := by
  cases itemType with
  | bool =>
    rcases h with ⟨rfl | rfl, rfl⟩ | ⟨rfl | rfl, rfl⟩ <;> rfl
  | num t =>
    obtain ⟨hrange, s, negative, n, rfl, hscan, rfl⟩ := h
    show Common.parseScalar floats t s = _
    rw [Common.parseScalar_of_scan floats hitem hscan, machineValue_of_inRange hitem hrange,
      Common.coerced_of_inRange hrange]
    rfl
  | null | string | vector t => cases hitem

theorem type_optionValue (hitem : IsDiscrete itemType) (z : Int) :
    (optionValue itemType z).type = itemType := by
  cases itemType with
  | bool | num t => rfl
  | null | string | vector t => cases hitem

theorem zeroVariant_eq (hitem : IsDiscrete itemType) :
    zeroVariant itemType = optionValue itemType 0 := by
  cases itemType with
  | bool => rfl
  | num t => cases t <;> rfl
  | null | string | vector t => cases hitem

private theorem hasSuccessor_iff (ht : t.isInteger) (bits : BitVec t.width) :
    hasSuccessor t bits = true ↔ numValue t bits + 1 ≤ highest t := by
  have hpow : ((2 ^ t.width : Nat) : Int) = 2 ^ t.width := by norm_cast
  cases t with
  | float | double => cases ht
  | sint8 | sint16 | sint32 | sint64 =>
    simp only [hasSuccessor, numValue, isSigned, highest, if_true, decide_eq_true_eq]
    exact Iff.rfl
  | uint8 | uint16 | uint32 | uint64 =>
    simp only [hasSuccessor, numValue, isSigned, highest, Bool.false_eq_true, if_false,
      decide_eq_true_eq]
    omega

/-- The next value is the next integer, up to the greatest. -/
theorem variantIncrement_optionValue (hitem : IsDiscrete itemType) (hz : Legal itemType z) :
    variantIncrement (optionValue itemType z) =
      if z + 1 ≤ greatest itemType then some (optionValue itemType (z + 1)) else none := by
  cases itemType with
  | bool =>
    obtain ⟨hlow, hhigh⟩ := hz
    obtain rfl | rfl : z = 0 ∨ z = 1 := by omega
    · rfl
    · rfl
  | num t =>
    have hvalue := Common.numValue_ofInt hitem hz
    simp only [optionValue, variantIncrement, greatest, hasSuccessor_iff hitem, hvalue]
    rw [show BitVec.ofInt t.width (z + 1) = BitVec.ofInt t.width z + 1 from BitVec.ofInt_add ..]
    rfl
  | null | string | vector t => cases hitem

/-! ## The loop -/

/-- The value for an element with the index, if there is one. -/
def nextDefault (defaultValue : Variant) (index : Nat) : Option Variant :=
  if index ≠ 0 then variantIncrement defaultValue else some defaultValue

/-- The rest of a round. -/
def parseElement (platform : Platform) (floats : FloatLibrary) (item : Option Node)
    (state : OptionsState) : Option OptionsState :=
  if tweakJsonGetType item = typeString then some (parseOptionsArrayStringNode state item)
  else if tweakJsonGetType item = typeObject then
    parseOptionsArrayOptionNode platform floats state item
  else none

/-- A round: the value for a label, then the element. -/
theorem parseOptionsArrayItem_eq (optionsNode : Option Node) (state : OptionsState) (index : Nat) :
    parseOptionsArrayItem platform floats optionsNode state index =
      (nextDefault state.2 index).bind fun defaultValue => parseElement platform floats
        (tweakJsonGetArrayItem optionsNode index (typeString ||| typeObject))
        (state.1, defaultValue) := by
  rw [parseOptionsArrayItem, nextDefault]
  split <;> rfl

/-- A label takes the value it finds, and an object leaves its own. -/
def Element.value (next : Int) : Element → Int
  | label _ => next
  | explicit _ z => z

def Element.text : Element → Text
  | label t | explicit t _ => t

private theorem stepped_cons (max next : Int) (element : Element) (elements : List Element) :
    stepped max next (element :: elements) =
      if next ≤ max then
        (stepped max (element.value next + 1) elements).map ((element.text, element.value next) :: ·)
      else none := by
  cases element <;> rfl

private theorem legal_value {element : Element} (h : Reads itemType node element) {next : Int}
    (hnext : Legal itemType next) : Legal itemType (element.value next) := by
  cases h with
  | label t => exact hnext
  | explicit htext hvalue hz => exact legal_of_denotes hz

private theorem parseElement_of_reads (hitem : IsDiscrete itemType) {element : Element}
    (h : Reads itemType node element) (options : List MetadataOption) (next : Int) :
    parseElement platform floats (masked node (typeString ||| typeObject))
        (options, optionValue itemType next) =
      some (options ++ [⟨element.text, optionValue itemType (element.value next)⟩],
        optionValue itemType (element.value next)) := by
  cases h with
  | label t =>
    rw [masked_string t (by decide)]
    rfl
  | @explicit fields t value z htext hvalue hz =>
    have htextNode : tweakJsonGetObjectField (some (.object fields)) (text "text") typeString =
        some (.string t) := by
      rw [tweakJsonGetObjectField, htext]
      exact masked_string t (by decide)
    have hvalueNode : tweakJsonGetObjectField (some (.object fields)) (text "value")
        (typeNumber ||| typeBool) = some value := by
      rw [tweakJsonGetObjectField, hvalue]
      cases itemType with
      | bool => rcases hz with ⟨rfl | rfl, rfl⟩ | ⟨rfl | rfl, rfl⟩ <;> rfl
      | num t =>
        obtain ⟨-, s, negative, n, rfl, -⟩ := hz
        exact masked_number s (by decide)
      | null | string | vector t => cases hitem
    rw [masked_object fields (by decide)]
    show parseOptionsArrayOptionNode platform floats _ (some (.object fields)) = _
    rw [parseOptionsArrayOptionNode, htextNode, hvalueNode]
    simp only [type_optionValue hitem, tweakVariantFromString_of_denotes hitem hz]
    rfl

/-- The loop from some element on. Before each round the variable has the previous value, and
`next` is what comes after it. -/
theorem foldlM_parseOptionsArrayItem (platform : Platform) (floats : FloatLibrary)
    {itemType : VariantType} (hitem : IsDiscrete itemType) {nodes : List Node}
    {elements : List Element} (hreads : List.Forall₂ (Reads itemType) nodes elements) :
    ∀ (done : List Node) (options : List MetadataOption) (defaultValue : Variant) (next : Int),
      (next ≤ greatest itemType → Legal itemType next) →
      nextDefault defaultValue done.length =
        (if next ≤ greatest itemType then some (optionValue itemType next) else none) →
      ((List.range' done.length nodes.length).foldlM
          (parseOptionsArrayItem platform floats (some (.array (done ++ nodes))))
          (options, defaultValue)).map (·.1) =
        (stepped (greatest itemType) next elements).map fun values =>
          options ++ values.map fun (t, z) => ⟨t, optionValue itemType z⟩ := by
  induction hreads with
  | nil =>
    intro done options defaultValue next _ _
    simp [stepped]
  | @cons node element nodes elements hread hreads ih =>
    intro done options defaultValue next hlegal hdefault
    have hitemNode : tweakJsonGetArrayItem (some (.array (done ++ node :: nodes))) done.length
        (typeString ||| typeObject) = masked node (typeString ||| typeObject) := by
      rw [tweakJsonGetArrayItem, List.getElem?_append_right (Nat.le_refl _), Nat.sub_self]
      rfl
    rw [List.length_cons, List.range'_succ, List.foldlM_cons, parseOptionsArrayItem_eq, hdefault,
      hitemNode, stepped_cons]
    -- the loop needs a value here, even if the element has its own
    by_cases hnext : next ≤ greatest itemType
    · have hvalue := legal_value hread (hlegal hnext)
      have hgrow := ih (done ++ [node])
        (options ++ [⟨element.text, optionValue itemType (element.value next)⟩])
        (optionValue itemType (element.value next)) (element.value next + 1) ?_ ?_
      · rw [if_pos hnext, if_pos hnext, Option.bind_some, parseElement_of_reads hitem hread]
        rw [List.length_append, List.length_singleton, List.append_assoc, List.singleton_append]
          at hgrow
        simp only [Option.bind_eq_bind, Option.bind_some, hgrow, Option.map_map]
        congr 1
        funext values
        simp
      · intro hbound
        cases itemType with
        | bool => exact ⟨by have := hvalue.1; omega, hbound⟩
        | num t => exact ⟨by have := hvalue.1; omega, hbound⟩
        | null | string | vector t => cases hitem
      · rw [nextDefault, if_pos (by simp), variantIncrement_optionValue hitem hvalue]
    · rw [if_neg hnext, if_neg hnext]
      rfl

/-- The loop numbers the elements in its own way. -/
theorem parseOptionsArray_stepped (hitem : IsDiscrete itemType) {nodes : List Node}
    {elements : List Element} (hreads : List.Forall₂ (Reads itemType) nodes elements) :
    parseOptionsArray platform floats (some (.array nodes)) itemType =
      (stepped (greatest itemType) 0 elements).map
        (List.map fun (t, z) => ⟨t, optionValue itemType z⟩) := by
  have hzero : 0 ≤ greatest itemType ∧ Legal itemType 0 := by
    cases itemType with
    | bool => exact ⟨by decide, by decide, by decide⟩
    | num t => cases t <;> exact ⟨by decide, by decide, by decide⟩
    | null | string | vector t => cases hitem
  have hloop := foldlM_parseOptionsArrayItem platform floats hitem hreads [] []
    (zeroVariant itemType) 0 (fun _ => hzero.2)
    (by rw [if_pos hzero.1, ← zeroVariant_eq hitem]; rfl)
  rw [List.length_nil, ← List.range_eq_range'] at hloop
  exact hloop

/-- A list of options for a type with numbered values is read as it should be exactly if it has no
reading, or no element with a value of its own comes after one with the greatest value. -/
theorem parseOptionsArray_expected_iff (platform : Platform) (floats : FloatLibrary)
    {itemType : VariantType} (hitem : IsDiscrete itemType) {nodes : List Node}
    {elements : List Element} (hreads : List.Forall₂ (Reads itemType) nodes elements) :
    parseOptionsArray platform floats (some (.array nodes)) itemType =
        expectedOptions itemType elements ↔
      numbered (greatest itemType) 0 elements = none ∨ Spaced (greatest itemType) 0 elements := by
  rw [← stepped_eq_numbered_iff, parseOptionsArray_stepped hitem hreads, expectedOptions]
  constructor
  · intro h
    by_cases hspaced : Spaced (greatest itemType) 0 elements
    · exact stepped_of_spaced elements hspaced
    · -- The loop has failed, so there must not be a reading either.
      rw [stepped_of_not_spaced elements hspaced, Option.map_none, eq_comm,
        Option.map_eq_none_iff] at h
      rw [stepped_of_not_spaced elements hspaced, h]
  · intro h
    rw [h]

/-- The object `{"text": t, "value": s}`. -/
def optionNode (t s : Text) : Node :=
  .object [(text "text", .string t), (text "value", .number s)]

theorem reads_optionNode (label : Text) {s : Text} (negative : Bool) (n : Nat)
    (hscan : scanInteger s = some (negative, n, [])) (hrange : InRange t (intOf negative n)) :
    Reads (.num t) (optionNode label s) (.explicit label (intOf negative n)) :=
  .explicit rfl rfl ⟨hrange, s, negative, n, rfl, hscan, rfl⟩

theorem parseOptionsArray_expected_sint8 :
    parseOptionsArray ⟨true, fun _ => []⟩ .unused
        (some (.array [.string (text "a"), optionNode (text "b") (text "-5")])) (.num .sint8) =
      some [⟨text "a", .num .sint8 0⟩, ⟨text "b", .num .sint8 (-5)⟩] :=
  have hitem : IsDiscrete (.num .sint8) := rfl
  (parseOptionsArray_expected_iff ⟨true, fun _ => []⟩ .unused hitem
    (.cons (.label _) (.cons (reads_optionNode _ true 5 rfl (by decide)) .nil))).mpr
      (.inr ⟨by decide, trivial⟩)

/-- The options 255 and 0 of a byte, in that order, are refused. -/
theorem not_expected_after_maximum :
    ∃ elements, List.Forall₂ (Reads (.num .uint8))
        [optionNode (text "a") (text "255"), optionNode (text "b") (text "0")] elements ∧
      (expectedOptions (.num .uint8) elements).isSome ∧
      parseOptionsArray ⟨true, fun _ => []⟩ .unused (some (.array
        [optionNode (text "a") (text "255"), optionNode (text "b") (text "0")])) (.num .uint8) =
          none :=
  ⟨_, .cons (reads_optionNode _ false 255 rfl (by decide))
    (.cons (reads_optionNode _ false 0 rfl (by decide)) .nil), rfl, rfl⟩

end TweakTool.Metadata
