import TweakTool.Cli.Indices
import TweakTool.Common.Contract
import TweakTool.Json.Arrays

/-! # Nested arrays

What `nested_array_to_string` prints and `nested_array_from_string` reads, for any list of dimensions:
the text and the document as functions of the leaves at all indices. -/

namespace TweakTool.Cli

open TweakTool.Lib TweakTool.Common TweakTool.Json
open TweakTool.Metadata (Layout tweakMetadataLayoutGetDimension cStr)

/-! ## Texts and documents -/

section Documents

/-- An array of arrays of these dimensions, and so on. -/
def nestedText : (dimensions : List Nat) → (leaf : List Nat → Text) → Text
  | [], leaf => leaf []
  | d :: dimensions, leaf =>
    text "[" ++ (text ", ").intercalate ((List.range d).map fun i =>
      nestedText dimensions fun indices => leaf (i :: indices)) ++ text "]"

def nestedValue : (dimensions : List Nat) → (leaf : List Nat → Text) → Value
  | [], leaf => .leaf (.number (leaf []))
  | d :: dimensions, leaf =>
    .node .array (.unlabelled ((List.range d).map fun i =>
      nestedValue dimensions fun indices => leaf (i :: indices)))

def nestedNode : (dimensions : List Nat) → (leaf : List Nat → Text) → Node
  | [], leaf => .number (leaf [])
  | d :: dimensions, leaf =>
    .array ((List.range d).map fun i => nestedNode dimensions fun indices => leaf (i :: indices))

variable {dimensions : List Nat}

/-- The printed text is that of a value. -/
theorem printed_nestedText {leaf : List Nat → Text}
    (hvalid : ∀ indices, Within dimensions indices → (Leaf.number (leaf indices)).Valid) :
    Printed (nestedText dimensions leaf) (nestedValue dimensions leaf) (nestedNode dimensions leaf) := by
  induction dimensions generalizing leaf with
  | nil => exact printed_number (hvalid [] .nil)
  | cons d dimensions ih =>
    refine printed_array ?_
    intro i hi
    exact ih fun indices hindices => hvalid (i :: indices) (.cons (List.mem_range.mp hi) hindices)

private theorem depth_unlabelled {n : Nat} {values : List Value} (hne : values ≠ [])
    (h : ∀ value ∈ values, value.depth = n) : (Entries.unlabelled values).depth = n := by
  induction values with
  | nil => exact absurd rfl hne
  | cons value values ih =>
    obtain ⟨hvalue, hvalues⟩ := List.forall_mem_cons.mp h
    rw [Entries.unlabelled, Entries.depth, hvalue]
    by_cases hnil : values = []
    · subst hnil
      exact Nat.max_zero n
    · rw [ih hnil hvalues, Nat.max_self]

/-- There are as many levels as dimensions. -/
theorem depth_nestedValue (hpos : ∀ d ∈ dimensions, 0 < d) (leaf : List Nat → Text) :
    (nestedValue dimensions leaf).depth = dimensions.length := by
  induction dimensions generalizing leaf with
  | nil => rfl
  | cons d dimensions ih =>
    obtain ⟨hd, hpos⟩ := List.forall_mem_cons.mp hpos
    have hdepth := @depth_unlabelled dimensions.length
      ((List.range d).map fun i => nestedValue dimensions fun indices => leaf (i :: indices))
    rw [nestedValue, Value.depth, hdepth, List.length_cons]
    · simp [hd.ne']
    · intro value hvalue
      obtain ⟨i, -, rfl⟩ := List.mem_map.mp hvalue
      exact ih hpos _

def leafAt : Node → (indices : List Nat) → Option Node
  | node, [] => some node
  | .array nodes, i :: indices => nodes[i]?.bind (leafAt · indices)
  | _, _ :: _ => none

/-- The leaf at some indices is what was printed for them. -/
theorem leafAt_nestedNode {indices : List Nat} (h : Within dimensions indices)
    (leaf : List Nat → Text) :
    leafAt (nestedNode dimensions leaf) indices = some (.number (leaf indices)) := by
  induction h generalizing leaf with
  | nil => rfl
  | @cons i d indices dimensions hi hindices ih =>
    rw [nestedNode, leafAt, List.getElem?_map, List.getElem?_range hi, Option.map_some,
      Option.bind_some, ih]

end Documents

/-! ## Printing -/

section Printing

variable {layout : Layout} {convertorProc : Nat → Option Text}

/-- An element of an array: another array, or a leaf if there are no dimensions left. -/
def elementToString (layout : Layout) (convertorProc : Nat → Option Text) (depth : Nat)
    (indices : List Nat) : Option Text :=
  if depth = 0 then convertorProc (arrayGeomCalculateArrayIndex layout indices)
  else nestedArrayToString layout convertorProc depth indices

theorem nestedArrayToString_succ (depth : Nat) (indices : List Nat) :
    nestedArrayToString layout convertorProc (depth + 1) indices =
      ((List.range (tweakMetadataLayoutGetDimension layout indices.length)).mapM fun i =>
        elementToString layout convertorProc depth (indices ++ [i])).map fun items =>
          text "[" ++ (text ", ").intercalate items ++ text "]" := by
  rw [nestedArrayToString]
  exact Option.map_eq_bind.symm

variable {indices rest : List Nat}

theorem getDimension_of_drop {d : Nat} (h : layout.dimensions.drop indices.length = d :: rest) :
    tweakMetadataLayoutGetDimension layout indices.length = d ∧
      ∀ i, layout.dimensions.drop (indices ++ [i]).length = rest := by
  constructor
  · have hhead := congrArg List.head? h
    rw [List.head?_drop] at hhead
    rw [tweakMetadataLayoutGetDimension, hhead]
    rfl
  · intro i
    rw [List.length_append, List.length_singleton, ← List.drop_drop, h]
    rfl

/-- Every leaf is printed where it belongs. -/
theorem elementToString_eq_some {leaf : List Nat → Text}
    (hrest : layout.dimensions.drop indices.length = rest)
    (h : ∀ more, Within rest more → convertorProc (arrayGeomCalculateArrayIndex layout (indices ++ more)) =
      some (leaf more)) :
    elementToString layout convertorProc rest.length indices = some (nestedText rest leaf) := by
  induction rest generalizing indices leaf with
  | nil => simpa [elementToString, nestedText] using h [] .nil
  | cons d rest ih =>
    obtain ⟨hdimension, hdrop⟩ := getDimension_of_drop hrest
    rw [List.length_cons, elementToString, if_neg (Nat.succ_ne_zero _), nestedArrayToString_succ,
      hdimension]
    have hitems : (List.range d).mapM (fun i =>
        elementToString layout convertorProc rest.length (indices ++ [i])) =
        some ((List.range d).map fun i => nestedText rest fun more => leaf (i :: more)) := by
      rw [mapM_eq_some, List.forall₂_map_right_iff, List.forall₂_same]
      intro i hi
      refine ih (hdrop i) ?_
      intro more hmore
      have := h (i :: more) (.cons (List.mem_range.mp hi) hmore)
      rwa [List.append_cons] at this
    rw [hitems, Option.map_some, nestedText]

/-- If there is a text then every leaf was printed. -/
theorem elementToString_isSome (hrest : layout.dimensions.drop indices.length = rest)
    (h : (elementToString layout convertorProc rest.length indices).isSome) :
    ∀ more, Within rest more →
      (convertorProc (arrayGeomCalculateArrayIndex layout (indices ++ more))).isSome := by
  induction rest generalizing indices with
  | nil =>
    intro more hmore
    rw [within_nil.mp hmore, List.append_nil]
    exact h
  | cons d rest ih =>
    obtain ⟨hdimension, hdrop⟩ := getDimension_of_drop hrest
    rw [List.length_cons, elementToString, if_neg (Nat.succ_ne_zero _), nestedArrayToString_succ,
      hdimension, Option.isSome_map] at h
    intro more hmore
    obtain ⟨i, more, rfl, hi, hmore⟩ := within_cons.mp hmore
    rw [List.append_cons]
    refine ih (hdrop i) ?_ more hmore
    rw [Option.isSome_iff_ne_none] at h ⊢
    intro hnone
    exact h (mapM_eq_none.mpr ⟨i, List.mem_range.mpr hi, hnone⟩)

end Printing

/-! ## Parsing -/

section Parsing

variable {env : Environment} {t : NumType} {layout : Layout}

/-- The text is converted to the element. -/
def Stores (env : Environment) (t : NumType) (s : Text) (item : BitVec t.width) : Prop :=
  tweakVariantFromString env.platform env.floats s (.num t) = (.success, .num t item)

/-- What is stored for the leaf at these indices. -/
def leafBits (env : Environment) (t : NumType) (node : Node) (indices : List Nat) : BitVec t.width :=
  match leafAt node indices with
  | some (.number s) => scalarField t (tweakVariantFromString env.platform env.floats s (.num t)).2
  | _ => 0

/-- What is required of a document. The size of an array is checked where its elements are arrays, and
only if there has to be an element. -/
def Accepted (env : Environment) (t : NumType) : (dimensions : List Nat) → Node → Prop
  | [], node => ∃ s item, node = .number s ∧ Stores env t s item
  | d :: dimensions, node => ∃ nodes, node = .array nodes ∧ ∀ i < d, ∃ element,
    nodes[i]? = some element ∧ (dimensions ≠ [] → nodes.length = d) ∧ Accepted env t dimensions element

/-- An element of an array: another array, or a leaf if there are no dimensions left. -/
def elementFromString (env : Environment) (t : NumType) (layout : Layout) (depth : Nat)
    (indices : List Nat) (node : Node) (array : List (BitVec t.width)) :
    Except Stop (List (BitVec t.width)) :=
  match node with
  | .number s =>
    if depth = 0 then bufferItemFromString env t array s (arrayGeomCalculateArrayIndex layout indices)
    else .error .fail
  | .array nodes =>
    if depth = 0 then .error .fail
    else nestedArrayFromString env t layout depth indices (some (.array nodes)) array
  | _ => .error .fail

/-- One round of the loop over the elements of an array. -/
def storeElement (env : Environment) (t : NumType) (layout : Layout) (depth d : Nat)
    (indices : List Nat) (nodes : List Node) (array : List (BitVec t.width)) (i : Nat) :
    Except Stop (List (BitVec t.width)) :=
  match nodes[i]? with
  | none => .error .fail
  | some element =>
    if depth ≠ 0 ∧ nodes.length ≠ d then .error .fail
    else elementFromString env t layout depth (indices ++ [i]) element array

variable {indices : List Nat} {d : Nat}

private theorem nestedArrayFromString_succ {depth : Nat} {nodes : List Node}
    (hdimension : tweakMetadataLayoutGetDimension layout indices.length = d)
    (array : List (BitVec t.width)) :
    nestedArrayFromString env t layout (depth + 1) indices (some (.array nodes)) array =
      (List.range d).foldlM (storeElement env t layout depth d indices nodes) array := by
  rw [nestedArrayFromString, hdimension]
  congr 1
  funext array i
  simp only [storeElement, tweakJsonGetArrayItem, tweakJsonGetArraySize, Option.some.injEq]
  cases hitem : nodes[i]? with
  | none => simp
  | some element =>
    rw [Option.bind_some, Option.bind_some]
    by_cases hdepth : depth = 0
    · subst hdepth
      cases element <;>
        simp [masked, Node.type, typeNumber, elementFromString, cStr, tweakJsonNodeAsCStr]
    · by_cases hsize : nodes.length = d
      · cases element <;> simp [masked, Node.type, typeArray, elementFromString, hdepth, hsize]
      · cases element <;> simp [masked, Node.type, typeArray, hdepth, hsize]

variable {array array' : List (BitVec t.width)}

private theorem bufferItemFromString_eq_ok_iff {s : Text} {index : Nat} :
    bufferItemFromString env t array s index = .ok array' ↔
      ((∃ item, Stores env t s item) ∧ index < array.length) ∧
        array' = array.set index
          (scalarField t (tweakVariantFromString env.platform env.floats s (.num t)).2) := by
  have hends : Ends env.floats t s (tweakVariantFromString env.platform env.floats s (.num t)) :=
    ends_parseScalar env.floats t s
  simp only [bufferItemFromString, Stores]
  generalize tweakVariantFromString env.platform env.floats s (.num t) = conversion at hends
  cases hends with
  | failed => simp
  | lost => by_cases hindex : index < array.length <;> simp [hindex]
  | @converted result item hresult hlost hnumber =>
    by_cases hindex : index < array.length
    · cases result with
      | fail => exact absurd rfl hresult
      | truncated => simp [hindex]
      | success => simp [hindex, eq_comm]
    · cases result with
      | fail => exact absurd rfl hresult
      | truncated | success => simp [hindex]

/-- No index lies outside an array of this size. -/
def Fits (layout : Layout) (rest indices : List Nat) (size : Nat) : Prop :=
  ∀ more, Within rest more → arrayGeomCalculateArrayIndex layout (indices ++ more) < size

/-- Each leaf stored at its index. -/
def fill (env : Environment) (t : NumType) (layout : Layout) (rest indices : List Nat) (node : Node)
    (array : List (BitVec t.width)) : List (BitVec t.width) :=
  (allWithin rest).foldl (fun array more =>
    array.set (arrayGeomCalculateArrayIndex layout (indices ++ more)) (leafBits env t node more)) array

variable {rest : List Nat}

private theorem fits_cons {size : Nat} :
    Fits layout (d :: rest) indices size ↔ ∀ i < d, Fits layout rest (indices ++ [i]) size := by
  constructor
  · intro h i hi more hmore
    rw [← List.append_cons]
    exact h (i :: more) (.cons hi hmore)
  · intro h more hmore
    obtain ⟨i, more, rfl, hi, hmore⟩ := within_cons.mp hmore
    rw [List.append_cons]
    exact h i hi more hmore

theorem leafBits_cons (nodes : List Node) (i : Nat) (more : List Nat) :
    leafBits env t (.array nodes) (i :: more) = leafBits env t (nodes[i]?.getD .null) more := by
  rw [leafBits, leafAt, leafBits]
  cases nodes[i]? with
  | some node => rfl
  | none => cases more <;> rfl

private theorem fill_cons (d : Nat) (rest indices : List Nat) (nodes : List Node)
    (array : List (BitVec t.width)) :
    fill env t layout (d :: rest) indices (.array nodes) array =
      (List.range d).foldl (fun array i =>
        fill env t layout rest (indices ++ [i]) (nodes[i]?.getD .null) array) array := by
  rw [fill, allWithin, List.foldl_flatMap]
  simp only [fill, List.foldl_map, leafBits_cons, ← List.append_cons]

theorem length_fill (rest indices : List Nat) (node : Node) (array : List (BitVec t.width)) :
    (fill env t layout rest indices node array).length = array.length :=
  length_foldl_set _ _

/-- One element of the document is stored. -/
theorem storeElement_eq_ok_iff {nodes : List Node} {i : Nat} (helement : ∀ element,
      elementFromString env t layout rest.length (indices ++ [i]) element array = .ok array' ↔
        (Accepted env t rest element ∧ Fits layout rest (indices ++ [i]) array.length) ∧
          array' = fill env t layout rest (indices ++ [i]) element array) :
    storeElement env t layout rest.length d indices nodes array i = .ok array' ↔
      (∃ element, nodes[i]? = some element ∧ (rest ≠ [] → nodes.length = d) ∧
        Accepted env t rest element ∧ Fits layout rest (indices ++ [i]) array.length) ∧
      array' = fill env t layout rest (indices ++ [i]) (nodes[i]?.getD .null) array := by
  rw [storeElement]
  cases hitem : nodes[i]? with
  | none => simp
  | some element =>
    by_cases hsize : rest.length ≠ 0 ∧ nodes.length ≠ d
    · simp only [if_pos hsize]
      refine iff_of_false (by rintro ⟨⟩) ?_
      rintro ⟨⟨_, -, hlength, -⟩, -⟩
      exact hsize.2 (hlength (List.length_pos_iff.mp (Nat.pos_of_ne_zero hsize.1)))
    · have hlength : rest ≠ [] → nodes.length = d := by
        intro hne
        by_contra h
        exact hsize ⟨fun hzero => hne (List.length_eq_zero_iff.mp hzero), h⟩
      simp only [if_neg hsize]
      rw [helement, Option.getD_some]
      refine and_congr_left' ⟨fun h => ⟨element, rfl, hlength, h⟩, ?_⟩
      rintro ⟨_, ⟨⟩, -, h⟩
      exact h

/-- A document is read if it is as required and no index lies outside the array; then each leaf is
stored at its index. -/
theorem elementFromString_eq_ok_iff {node : Node}
    (hrest : layout.dimensions.drop indices.length = rest) :
    elementFromString env t layout rest.length indices node array = .ok array' ↔
      (Accepted env t rest node ∧ Fits layout rest indices array.length) ∧
        array' = fill env t layout rest indices node array := by
  induction rest generalizing indices node array array' with
  | nil =>
    cases node with
    | number s =>
      rw [List.length_nil, elementFromString, if_pos rfl, bufferItemFromString_eq_ok_iff]
      simp [Accepted, Fits, fill, allWithin, leafBits, leafAt]
    | null | bool data | string data | object fields | array nodes =>
      simp [elementFromString, Accepted]
  | cons d rest ih =>
    obtain ⟨hdimension, hdrop⟩ := getDimension_of_drop hrest
    cases node with
    | null | bool data | string data | object fields | number s =>
      simp [elementFromString, Accepted]
    | array nodes =>
      -- the rounds keep the size of the array, and each of them is known from the elements
      have hinv : ∀ (a : List (BitVec t.width)) (i : Nat), a.length = array.length →
          (fill env t layout rest (indices ++ [i]) (nodes[i]?.getD .null) a).length = array.length :=
        fun a i ha => (length_fill rest (indices ++ [i]) _ a).trans ha
      have hstep : ∀ a : List (BitVec t.width), a.length = array.length → ∀ i ∈ List.range d, ∀ a',
          storeElement env t layout rest.length d indices nodes a i = .ok a' ↔
            (∃ element, nodes[i]? = some element ∧ (rest ≠ [] → nodes.length = d) ∧
              Accepted env t rest element ∧ Fits layout rest (indices ++ [i]) array.length) ∧
            a' = fill env t layout rest (indices ++ [i]) (nodes[i]?.getD .null) a := by
        intro a ha i _ a'
        rw [← ha]
        exact storeElement_eq_ok_iff fun element => ih (hdrop i)
      rw [List.length_cons, elementFromString, if_neg (Nat.succ_ne_zero _),
        nestedArrayFromString_succ hdimension, foldlM_eq_ok_iff hinv hstep rfl, fill_cons, fits_cons]
      refine and_congr_left' ?_
      simp only [List.mem_range, Accepted, Node.array.injEq, exists_eq_left']
      constructor
      · intro h
        refine ⟨?_, ?_⟩
        · intro i hi
          obtain ⟨element, hitem, hlength, haccepted, -⟩ := h i hi
          exact ⟨element, hitem, hlength, haccepted⟩
        · intro i hi
          obtain ⟨_, -, -, -, hfits⟩ := h i hi
          exact hfits
      · rintro ⟨haccepted, hfits⟩ i hi
        obtain ⟨element, hitem, hlength, haccepted⟩ := haccepted i hi
        exact ⟨element, hitem, hlength, haccepted, hfits i hi⟩

end Parsing

end TweakTool.Cli
