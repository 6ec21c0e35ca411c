import TweakTool.Cli.Nested

/-! # Matrices as texts

A vector is printed as a nested array in the shape of its layout, and such a text is read again. -/

namespace TweakTool.Cli

open TweakTool.Lib TweakTool.Common TweakTool.Json
open TweakTool.Metadata (Layout tweakMetadataCreate tweakMetadataGetLayout
  tweakMetadataLayoutGetNumberOfDimensions)

/-! ## The properties -/

/-- The layout of a vector with `n` elements. -/
def layoutOf (env : Environment) (t : NumType) (n : Nat) («meta» : Text) : Option Layout :=
  (tweakMetadataCreate env.platform env.floats (.vector t) n «meta»).bind tweakMetadataGetLayout

/-- The environment with other contents of new memory. -/
def Environment.withMemory (env : Environment) (fresh : Nat → UInt8) : Environment :=
  { env with lib := { env.lib with fresh := fresh } }

/-- A vector is printed, and what is printed is read as that vector. -/
def RoundTrips (env : Environment) (t : NumType) (items : List (BitVec t.width)) («meta» : Text) : Prop :=
  ∀ fresh, ∃ s,
    metadataAwareVariantToString (env.withMemory fresh) (.vector t (vectorBytes items)) «meta» = some s ∧
    metadataAwareVariantFromString (env.withMemory fresh) s (.vector t) items.length «meta» =
      some (.success, .vector t (vectorBytes items))

/-- An array of arrays, of exactly these dimensions, and so on, with integers in the range of the type. -/
def Shaped (t : NumType) : (dimensions : List Nat) → Node → Prop
  | [], node => ∃ s z, node = .number s ∧ SpellsInt s z ∧ InRange t z
  | d :: dimensions, node => ∃ nodes, node = .array nodes ∧ nodes.length = d ∧
    ∀ element ∈ nodes, Shaped t dimensions element

/-- Each element is what one leaf was converted to, and no other leaf has its index. -/
def SetOnce (env : Environment) (t : NumType) (layout : Layout) (root : Node)
    (items : List (BitVec t.width)) : Prop :=
  ∀ (p : Nat) (item : BitVec t.width), items[p]? = some item →
    ∃ indices s, Within layout.dimensions indices ∧ arrayGeomCalculateArrayIndex layout indices = p ∧
      (∀ others, Within layout.dimensions others → arrayGeomCalculateArrayIndex layout others = p →
        others = indices) ∧
      leafAt root indices = some (.number s) ∧ Stores env t s item

/-- A text that is read has the shape of the layout. -/
def ShapeChecked (env : Environment) (t : NumType) (n : Nat) («meta» : Text) (layout : Layout)
    (root : Node) (s : Text) : Prop :=
  ∀ out, metadataAwareVariantFromString env s (.vector t) n «meta» = some (.success, out) →
    Shaped t layout.dimensions root ∧ ∃ items, out = .vector t (vectorBytes items) ∧
      items.length = n ∧ SetOnce env t layout root items

/-! ## The conditions -/

/-- The layout of a text that can be read: it is not nested too deeply, and the indices of its elements
are those of the array. -/
structure Usable (layout : Layout) (n : Nat) : Prop where
  nonempty : layout.dimensions ≠ []
  depth : layout.dimensions.length < 64
  places : arrayGeomCalculateArrayIndex layout '' {indices | Within layout.dimensions indices} = Set.Iio n

/-- Nothing is left over: no array has more elements than its dimension says, and no integer is out of
range. -/
def Tight (t : NumType) : (dimensions : List Nat) → Node → Prop
  | [], .number s => ∀ z, SpellsInt s z → InRange t z
  | d :: dimensions, .array nodes => nodes.length ≤ d ∧ ∀ element ∈ nodes, Tight t dimensions element
  | _, _ => True

/-- The text is read. -/
structure Readable (env : Environment) (t : NumType) (n : Nat) (layout : Layout) (root : Node) :
    Prop where
  memory : n = 0 → env.mallocZero = true
  accepted : layout.dimensions ≠ [] → Accepted env t layout.dimensions root
  fits : layout.dimensions ≠ [] → Fits layout layout.dimensions [] n

/-! ## What is read -/

section Reading

variable {env : Environment} {t : NumType} {n : Nat} {«meta» : Text} {layout : Layout}

def memory (env : Environment) (t : NumType) (n : Nat) : List (BitVec t.width) :=
  vectorItems t (env.lib.malloc (n * t.size))

@[simp] theorem length_memory (env : Environment) (t : NumType) (n : Nat) :
    (memory env t n).length = n :=
  length_vectorItems_malloc env.lib t n

/-- The array after all elements of the text were stored. -/
def arrayFrom (env : Environment) (t : NumType) (n : Nat) (layout : Layout) (root : Node) :
    List (BitVec t.width) :=
  if layout.dimensions = [] then memory env t n
  else fill env t layout layout.dimensions [] root (memory env t n)

/-- Which documents are read, and as what. -/
theorem nestedArrayFromString_eq_ok_iff {nodes : List Node} {array : List (BitVec t.width)} :
    nestedArrayFromString env t layout (tweakMetadataLayoutGetNumberOfDimensions layout) []
        (some (.array nodes)) (memory env t n) = .ok array ↔
      ((layout.dimensions ≠ [] → Accepted env t layout.dimensions (.array nodes)) ∧
        (layout.dimensions ≠ [] → Fits layout layout.dimensions [] n)) ∧
      array = arrayFrom env t n layout (.array nodes) := by
  cases hdimensions : layout.dimensions with
  | nil => simp [tweakMetadataLayoutGetNumberOfDimensions, hdimensions, nestedArrayFromString, arrayFrom,
      eq_comm]
  | cons d dimensions =>
    have helement : nestedArrayFromString env t layout (d :: dimensions).length []
        (some (.array nodes)) (memory env t n) =
        elementFromString env t layout (d :: dimensions).length [] (.array nodes) (memory env t n) := by
      rw [elementFromString, if_neg (by simp)]
    have hdrop : layout.dimensions.drop ([] : List Nat).length = d :: dimensions := hdimensions
    rw [tweakMetadataLayoutGetNumberOfDimensions, hdimensions, helement,
      elementFromString_eq_ok_iff hdrop, length_memory, arrayFrom, hdimensions]
    simp

private theorem bufferFromString_success_iff {nodes : List Node} {out : Variant} :
    bufferFromString env t layout (some (.array nodes)) n = some (.success, out) ↔
      Readable env t n layout (.array nodes) ∧
        out = .vector t (vectorBytes (arrayFrom env t n layout (.array nodes))) := by
  rw [bufferFromString]
  by_cases hzero : n = 0 ∧ env.mallocZero = false
  · rw [if_pos hzero]
    refine iff_of_false (by simp) ?_
    rintro ⟨hreadable, -⟩
    rw [hreadable.memory hzero.1] at hzero
    cases hzero.2
  · rw [if_neg hzero]
    have hmemory : n = 0 → env.mallocZero = true := by
      intro h
      by_contra hne
      exact hzero ⟨h, by simpa using hne⟩
    have hok := fun array => @nestedArrayFromString_eq_ok_iff env t n layout nodes array
    simp only [memory] at hok
    dsimp only
    generalize nestedArrayFromString env t layout (tweakMetadataLayoutGetNumberOfDimensions layout) []
      (some (.array nodes)) (vectorItems t (env.lib.malloc (n * t.size))) = result at hok
    have hreadable : Readable env t n layout (.array nodes) ↔
        result = .ok (arrayFrom env t n layout (.array nodes)) := by
      rw [hok]
      exact ⟨fun h => ⟨⟨h.accepted, h.fits⟩, rfl⟩, fun h => ⟨hmemory, h.1.1, h.1.2⟩⟩
    rw [hreadable]
    cases result with
    | ok array =>
      obtain ⟨-, rfl⟩ := (hok array).mp rfl
      simp [eq_comm]
    | error stop => cases stop <;> simp

/-- A text that is no array is not read as a vector. -/
theorem metadataAwareVariantFromString_success_iff (hlayout : layoutOf env t n «meta» = some layout)
    {s : Text} {out : Variant} :
    metadataAwareVariantFromString env s (.vector t) n «meta» = some (.success, out) ↔
      ∃ nodes, tweakJsonParse env.platform s = some (.array nodes) ∧
        Readable env t n layout (.array nodes) ∧
        out = .vector t (vectorBytes (arrayFrom env t n layout (.array nodes))) := by
  obtain ⟨metadata, hcreate, hmetadata⟩ := Option.bind_eq_some_iff.mp hlayout
  have hfallback : (∀ nodes, tweakJsonParse env.platform s ≠ some (.array nodes)) →
      metadataAwareVariantFromString env s (.vector t) n «meta» = some (.fail, .null) := by
    intro hno
    rw [metadataAwareVariantFromString, tweakVariantFromString, parseVector]
    cases hparse : tweakJsonParse env.platform s with
    | none => rfl
    | some root =>
      cases root with
      | array nodes => exact absurd hparse (hno nodes)
      | null | bool data | number data | string data | object fields => rfl
  by_cases hroot : ∃ nodes, tweakJsonParse env.platform s = some (.array nodes)
  · obtain ⟨nodes, hparse⟩ := hroot
    have hbuffer : metadataAwareVariantFromString env s (.vector t) n «meta» =
        bufferFromString env t layout (some (.array nodes)) n := by
      rw [metadataAwareVariantFromString, hparse, hcreate]
      simp only [tweakJsonGetType, Node.type, typeArray, ne_eq, not_true_eq_false, if_false, hmetadata]
    rw [hbuffer, bufferFromString_success_iff, hparse]
    simp
  · have hno := not_exists.mp hroot
    rw [hfallback hno]
    refine iff_of_false (by simp) ?_
    rintro ⟨nodes, hparse, -⟩
    exact hno nodes hparse

end Reading

/-! ## The round trip -/

section RoundTrip

variable {env : Environment} {t : NumType} {«meta» : Text} {layout : Layout}
  {items : List (BitVec t.width)}

/-- A vector is printed by its layout. -/
theorem metadataAwareVariantToString_vector (items : List (BitVec t.width)) :
    metadataAwareVariantToString env (.vector t (vectorBytes items)) «meta» =
      (layoutOf env t items.length «meta»).bind fun layout =>
        nestedArrayToString layout (bufferItemToString env t items) layout.dimensions.length [] := by
  have hcount : (vectorBytes items).length / t.size = items.length := by
    rw [← length_vectorItems, vectorItems_vectorBytes]
  rw [metadataAwareVariantToString, arrayToString, hcount, vectorItems_vectorBytes, layoutOf,
    Option.bind_assoc]
  rfl

def leafText (env : Environment) (t : NumType) (items : List (BitVec t.width)) (layout : Layout)
    (indices : List Nat) : Text :=
  scalarToString env.floats t (items.getD (arrayGeomCalculateArrayIndex layout indices) 0)

theorem elementToString_all {convertorProc : Nat → Option Text} (hne : layout.dimensions ≠ []) :
    elementToString layout convertorProc layout.dimensions.length [] =
      nestedArrayToString layout convertorProc layout.dimensions.length [] :=
  if_neg fun h => hne (List.length_eq_zero_iff.mp h)

theorem drop_nil (layout : Layout) :
    layout.dimensions.drop ([] : List Nat).length = layout.dimensions := rfl

/-- All indices are inside the array, so it is printed. -/
theorem nestedArrayToString_eq_some (hne : layout.dimensions ≠ [])
    (hfits : Fits layout layout.dimensions [] items.length) :
    nestedArrayToString layout (bufferItemToString env t items) layout.dimensions.length [] =
      some (nestedText layout.dimensions (leafText env t items layout)) := by
  rw [← elementToString_all hne]
  refine elementToString_eq_some (drop_nil layout) ?_
  intro more hmore
  have hlt := hfits more hmore
  simp only [List.nil_append] at hlt ⊢
  simp [bufferItemToString, leafText, hlt]

private theorem fits_of_toString (hne : layout.dimensions ≠ [])
    (h : (nestedArrayToString layout (bufferItemToString env t items) layout.dimensions.length []).isSome) :
    Fits layout layout.dimensions [] items.length := by
  intro more hmore
  rw [← elementToString_all hne] at h
  have hsome := elementToString_isSome (drop_nil layout) h more hmore
  rwa [bufferItemToString, Option.isSome_map, isSome_getElem?] at hsome

private theorem accepted_nestedNode {dimensions : List Nat} {leaf : List Nat → Text}
    (h : ∀ indices, Within dimensions indices → ∃ item, Stores env t (leaf indices) item) :
    Accepted env t dimensions (nestedNode dimensions leaf) := by
  induction dimensions generalizing leaf with
  | nil =>
    obtain ⟨item, hitem⟩ := h [] .nil
    exact ⟨leaf [], item, rfl, hitem⟩
  | cons d dimensions ih =>
    refine ⟨_, rfl, ?_⟩
    intro i hi
    refine ⟨nestedNode dimensions fun indices => leaf (i :: indices), ?_, ?_, ?_⟩
    · rw [List.getElem?_map, List.getElem?_range hi, Option.map_some]
    · intro _
      rw [List.length_map, List.length_range]
    · exact ih fun indices hindices => h (i :: indices) (.cons hi hindices)

variable {n p : Nat}

/-- Every place of the array has indices. -/
theorem Usable.exists_indices (h : Usable layout n) (hp : p < n) :
    ∃ indices, Within layout.dimensions indices ∧ arrayGeomCalculateArrayIndex layout indices = p := by
  have hmem : p ∈ arrayGeomCalculateArrayIndex layout ''
      {indices | Within layout.dimensions indices} := by
    rw [h.places]
    exact hp
  exact hmem

theorem Usable.positive (h : Usable layout n) (hn : 0 < n) : ∀ d ∈ layout.dimensions, 0 < d := by
  obtain ⟨indices, hindices, -⟩ := h.exists_indices hn
  exact Within.positive hindices

private theorem Usable.fits (h : Usable layout n) : Fits layout layout.dimensions [] n := by
  intro more hmore
  have hmem : arrayGeomCalculateArrayIndex layout more ∈ arrayGeomCalculateArrayIndex layout ''
      {indices | Within layout.dimensions indices} := ⟨more, hmore, rfl⟩
  rw [h.places] at hmem
  exact hmem

/-- Where all indices lead to the elements that were printed, these are all stored again. -/
theorem fill_nestedNode (ht : t.isInteger) (husable : Usable layout items.length)
    {array : List (BitVec t.width)} (hlength : array.length = items.length) :
    fill env t layout layout.dimensions []
      (nestedNode layout.dimensions (leafText env t items layout)) array = items := by
  apply List.ext_getElem?
  intro p
  by_cases hp : p < items.length
  · obtain ⟨indices, hindices, hindex⟩ := husable.exists_indices hp
    rw [List.getElem?_eq_getElem hp]
    -- several indices may lead to this place, but the same element was printed for all of them
    refine getElem?_foldl_set ?_ array (hlength ▸ hp)
      (.inl ⟨indices, mem_allWithin.mpr hindices, hindex⟩)
    intro more hmore hplace
    have hread := parseScalar_toString env.floats ht items[p]
    rw [leafBits, leafAt_nestedNode (mem_allWithin.mp hmore), leafText]
    rw [List.nil_append] at hplace
    simp only [hplace, List.getD_eq_getElem?_getD, List.getElem?_eq_getElem hp, Option.getD_some,
      tweakVariantFromString, hread, scalarField_num]
  · rw [List.getElem?_eq_none (Nat.le_of_not_lt hp), List.getElem?_eq_none]
    rw [length_fill, hlength]
    exact Nat.le_of_not_lt hp

private theorem valid_leafText (ht : t.isInteger) (indices : List Nat) :
    (Leaf.number (leafText env t items layout indices)).Valid :=
  valid_scalarToString env.floats ht _

/-- The parser takes back what was printed, unless it is nested too deep. -/
theorem tweakJsonParse_nestedText (ht : t.isInteger) (hpos : ∀ d ∈ layout.dimensions, 0 < d) :
    tweakJsonParse env.platform (nestedText layout.dimensions (leafText env t items layout)) =
      if layout.dimensions.length < 64 then
        some (nestedNode layout.dimensions (leafText env t items layout))
      else none := by
  have hprinted := printed_nestedText fun indices (_ : Within layout.dimensions indices) =>
    @valid_leafText env t layout items ht indices
  rw [hprinted.tweakJsonParse, depth_nestedValue hpos]

private theorem roundTrips_of_usable (ht : t.isInteger) (hne : items ≠ [])
    (hlayout : layoutOf env t items.length «meta» = some layout) (husable : Usable layout items.length) :
    RoundTrips env t items «meta» := by
  intro fresh
  have hn : 0 < items.length := List.length_pos_iff.mpr hne
  have hlayout' : layoutOf (env.withMemory fresh) t items.length «meta» = some layout := hlayout
  have hparse := @tweakJsonParse_nestedText (env.withMemory fresh) t layout items ht (husable.positive hn)
  rw [if_pos husable.depth] at hparse
  obtain ⟨nodes, hnodes⟩ : ∃ nodes, nestedNode layout.dimensions
      (leafText (env.withMemory fresh) t items layout) = .array nodes := by
    obtain ⟨d, dimensions, hdimensions⟩ := List.exists_cons_of_ne_nil husable.nonempty
    rw [hdimensions]
    exact ⟨_, rfl⟩
  refine ⟨nestedText layout.dimensions (leafText (env.withMemory fresh) t items layout), ?_, ?_⟩
  · rw [metadataAwareVariantToString_vector, hlayout', Option.bind_some,
      nestedArrayToString_eq_some husable.nonempty husable.fits]
  · rw [metadataAwareVariantFromString_success_iff hlayout']
    refine ⟨nodes, hnodes ▸ hparse,
      ⟨fun hzero => absurd hzero hn.ne', fun _ => ?_, fun _ => husable.fits⟩, ?_⟩
    · rw [← hnodes]
      exact accepted_nestedNode fun indices _ => ⟨_, parseScalar_toString env.floats ht _⟩
    · rw [arrayFrom, if_neg husable.nonempty, ← hnodes,
        fill_nestedNode ht husable (length_memory _ t items.length)]

private theorem memory_const (env : Environment) (t : NumType) (b : UInt8) (hp : p < n) :
    (memory (env.withMemory fun _ => b) t n)[p]? =
      some (BitVec.ofNat _ (leNat (List.replicate t.size b))) := by
  have hbytes : (env.withMemory fun _ => b).lib.malloc (n * t.size) = List.replicate (n * t.size) b := by
    show (List.range (n * t.size)).map (fun _ => b) = _
    rw [List.map_const', List.length_range]
  have hroom : t.size ≤ n * t.size - p * t.size := by
    rw [← Nat.sub_mul]
    exact Nat.le_mul_of_pos_left _ (by omega)
  have hslice : slice (List.replicate (n * t.size) b) (p * t.size) t.size = List.replicate t.size b := by
    rw [slice, List.drop_replicate, List.take_replicate, Nat.min_eq_left hroom]
  have hlt : p < (memory (env.withMemory fun _ => b) t n).length := by rwa [length_memory]
  rw [List.getElem?_eq_getElem hlt]
  simp only [memory, vectorItems, List.getElem_map, List.getElem_range, hbytes, hslice]

/-- Two memories that differ everywhere. -/
theorem memory_differs (env : Environment) (t : NumType) (hp : p < n) :
    (memory (env.withMemory fun _ => 0) t n)[p]? ≠ (memory (env.withMemory fun _ => 255) t n)[p]? := by
  rw [memory_const env t 0 hp, memory_const env t 255 hp]
  cases t <;> decide

/-- A place that no index leads to keeps what was in the memory. -/
theorem getElem?_arrayFrom_of_ne {root : Node}
    (h : layout.dimensions ≠ [] → ∀ indices, Within layout.dimensions indices →
      arrayGeomCalculateArrayIndex layout indices ≠ p) :
    (arrayFrom env t n layout root)[p]? = (memory env t n)[p]? := by
  rw [arrayFrom]
  split
  · rfl
  · next hne => exact getElem?_foldl_set_of_ne (fun more hmore => h hne more (mem_allWithin.mp hmore)) _

theorem length_arrayFrom {root : Node} : (arrayFrom env t n layout root).length = n := by
  rw [arrayFrom]
  split
  · exact length_memory env t n
  · rw [length_fill, length_memory]

theorem vectorBytes_injective {a b : List (BitVec t.width)} (h : vectorBytes a = vectorBytes b) : a = b := by
  rw [← vectorItems_vectorBytes a, h, vectorItems_vectorBytes]

/-- Every place is one that an index leads to. -/
theorem exists_indices_of_roundTrips (h : RoundTrips env t items «meta»)
    (hlayout : layoutOf env t items.length «meta» = some layout) (hp : p < items.length) :
    layout.dimensions ≠ [] ∧ ∃ indices, Within layout.dimensions indices ∧
      arrayGeomCalculateArrayIndex layout indices = p := by
  -- otherwise the element would be whatever the new memory has at this place
  by_contra hnot
  have hunset : layout.dimensions ≠ [] → ∀ indices, Within layout.dimensions indices →
      arrayGeomCalculateArrayIndex layout indices ≠ p :=
    fun hne indices hindices heq => hnot ⟨hne, indices, hindices, heq⟩
  have hkept : ∀ fresh, items[p]? = (memory (env.withMemory fresh) t items.length)[p]? := by
    intro fresh
    obtain ⟨s, -, hread⟩ := h fresh
    have hlayout' : layoutOf (env.withMemory fresh) t items.length «meta» = some layout := hlayout
    obtain ⟨nodes, -, -, hout⟩ := (metadataAwareVariantFromString_success_iff hlayout').mp hread
    have hbytes : vectorBytes items =
        vectorBytes (arrayFrom (env.withMemory fresh) t items.length layout (.array nodes)) := by
      simpa using hout
    rw [vectorBytes_injective hbytes, getElem?_arrayFrom_of_ne hunset, length_arrayFrom]
  exact memory_differs env t hp ((hkept _).symm.trans (hkept _))

/-- Only a usable layout gives a vector back. -/
theorem usable_of_roundTrips (ht : t.isInteger) (hne : items ≠ []) (h : RoundTrips env t items «meta») :
    ∃ layout, layoutOf env t items.length «meta» = some layout ∧ Usable layout items.length := by
  have hn : 0 < items.length := List.length_pos_iff.mpr hne
  obtain ⟨s, hprint, hread⟩ := h env.lib.fresh
  have henv : env.withMemory env.lib.fresh = env := rfl
  rw [henv] at hprint hread
  rw [metadataAwareVariantToString_vector] at hprint
  obtain ⟨layout, hlayout, hprint⟩ := Option.bind_eq_some_iff.mp hprint
  have hsurj := fun {p : Nat} (hp : p < items.length) => exists_indices_of_roundTrips h hlayout hp
  obtain ⟨hdimensions, indices, hindices, -⟩ := hsurj hn
  have hfits : Fits layout layout.dimensions [] items.length :=
    fits_of_toString hdimensions (by rw [hprint]; rfl)
  refine ⟨layout, hlayout, hdimensions, ?_, ?_⟩
  · -- a text that is nested too deeply cannot be parsed
    rw [nestedArrayToString_eq_some hdimensions hfits, Option.some.injEq] at hprint
    obtain ⟨nodes, hparse, -⟩ := (metadataAwareVariantFromString_success_iff hlayout).mp hread
    rw [← hprint, tweakJsonParse_nestedText ht hindices.positive] at hparse
    by_contra hdepth
    rw [if_neg hdepth] at hparse
    cases hparse
  · apply Set.eq_of_subset_of_subset
    · rintro _ ⟨indices, hindices, rfl⟩
      exact hfits indices hindices
    · intro p hp
      obtain ⟨-, indices, hindices, hindex⟩ := hsurj hp
      exact ⟨indices, hindices, hindex⟩

end RoundTrip

/-! ## The shape -/

section Shape

variable {env : Environment} {t : NumType} {n : Nat} {«meta» : Text} {layout : Layout} {s : Text}

/-- A number is only converted without a loss if it is read as an integer. -/
theorem stores_iff (ht : t.isInteger) :
    (∃ item, Stores env t s item) ↔ ∃ negative m, scanInteger s = some (negative, m, []) ∧
      InRange t (machineValue t negative m) := by
  simp only [Stores, tweakVariantFromString]
  by_cases hinteger : IsInteger t s
  · obtain ⟨-, negative, m, hscan⟩ := hinteger
    rw [parseScalar_of_scan env.floats ht hscan, coerced, hscan]
    by_cases hrange : InRange t (machineValue t negative m)
    · simp [hrange]
    · simp [hrange]
  · refine iff_of_false ?_ ?_
    · rintro ⟨item, hitem⟩
      exact parseScalar_ne_success ht hinteger (congrArg Prod.fst hitem)
    · rintro ⟨negative, m, hscan, -⟩
      exact hinteger ⟨ht, negative, m, hscan⟩

private theorem shaped_iff (ht : t.isInteger) {dimensions : List Nat} {node : Node} :
    Shaped t dimensions node ↔ Accepted env t dimensions node ∧ Tight t dimensions node := by
  induction dimensions generalizing node with
  | nil =>
    constructor
    · rintro ⟨s, z, rfl, ⟨negative, m, hscan, rfl⟩, hrange⟩
      obtain ⟨item, hitem⟩ := (@stores_iff env t s ht).mpr
        ⟨negative, m, hscan, (machineValue_of_inRange ht hrange).symm ▸ hrange⟩
      refine ⟨⟨s, item, rfl, hitem⟩, ?_⟩
      rintro z ⟨negative', m', hscan', rfl⟩
      rw [hscan] at hscan'
      cases hscan'
      exact hrange
    · rintro ⟨⟨s, item, rfl, hitem⟩, htight⟩
      obtain ⟨negative, m, hscan, -⟩ := (stores_iff ht).mp ⟨item, hitem⟩
      have hspells : SpellsInt s (intOf negative m) := ⟨negative, m, hscan, rfl⟩
      exact ⟨s, _, rfl, hspells, htight _ hspells⟩
  | cons d dimensions ih =>
    constructor
    · rintro ⟨nodes, rfl, rfl, helements⟩
      refine ⟨⟨nodes, rfl, ?_⟩, Nat.le_refl _, fun element helement => (ih.mp (helements element helement)).2⟩
      intro i hi
      exact ⟨nodes[i], List.getElem?_eq_getElem hi, fun _ => rfl,
        (ih.mp (helements _ (List.getElem_mem hi))).1⟩
    · rintro ⟨⟨nodes, rfl, helements⟩, hle, htight⟩
      have hlength : nodes.length = d := by
        -- the reader asks for each of the `d` elements
        by_contra hne
        obtain ⟨element, hitem, -⟩ := helements nodes.length (by omega)
        simp at hitem
      refine ⟨nodes, rfl, hlength, ?_⟩
      intro element helement
      obtain ⟨i, hi, rfl⟩ := List.getElem_of_mem helement
      obtain ⟨element, hitem, -, haccepted⟩ := helements i (hlength ▸ hi)
      rw [List.getElem?_eq_getElem hi] at hitem
      cases hitem
      exact ih.mpr ⟨haccepted, htight _ helement⟩

private theorem leafAt_of_accepted {dimensions indices : List Nat} {node : Node}
    (haccepted : Accepted env t dimensions node) (hindices : Within dimensions indices) :
    ∃ s item, leafAt node indices = some (.number s) ∧ Stores env t s item ∧
      leafBits env t node indices = item := by
  induction hindices generalizing node with
  | nil =>
    obtain ⟨s, item, rfl, hstores⟩ := haccepted
    refine ⟨s, item, rfl, hstores, ?_⟩
    have hread : tweakVariantFromString env.platform env.floats s (.num t) = (.success, .num t item) :=
      hstores
    simp only [leafBits, leafAt, hread, scalarField_num]
  | @cons i d indices dimensions hi hindices ih =>
    obtain ⟨nodes, rfl, helements⟩ := haccepted
    obtain ⟨element, hitem, -, haccepted⟩ := helements i hi
    obtain ⟨s, item, hleaf, hstores, hbits⟩ := ih haccepted
    refine ⟨s, item, ?_, hstores, ?_⟩
    · rw [leafAt, hitem, Option.bind_some, hleaf]
    · rw [leafBits_cons, hitem, Option.getD_some, hbits]

/-- A text that is read has the shape of the layout exactly if nothing of it is left over and the index
calculation is right. -/
theorem shapeChecked_iff (ht : t.isInteger) (hlayout : layoutOf env t n «meta» = some layout)
    {nodes : List Node} (hroot : tweakJsonParse env.platform s = some (.array nodes)) :
    ShapeChecked env t n «meta» layout (.array nodes) s ↔
      (Readable env t n layout (.array nodes) →
        layout.dimensions ≠ [] ∧ Tight t layout.dimensions (.array nodes) ∧
        Set.BijOn (arrayGeomCalculateArrayIndex layout)
          {indices | Within layout.dimensions indices} (Set.Iio n)) := by
  constructor
  · intro h hreadable
    obtain ⟨hshaped, items, hout, hlength, hset⟩ :=
      h _ ((metadataAwareVariantFromString_success_iff hlayout).mpr ⟨nodes, hroot, hreadable, rfl⟩)
    have hne : layout.dimensions ≠ [] := by
      intro hnil
      rw [hnil] at hshaped
      obtain ⟨_, _, ⟨⟩, -⟩ := hshaped
    have hmaps : Set.MapsTo (arrayGeomCalculateArrayIndex layout)
        {indices | Within layout.dimensions indices} (Set.Iio n) :=
      fun indices hindices => hreadable.fits hne indices hindices
    have hplace : ∀ {p}, p < n → ∃ item, items[p]? = some item :=
      fun hp => ⟨_, List.getElem?_eq_getElem (hlength.symm ▸ hp)⟩
    refine ⟨hne, ((@shaped_iff env t ht _ _).mp hshaped).2, hmaps, ?_, ?_⟩
    · -- two elements cannot both be the one at their place
      intro a ha b hb heq
      obtain ⟨item, hitem⟩ := hplace (hmaps ha)
      obtain ⟨_, _, -, -, hunique, -⟩ := hset _ item hitem
      rw [hunique a ha rfl, hunique b hb heq.symm]
    · intro p hp
      obtain ⟨item, hitem⟩ := hplace hp
      obtain ⟨indices, _, hindices, hindex, -⟩ := hset p item hitem
      exact ⟨indices, hindices, hindex⟩
  · intro h out hout
    obtain ⟨nodes', hroot', hreadable, rfl⟩ :=
      (metadataAwareVariantFromString_success_iff hlayout).mp hout
    rw [hroot] at hroot'
    cases hroot'
    obtain ⟨hne, htight, hbij⟩ := h hreadable
    have haccepted := hreadable.accepted hne
    refine ⟨(shaped_iff ht).mpr ⟨haccepted, htight⟩, _, rfl, length_arrayFrom, ?_⟩
    intro p item hitem
    have hp : p < n := by
      have := (List.getElem?_eq_some_iff.mp hitem).1
      rwa [length_arrayFrom] at this
    obtain ⟨indices, hindices, hindex⟩ := hbij.surjOn hp
    have hunique : ∀ others, Within layout.dimensions others →
        arrayGeomCalculateArrayIndex layout others = p → others = indices :=
      fun others hothers heq => hbij.injOn hothers hindices (heq.trans hindex.symm)
    obtain ⟨s, bits, hleaf, hstores, hbits⟩ := leafAt_of_accepted haccepted hindices
    refine ⟨indices, s, hindices, hindex, hunique, hleaf, ?_⟩
    have hfill : (fill env t layout layout.dimensions [] (.array nodes) (memory env t n))[p]? =
        some bits := by
      refine getElem?_foldl_set ?_ _ (by rwa [length_memory])
        (.inl ⟨indices, mem_allWithin.mpr hindices, hindex⟩)
      intro more hmore heq
      rw [hunique more (mem_allWithin.mp hmore) heq, hbits]
    rw [arrayFrom, if_neg hne, hfill, Option.some.injEq] at hitem
    rwa [← hitem]

end Shape

/-! ## Both together -/

/-- A vector survives the round trip exactly if its metadata has a layout that leads to each element. A
text that is read has the shape of the layout exactly if nothing of it is left over, and the index
calculation is right. -/
theorem metadataAwareVariant_iff (env : Environment) {t : NumType} (ht : t.isInteger) («meta» : Text) :
    (∀ items : List (BitVec t.width), items ≠ [] →
      (RoundTrips env t items «meta» ↔
        ∃ layout, layoutOf env t items.length «meta» = some layout ∧ Usable layout items.length)) ∧
    ∀ n layout nodes s, layoutOf env t n «meta» = some layout →
      tweakJsonParse env.platform s = some (.array nodes) →
      (ShapeChecked env t n «meta» layout (.array nodes) s ↔
        (Readable env t n layout (.array nodes) →
          layout.dimensions ≠ [] ∧ Tight t layout.dimensions (.array nodes) ∧
          Set.BijOn (arrayGeomCalculateArrayIndex layout)
            {indices | Within layout.dimensions indices} (Set.Iio n))) := by
  refine ⟨?_, ?_⟩
  · intro items hne
    refine ⟨usable_of_roundTrips ht hne, ?_⟩
    rintro ⟨layout, hlayout, husable⟩
    exact roundTrips_of_usable ht hne hlayout husable
  · intro n layout nodes s hlayout hroot
    exact shapeChecked_iff ht hlayout hroot

/-- Two rows of three elements. -/
theorem roundTrips_two_by_three :
    RoundTrips plainEnvironment .uint8 [1, 2, 3, 4, 5, 6]
      (text "\x7b\"layout\":\x7b\"dimensions\":[2,3]\x7d\x7d") := by
  refine ((metadataAwareVariant_iff plainEnvironment rfl _).1 _ (by decide)).mpr
    ⟨⟨.rowMajor, [2, 3]⟩, by decide +kernel, by decide, by decide, ?_⟩
  exact (arrayGeomCalculateArrayIndex_image_iff (by decide) (by decide) (by decide)).mpr
    fun _ => by decide

/-- A vector for which the metadata asks for a slider has no layout, and so its text is not even printed;
and what stands behind the elements of a row is not looked at. -/
theorem not_roundTrips_slider :
    ¬ RoundTrips plainEnvironment .uint8 [7] (text "\x7b\"control\":\"slider\"\x7d") ∧
    metadataAwareVariantFromString plainEnvironment (text "[7, 8]") (.vector .uint8) 1 [] =
      some (.success, .vector .uint8 [7]) ∧
    layoutOf plainEnvironment .uint8 1 [] = some ⟨.rowMajor, [1]⟩ ∧
    tweakJsonParse plainEnvironment.platform (text "[7, 8]") =
      some (.array [.number (text "7"), .number (text "8")]) ∧
    ¬ Shaped .uint8 [1] (.array [.number (text "7"), .number (text "8")]) := by
  refine ⟨?_, by decide +kernel, by decide +kernel, rfl, ?_⟩
  · intro h
    obtain ⟨s, hprint, -⟩ := h fun _ => 0
    have hnone : metadataAwareVariantToString (plainEnvironment.withMemory fun _ => 0)
        (.vector .uint8 (vectorBytes (t := .uint8) [7])) (text "\x7b\"control\":\"slider\"\x7d") = none := by
      decide +kernel
    rw [hnone] at hprint
    cases hprint
  · rintro ⟨nodes, hnodes, hlength, -⟩
    cases hnodes
    cases hlength

end TweakTool.Cli
