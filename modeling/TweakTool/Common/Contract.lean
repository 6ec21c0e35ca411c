import TweakTool.Common.Clamp

/-! # What a conversion promises

`tweak_variant_from_string` says with its result whether it stored a value. Callers rely on the type
of that value without looking at it again. -/

namespace TweakTool.Common

open TweakTool.Lib TweakTool.Json

/-- The text is the integer `z`. -/
def SpellsInt (s : Text) (z : Int) : Prop :=
  ∃ negative n, scanInteger s = some (negative, n, []) ∧ z = intOf negative n

/-- No other value of the type is nearer to the number. -/
def NearestTo (t : NumType) (bits : BitVec t.width) : Binary64 → Prop
  | .nan => False
  | .infinity negative => numValue t bits = if negative then lowest t else highest t
  | .finite q => ∀ other, |(numValue t bits : ℚ) - q| ≤ |(numValue t other : ℚ) - q|

/-- No other value is nearer to what the text spells: an integer, or else the number that `strtod`
reads. -/
structure NearestSpelled (floats : FloatLibrary) (t : NumType) (s : Text) (bits : BitVec t.width) :
    Prop where
  integer : ∀ z, SpellsInt s z → Nearest t z bits
  number : (∀ z, ¬ SpellsInt s z) → ∀ d, parseFloatingPoint floats s = some d →
    NearestTo t bits (Binary64.ofBits d)

/-- `item` is what the conversion of a node of the array yields. If it was truncated, it is the
nearest value. -/
def Yields (floats : FloatLibrary) (t : NumType) (node : Node) (item : BitVec t.width) : Prop :=
  ∃ spelling result, node = .number spelling ∧
    parseScalar floats t spelling = (result, .num t item) ∧ result ≠ .fail ∧
    (result = .truncated → NearestSpelled floats t spelling item)

/-- `out` has the type it was asked for, and a vector has the elements of the array. -/
def Stored (platform : Platform) (floats : FloatLibrary) (arg : Text) (targetType : VariantType)
    (out : Variant) : Prop :=
  out.type = targetType ∧ ∀ t, targetType = .vector t →
    ∃ nodes items, tweakJsonParse platform arg = some (.array nodes) ∧
      out = .vector t (vectorBytes items) ∧ List.Forall₂ (Yields floats t) nodes items

/-- The contract, for the result and what is in `out` then. -/
def Contract (platform : Platform) (floats : FloatLibrary) (arg : Text) (targetType : VariantType) :
    Conversion → Prop
  | (.fail, out) => out = .null
  | (_, out) => Stored platform floats arg targetType out

/-! ## Numbers -/

/-- `strtoll` and `strtoull` read the text to its end, and the type uses one of them. -/
def IsInteger (t : NumType) (s : Text) : Prop :=
  t.isInteger ∧ ∃ negative n, scanInteger s = some (negative, n, [])

def IsNumber (floats : FloatLibrary) (s : Text) : Prop := (parseFloatingPoint floats s).isSome

/-- A number that is converted to nothing: it is no integer, and the type is signed. -/
def Lost (floats : FloatLibrary) (t : NumType) (s : Text) : Prop :=
  isSigned t ∧ ¬ IsInteger t s ∧ IsNumber floats s

/-- A negative integer that is converted to the upper end of an unsigned type. -/
def Reversed (t : NumType) (s : Text) : Prop :=
  isSigned t = false ∧ t.isInteger ∧
    ∃ n, scanInteger s = some (true, n, []) ∧ ¬ InRange t (machineValue t true n)

/-- A number that is neither above `2 ^ 64` nor below 0, and that `uint64_t` cannot hold. -/
def Uncastable : Binary64 → Prop
  | .nan => True
  | .infinity _ => False
  | .finite q => q ≤ 2 ^ 64 ∧ 2 ^ 64 ≤ round q

/-- A number that is no integer, and whose conversion to an unsigned type is undefined. -/
def Overflows (floats : FloatLibrary) (t : NumType) (s : Text) : Prop :=
  isSigned t = false ∧ t.isInteger ∧ ¬ IsInteger t s ∧
    ∃ d, parseFloatingPoint floats s = some d ∧ Uncastable (Binary64.ofBits d)

variable {platform : Platform} {floats : FloatLibrary} {t : NumType} {s : Text}

theorem parseSignedInt64_eq_none (ht : t.isInteger) (h : ¬ IsInteger t s) :
    parseSignedInt64 s = none := by
  rw [parseSignedInt64, strtoll]
  cases hscan : scanInteger s with
  | none => rfl
  | some r =>
    obtain ⟨negative, n, rest⟩ := r
    cases rest with
    | nil => exact absurd ⟨ht, negative, n, hscan⟩ h
    | cons c rest => rfl

theorem parseUnsignedInt64_eq_none (ht : t.isInteger) (h : ¬ IsInteger t s) :
    parseUnsignedInt64 s = none := by
  rw [parseUnsignedInt64, strtoull]
  cases hscan : scanInteger s with
  | none => rfl
  | some r =>
    obtain ⟨negative, n, rest⟩ := r
    cases rest with
    | nil => exact absurd ⟨ht, negative, n, hscan⟩ h
    | cons c rest => rfl

/-- The three ways a conversion to a numeric type can end. -/
inductive Ends (floats : FloatLibrary) (t : NumType) (s : Text) : Conversion → Prop
  | failed : ¬ IsInteger t s → ¬ IsNumber floats s → Ends floats t s (.fail, .null)
  | lost : Lost floats t s → Ends floats t s (.truncated, .null)
  | converted {result : ConversionResult} (item : BitVec t.width) : result ≠ .fail →
    ¬ Lost floats t s → (IsInteger t s ∨ IsNumber floats s) → Ends floats t s (result, .num t item)

/-- A number that is no integer becomes an `uint64_t`. -/
theorem uintOfDouble_lt (floats : FloatLibrary) (d : BitVec 64) : uintOfDouble floats d < 2 ^ 64 := by
  have hcast := (floats.castUInt64 d).isLt
  rw [uintOfDouble, roundUInt64]
  split
  · decide
  · split
    · decide
    · split
      · split <;> omega
      all_goals exact hcast

/-- The unsigned types store the value that is nearest to what the number was made. -/
theorem uintOfVal_truncated (ht : t.isInteger) (hunsigned : isSigned t = false) {val : Nat}
    (hval : val < 2 ^ 64) :
    uintOfVal t val .truncated = (.truncated, .num t (BitVec.ofInt _ (clamp t val))) := by
  cases t with
  | sint8 | sint16 | sint32 | sint64 => cases hunsigned
  | float | double => cases ht
  | uint8 | uint16 | uint32 =>
    refine (coerceUint_eq ?_ ?_ val .truncated).trans ?_
    · decide
    · decide
    · rw [ite_self]
  | uint64 =>
    have hin : InRange .uint64 val := ⟨Int.natCast_nonneg _, by
      show (val : Int) ≤ 2 ^ 64 - 1
      omega⟩
    rw [clamp_of_inRange hin, BitVec.ofInt_natCast]
    rfl

variable {d : BitVec 64}

/-- What an unsigned type makes of a number that is no integer. -/
theorem parseScalar_of_number (ht : t.isInteger) (hunsigned : isSigned t = false)
    (hinteger : ¬ IsInteger t s) (hnumber : parseFloatingPoint floats s = some d) :
    parseScalar floats t s =
      (.truncated, .num t (BitVec.ofInt _ (clamp t (uintOfDouble floats d)))) := by
  rw [← uintOfVal_truncated ht hunsigned (uintOfDouble_lt floats d)]
  cases t with
  | sint8 | sint16 | sint32 | sint64 => cases hunsigned
  | float | double => cases ht
  | uint8 | uint16 | uint32 | uint64 =>
    simp only [parseScalar, parseGenericUint, parseUnsignedInt64_eq_none rfl hinteger, hnumber]

/-- A text that is no integer is left to `strtod`. -/
theorem ends_of_not_isInteger (hinteger : ¬ IsInteger t s) :
    Ends floats t s (parseScalar floats t s) := by
  cases hnumber : parseFloatingPoint floats s with
  | none =>
    have hfailed : ¬ IsNumber floats s := by simp [IsNumber, hnumber]
    have hfail : parseScalar floats t s = (.fail, .null) := by
      cases t with
      | float | double => simp [parseScalar, parseGenericFloat, hnumber]
      | sint8 | sint16 | sint32 | sint64 =>
        simp [parseScalar, parseGenericInt, parseSignedInt64_eq_none rfl hinteger,
          parseGenericFloat, hnumber]
      | uint8 | uint16 | uint32 | uint64 =>
        simp [parseScalar, parseGenericUint, parseUnsignedInt64_eq_none rfl hinteger, hnumber]
    rw [hfail]
    exact .failed hinteger hfailed
  | some d =>
    have hisNumber : IsNumber floats s := by simp [IsNumber, hnumber]
    cases t with
    | float | double =>
      simp only [parseScalar, parseGenericFloat, hnumber]
      exact .converted _ (by decide) (fun h => absurd h.1 (by decide)) (.inr hisNumber)
    | sint8 | sint16 | sint32 | sint64 =>
      simp only [parseScalar, parseGenericInt, parseSignedInt64_eq_none rfl hinteger,
        parseGenericFloat, hnumber, if_true]
      exact .lost ⟨rfl, hinteger, hisNumber⟩
    | uint8 | uint16 | uint32 | uint64 =>
      rw [parseScalar_of_number rfl rfl hinteger hnumber]
      exact .converted _ (by decide) (fun h => absurd h.1 (by decide)) (.inr hisNumber)

/-- There is no other way a conversion can end. -/
theorem ends_parseScalar (floats : FloatLibrary) (t : NumType) (s : Text) :
    Ends floats t s (parseScalar floats t s) := by
  by_cases hinteger : IsInteger t s
  · have ⟨ht, negative, n, hscan⟩ := hinteger
    rw [parseScalar_of_scan floats ht hscan]
    refine .converted _ ?_ (fun h => h.2.1 hinteger) (.inl hinteger)
    split <;> decide
  · exact ends_of_not_isInteger hinteger

/-- What is no integer is at best truncated. -/
theorem parseScalar_ne_success (ht : t.isInteger) (hinteger : ¬ IsInteger t s) :
    (parseScalar floats t s).1 ≠ .success := by
  cases hsigned : isSigned t with
  | true =>
    cases t with
    | uint8 | uint16 | uint32 | uint64 | float | double => cases hsigned
    | sint8 | sint16 | sint32 | sint64 =>
      simp only [parseScalar, parseGenericInt, parseSignedInt64_eq_none rfl hinteger]
      split <;> decide
  | false =>
    cases hnumber : parseFloatingPoint floats s with
    | none =>
      cases t with
      | sint8 | sint16 | sint32 | sint64 => cases hsigned
      | float | double => cases ht
      | uint8 | uint16 | uint32 | uint64 =>
        simp only [parseScalar, parseGenericUint, parseUnsignedInt64_eq_none rfl hinteger, hnumber]
        decide
    | some d =>
      rw [parseScalar_of_number ht hsigned hinteger hnumber]
      rintro ⟨⟩

/-! ## Nearest values -/

variable {n : Nat} {negative : Bool}

/-- An integer in the range of the type is read as it is. -/
theorem machineValue_of_inRange (ht : t.isInteger) (h : InRange t (intOf negative n)) :
    machineValue t negative n = intOf negative n := by
  cases hsigned : isSigned t with
  | true =>
    have hlimits := limits_signed hsigned
    rw [InRange] at h
    rw [machineValue_signed hsigned]
    omega
  | false =>
    have hlimits := limits_unsigned ht hsigned
    rw [InRange] at h
    cases negative with
    | false =>
      rw [machineValue_unsigned hsigned]
      simp only [intOf] at h ⊢
      omega
    | true =>
      have hn : n = 0 := by
        rw [intOf, if_pos rfl] at h
        omega
      subst hn
      simp [machineValue, hsigned, intOf]

/-- The first reader does not change which value is nearest, except for a negative integer and an
unsigned type. -/
theorem clamp_machineValue (ht : t.isInteger) (h : isSigned t = true ∨ negative = false) :
    clamp t (machineValue t negative n) = clamp t (intOf negative n) := by
  have hrange := lowest_le_highest t
  cases hsigned : isSigned t with
  | true =>
    have hlimits := limits_signed hsigned
    rw [machineValue_signed hsigned, clamp, clamp]
    omega
  | false =>
    have hlimits := limits_unsigned ht hsigned
    have hpositive : negative = false := h.resolve_left (by simp [hsigned])
    subst hpositive
    rw [machineValue_unsigned hsigned, clamp, clamp, intOf, if_neg Bool.false_ne_true]
    omega

/-- At the wrong end of the range, what is stored is not the nearest value. -/
theorem not_nearest_of_reversed (ht : t.isInteger) (hunsigned : isSigned t = false)
    (hout : ¬ InRange t (machineValue t true n)) :
    clamp t (machineValue t true n) ≠ clamp t (intOf true n) := by
  have hlimits := limits_unsigned ht hunsigned
  have hn : 0 < n := by
    rw [Nat.pos_iff_ne_zero]
    rintro rfl
    exact hout (by simp [machineValue, hunsigned, InRange]; omega)
  have hpos := machineValue_negative hunsigned hn
  rw [InRange] at hout
  rw [clamp, clamp, intOf, if_pos rfl]
  omega

/-- What the cast is defined for is rounded before it is brought into the range of the type. -/
theorem clamp_uintOfDouble (hunsigned : isSigned t = false) (ht : t.isInteger) {q : ℚ}
    (hd : Binary64.ofBits d = .finite q) (hcast : ¬ Uncastable (.finite q)) :
    clamp t (uintOfDouble floats d) = clamp t (round q) := by
  have hlimits := limits_unsigned ht hunsigned
  have hupper := round_le_add_half q
  have hlower := sub_half_lt_round q
  rw [uintOfDouble, roundUInt64, hd]
  simp only [Binary64.above, Binary64.below, decide_eq_true_eq]
  split
  · next habove =>
    have hround : 2 ^ 64 - 1 < round q := by
      have hcast : ((2 ^ 64 - 1 : ℤ) : ℚ) < round q := by push_cast; linarith
      exact_mod_cast hcast
    rw [clamp, clamp]
    omega
  · next habove =>
    split
    · next hbelow =>
      have hround : round q < 1 := by
        have hcast : (round q : ℚ) < (1 : ℤ) := by push_cast; linarith
        exact_mod_cast hcast
      rw [clamp, clamp]
      omega
    · next hbelow =>
      have hnonneg : -1 < round q := by
        have hcast : ((-1 : ℤ) : ℚ) < round q := by push_cast; linarith
        exact_mod_cast hcast
      have hlt : round q < 2 ^ 64 := Int.lt_of_not_ge fun hge => hcast ⟨not_lt.mp habove, hge⟩
      rw [if_pos ⟨by omega, hlt⟩, Int.toNat_of_nonneg (by omega)]

private theorem nearestTo_uintOfDouble (hunsigned : isSigned t = false) (ht : t.isInteger)
    (hcast : ¬ Uncastable (Binary64.ofBits d)) :
    NearestTo t (BitVec.ofInt _ (clamp t (uintOfDouble floats d))) (Binary64.ofBits d) := by
  have hlimits := limits_unsigned ht hunsigned
  cases hd : Binary64.ofBits d with
  | nan =>
    rw [hd] at hcast
    exact absurd trivial hcast
  | infinity negative =>
    rw [NearestTo, numValue_ofInt ht (inRange_clamp t _), uintOfDouble, hd, clamp]
    cases negative <;> simp only [Binary64.above, Binary64.below] <;> simp <;> omega
  | finite q =>
    rw [hd] at hcast
    intro other
    obtain ⟨hlow, hhigh⟩ := inRange_numValue ht other
    rw [numValue_ofInt ht (inRange_clamp t _), clamp_uintOfDouble hunsigned ht hd hcast]
    exact abs_clamp_round_sub_le q hlow hhigh

/-- Where the cast is undefined it may give 0, which is not nearest. -/
theorem not_nearestTo_uintOfDouble (hunsigned : isSigned t = false) (ht : t.isInteger)
    (hzero : floats.castUInt64 d = 0) (hcast : Uncastable (Binary64.ofBits d)) :
    ¬ NearestTo t (BitVec.ofInt _ (clamp t (uintOfDouble floats d))) (Binary64.ofBits d) := by
  have hlimits := limits_unsigned ht hunsigned
  cases hd : Binary64.ofBits d with
  | nan => exact fun h => h
  | infinity negative =>
    rw [hd] at hcast
    exact hcast.elim
  | finite q =>
    rw [hd] at hcast
    obtain ⟨hle, hround⟩ := hcast
    have hq : 2 ^ 64 - 1 / 2 ≤ q := by
      have hupper := round_le_add_half q
      have hcast : ((2 ^ 64 : ℤ) : ℚ) ≤ round q := by exact_mod_cast hround
      push_cast at hcast
      linarith
    have hval : uintOfDouble floats d = 0 := by
      rw [uintOfDouble, roundUInt64, hd]
      simp only [Binary64.above, Binary64.below, decide_eq_true_eq]
      rw [if_neg (not_lt.mpr hle), if_neg (by linarith), if_neg (by omega), hzero]
      rfl
    intro hnearest
    have hhighest := hnearest (BitVec.ofInt _ (highest t))
    have hin : InRange t (highest t) := ⟨lowest_le_highest t, le_rfl⟩
    have hclamp : clamp t ((0 : Nat) : Int) = 0 := by rw [clamp]; omega
    have hbound : ((highest t : ℤ) : ℚ) ≤ 2 ^ 64 - 1 := by
      have hle : highest t ≤ 2 ^ 64 - 1 := by omega
      exact_mod_cast hle
    have hpos : (0 : ℚ) < highest t := by exact_mod_cast hlimits.2.1
    rw [hval, numValue_ofInt ht (inRange_clamp t _), numValue_ofInt ht hin, hclamp, Int.cast_zero,
      abs_of_nonpos (by linarith), abs_of_nonpos (by linarith)] at hhighest
    linarith

/-- A text that spells an integer is one for each of the types that take integers. -/
theorem spellsInt_of_isInteger (h : IsInteger t s) : ∃ z, SpellsInt s z := by
  obtain ⟨-, negative, n, hscan⟩ := h
  exact ⟨intOf negative n, negative, n, hscan, rfl⟩

variable {item : BitVec t.width}

private theorem nearest_of_not_reversed (ht : t.isInteger) (hreversed : ¬ Reversed t s) {z : Int}
    (hz : SpellsInt s z) (hparse : parseScalar floats t s = (.truncated, .num t item)) :
    Nearest t z item := by
  obtain ⟨negative, n, hscan, rfl⟩ := hz
  rw [parseScalar_of_scan floats ht hscan, coerced] at hparse
  obtain ⟨hout, hitem⟩ := Prod.mk.inj hparse
  cases hitem
  have hout : ¬ InRange t (machineValue t negative n) := by
    intro hin
    rw [if_pos hin] at hout
    cases hout
  rw [nearest_iff ht, numValue_ofInt ht (inRange_clamp t _)]
  apply clamp_machineValue ht
  cases negative with
  | false => exact .inr rfl
  | true =>
    cases hsigned : isSigned t with
    | true => exact .inl rfl
    | false => exact absurd ⟨hsigned, ht, n, hscan, hout⟩ hreversed

variable {result : ConversionResult}

/-- A value that was stored is what it should be, unless a negative integer was turned around or the
cast of another number was undefined. -/
theorem yields_of_right (hparse : parseScalar floats t s = (result, .num t item))
    (hresult : result ≠ .fail) (hreversed : ¬ Reversed t s) (hoverflows : ¬ Overflows floats t s) :
    Yields floats t (.number s) item := by
  refine ⟨s, result, rfl, hparse, hresult, ?_⟩
  rintro rfl
  cases ht : t.isInteger with
  | false =>
    -- floating point types take every number
    cases t <;> first | cases ht; done | skip
    all_goals
      simp only [parseScalar, parseGenericFloat] at hparse
      split at hparse <;> cases hparse
  | true =>
    refine ⟨fun z hz => nearest_of_not_reversed ht hreversed hz hparse, fun hspells d hd => ?_⟩
    have hinteger : ¬ IsInteger t s := fun h => (spellsInt_of_isInteger h).elim hspells
    cases hsigned : isSigned t with
    | true =>
      -- nothing is stored for a signed type
      have hends := ends_parseScalar floats t s
      rw [hparse] at hends
      cases hends with
      | converted _ _ hlost _ =>
        exact absurd ⟨hsigned, hinteger, by rw [IsNumber, hd]; rfl⟩ hlost
    | false =>
      rw [parseScalar_of_number ht hsigned hinteger hd] at hparse
      cases hparse
      exact nearestTo_uintOfDouble hsigned ht fun hcast =>
        hoverflows ⟨hsigned, ht, hinteger, d, hd, hcast⟩

private theorem not_reversed_of_yields (h : Yields floats t (.number s) item) : ¬ Reversed t s := by
  obtain ⟨_, _, ⟨⟩, hparse, -, hnearest⟩ := h
  rintro ⟨hunsigned, ht, n, hscan, hout⟩
  rw [parseScalar_of_scan floats ht hscan, coerced, if_neg hout] at hparse
  cases hparse
  have hvalue := (nearest_iff ht).mp ((hnearest rfl).integer _ ⟨true, n, hscan, rfl⟩)
  rw [numValue_ofInt ht (inRange_clamp t _)] at hvalue
  exact not_nearest_of_reversed ht hunsigned hout hvalue

private theorem not_overflows_of_yields (hzero : ∀ d, floats.castUInt64 d = 0)
    (h : Yields floats t (.number s) item) : ¬ Overflows floats t s := by
  obtain ⟨_, _, ⟨⟩, hparse, -, hnearest⟩ := h
  rintro ⟨hunsigned, ht, hinteger, d, hd, hcast⟩
  rw [parseScalar_of_number ht hunsigned hinteger hd] at hparse
  cases hparse
  refine not_nearestTo_uintOfDouble hunsigned ht (hzero d) hcast ((hnearest rfl).number ?_ d hd)
  rintro z ⟨negative, n, hscan, -⟩
  exact hinteger ⟨ht, negative, n, hscan⟩

/-! ## Arrays -/

/-- The conversion of an element, and whether it was truncated. -/
def convertNode (floats : FloatLibrary) (t : NumType) : Node → Option (Bool × BitVec t.width)
  | .number s =>
    match parseScalar floats t s with
    | (.fail, _) => none
    | (.truncated, itemValue) => some (true, scalarField t itemValue)
    | (.success, itemValue) => some (false, scalarField t itemValue)
  | _ => none

def Convertible (floats : FloatLibrary) (t : NumType) (node : Node) : Prop :=
  ∃ s, node = .number s ∧ (IsInteger t s ∨ IsNumber floats s)

/-- A number whose conversion goes wrong. -/
def Mistaken (floats : FloatLibrary) (t : NumType) (node : Node) : Prop :=
  ∃ s, node = .number s ∧ (Lost floats t s ∨ Reversed t s ∨ Overflows floats t s)

private theorem parseItem_eq (nodes : List Node) {ix : Nat} (hix : ix < nodes.length) :
    parseItem floats t (some (.array nodes)) ix = convertNode floats t nodes[ix] := by
  simp only [parseItem, tweakJsonGetArrayItem, List.getElem?_eq_getElem hix, Option.bind_some]
  cases nodes[ix] with
  | number s =>
    have hmasked : masked (.number s) typeNumber = some (.number s) := by
      simp [masked, Node.type, typeNumber]
    simp only [hmasked, tweakJsonNodeAsCStr, Option.getD_some]
    rfl
  | null | bool data | string data | array items | object fields =>
    simp [masked, Node.type, typeNumber, convertNode]

variable {arg : Text} {nodes : List Node}

/-- A vector is converted element by element. -/
theorem parseVector_array (h : tweakJsonParse platform arg = some (.array nodes)) :
    parseVector platform floats t arg =
      match nodes.mapM (convertNode floats t) with
      | none => (.fail, .null)
      | some items =>
        (if items.any (·.1) then .truncated else .success,
          .vector t (vectorBytes (items.map (·.2)))) := by
  simp only [parseVector, h, tweakJsonGetArraySize]
  rewrite [mapM_range (g := convertNode floats t) (parseItem_eq nodes)]
  rfl

variable {node : Node}

/-- An element that is not convertible makes the conversion fail. -/
theorem convertNode_eq_none : convertNode floats t node = none ↔ ¬ Convertible floats t node := by
  cases node with
  | null | bool data | string data | array items | object fields =>
    simp [convertNode, Convertible]
  | number s =>
    have hconvertible : Convertible floats t (.number s) ↔ IsInteger t s ∨ IsNumber floats s := by
      simp [Convertible]
    rw [hconvertible, convertNode]
    have hends := ends_parseScalar floats t s
    generalize parseScalar floats t s = result at hends
    cases hends with
    | failed hinteger hnumber => simp [hinteger, hnumber]
    | lost hlost => simp [hlost.2.2]
    | @converted result item hresult _ hnumber =>
      cases result with
      | fail => exact absurd rfl hresult
      | success | truncated => simp [hnumber]

/-- What is stored for an element is right unless its conversion goes wrong. -/
theorem yields_of_convertNode {truncated : Bool}
    (h : convertNode floats t node = some (truncated, item)) (hright : ¬ Mistaken floats t node) :
    Yields floats t node item := by
  cases node with
  | null | bool data | string data | array items | object fields => cases h
  | number s =>
    have hends := ends_parseScalar floats t s
    rw [convertNode] at h
    generalize hparse : parseScalar floats t s = result at hends h
    cases hends with
    | failed => cases h
    | lost hlost => exact absurd ⟨s, rfl, .inl hlost⟩ hright
    | @converted result value hresult _ _ =>
      have hitem : value = item := by
        cases result with
        | fail => exact absurd rfl hresult
        | success | truncated =>
          simp only [scalarField_num, Option.some.injEq, Prod.mk.injEq] at h
          exact h.2
      subst hitem
      exact yields_of_right hparse hresult (fun hreversed => hright ⟨s, rfl, .inr (.inl hreversed)⟩)
        fun hoverflows => hright ⟨s, rfl, .inr (.inr hoverflows)⟩

private theorem convertNode_of_yields (h : Yields floats t node item) :
    ∃ truncated, convertNode floats t node = some (truncated, item) := by
  obtain ⟨s, result, rfl, hparse, hresult, -⟩ := h
  rw [convertNode, hparse]
  cases result with
  | fail => exact absurd rfl hresult
  | success | truncated =>
    dsimp only
    rw [scalarField_num]
    exact ⟨_, rfl⟩

private theorem not_mistaken_of_yields (hzero : ∀ d, floats.castUInt64 d = 0)
    (h : Yields floats t node item) : ¬ Mistaken floats t node := by
  have ⟨s, result, hnode, hparse, hresult, _⟩ := h
  rintro ⟨s', rfl, hlost | hreversed | hoverflows⟩
  · cases hnode
    have hends := ends_parseScalar floats t s
    rw [hparse] at hends
    cases hends with
    | converted _ _ hnot _ => exact hnot hlost
  · exact not_reversed_of_yields h hreversed
  · exact not_overflows_of_yields hzero h hoverflows

/-! ## The contract -/

/-- What a text has to avoid for the contract to be kept. In an array that cannot be converted
anyway, nothing. -/
def Keeps (platform : Platform) (floats : FloatLibrary) (arg : Text) : VariantType → Prop
  | .num t => ¬ Lost floats t arg
  | .vector t => ∀ nodes, tweakJsonParse platform arg = some (.array nodes) →
      (∀ node ∈ nodes, Convertible floats t node) → ∀ node ∈ nodes, ¬ Mistaken floats t node
  | _ => True

variable {targetType : VariantType} {out : Variant}

/-- Apart from failures, the contract is about what is stored. -/
theorem contract_of_ne_fail (h : result ≠ .fail) :
    Contract platform floats arg targetType (result, out) ↔
      Stored platform floats arg targetType out := by
  cases result with
  | fail => exact absurd rfl h
  | success | truncated => exact Iff.rfl

theorem stored_scalar (h : ∀ t, out.type ≠ .vector t) : Stored platform floats arg out.type out :=
  ⟨rfl, fun t htype => absurd htype (h t)⟩

private theorem contract_num (t : NumType) (arg : Text) :
    Contract platform floats arg (.num t) (parseScalar floats t arg) ↔ ¬ Lost floats t arg := by
  have hends := ends_parseScalar floats t arg
  generalize parseScalar floats t arg = result at hends
  cases hends with
  | failed hinteger hnumber => exact iff_of_true rfl fun hlost => hnumber hlost.2.2
  | lost hlost => exact iff_of_false (fun h => by cases h.1) (not_not.mpr hlost)
  | @converted result item hresult hlost _ =>
    refine iff_of_true ((contract_of_ne_fail hresult).mpr ?_) hlost
    exact @stored_scalar _ _ _ (.num t item) (by simp [VariantOf.type])

private theorem contract_array (hnodes : tweakJsonParse platform arg = some (.array nodes)) :
    Contract platform floats arg (.vector t) (parseVector platform floats t arg) ↔
      ((∀ node ∈ nodes, Convertible floats t node) →
        ∀ node ∈ nodes, ∃ item, Yields floats t node item) := by
  rw [parseVector_array hnodes]
  cases hitems : nodes.mapM (convertNode floats t) with
  | none =>
    obtain ⟨node, hnode, hnone⟩ := mapM_eq_none.mp hitems -- the conversion fails, and rightly so
    refine iff_of_true rfl fun hall => ?_
    exact absurd (hall node hnode) (convertNode_eq_none.mp hnone)
  | some items =>
    have hforall := mapM_eq_some.mp hitems
    have hconvertible : ∀ node ∈ nodes, Convertible floats t node := by
      intro node hnode
      by_contra hnot
      have hnone := mapM_eq_none.mpr ⟨node, hnode, convertNode_eq_none.mpr hnot⟩
      rw [hitems] at hnone
      cases hnone
    have hresult : (if items.any (·.1) then .truncated else .success) ≠ ConversionResult.fail := by
      split <;> decide
    rw [contract_of_ne_fail hresult]
    constructor
    · rintro ⟨-, hvector⟩ -
      obtain ⟨nodes', items', hnodes', -, hyields⟩ := hvector t rfl
      rw [hnodes] at hnodes'
      cases hnodes'
      have hboth := hyields.imp fun node item h => And.intro (Exists.intro item h) h
      exact (List.forall₂_and_left _ _ |>.mp hboth).1
    · intro hright
      refine ⟨rfl, ?_⟩
      rintro _ ⟨⟩
      refine ⟨nodes, items.map (·.2), hnodes, rfl, List.forall₂_map_right_iff.mpr ?_⟩
      have hboth := (List.forall₂_and_left _ _).mpr ⟨hright hconvertible, hforall⟩
      refine hboth.imp fun node converted h => ?_
      obtain ⟨⟨item, hyields⟩, hconvert⟩ := h
      obtain ⟨truncated, hconvert'⟩ := convertNode_of_yields hyields
      obtain rfl := Option.some.inj (hconvert.symm.trans hconvert')
      exact hyields

/-- For the types other than vectors a number that is lost is all that can go wrong. -/
theorem contract_of_not_vector (htype : ∀ t, targetType ≠ .vector t) :
    Contract platform floats arg targetType
        (tweakVariantFromString platform floats arg targetType) ↔
      Keeps platform floats arg targetType := by
  cases targetType with
  | null => exact iff_of_true rfl trivial
  | bool =>
    refine iff_of_true ?_ trivial
    rw [tweakVariantFromString, parseBool]
    split
    · exact @stored_scalar _ _ _ (.bool true) (by simp [VariantOf.type])
    · split
      · exact @stored_scalar _ _ _ (.bool false) (by simp [VariantOf.type])
      · exact rfl
  | num t => exact contract_num t arg
  | string =>
    refine iff_of_true ?_ trivial
    rw [tweakVariantFromString, parseString]
    split
    · exact @stored_scalar _ _ _ (.string _) (by simp [VariantOf.type])
    · exact @stored_scalar _ _ _ (.string _) (by simp [VariantOf.type])
  | vector t => exact absurd rfl (htype t)

theorem parseVector_eq_fail (h : ¬ ∃ nodes, tweakJsonParse platform arg = some (.array nodes)) :
    parseVector platform floats t arg = (.fail, .null) := by
  simp only [parseVector]
  cases hparse : tweakJsonParse platform arg with
  | none => rfl
  | some node =>
    cases node with
    | array nodes => exact absurd ⟨nodes, hparse⟩ h
    | null | bool data | number data | string data | object fields => rfl

/-- The library with another outcome of the undefined cast. -/
def FloatLibrary.withCast (floats : FloatLibrary) (cast : BitVec 64 → BitVec 64) : FloatLibrary :=
  { floats with castUInt64 := cast }

/-- Whatever an undefined cast gives, the contract is kept exactly if no number of the text is lost,
turned around or cast out of range. -/
theorem tweakVariantFromString_contract_iff (platform : Platform) (floats : FloatLibrary)
    (arg : Text) (targetType : VariantType) :
    (∀ cast, Contract platform (floats.withCast cast) arg targetType
        (tweakVariantFromString platform (floats.withCast cast) arg targetType)) ↔
      Keeps platform floats arg targetType := by
  by_cases hvector : ∃ t, targetType = .vector t
  · obtain ⟨t, rfl⟩ := hvector
    by_cases harray : ∃ nodes, tweakJsonParse platform arg = some (.array nodes)
    · obtain ⟨nodes, hnodes⟩ := harray
      constructor
      · intro h nodes' hnodes' hconvertible node hnode
        cases hnodes.symm.trans hnodes'
        obtain ⟨item, hyields⟩ := (contract_array hnodes).mp (h fun _ => 0) hconvertible node hnode
        have hright : ¬ Mistaken (floats.withCast fun _ => 0) t node :=
          not_mistaken_of_yields (fun _ => rfl) hyields
        exact hright
      · intro h cast
        refine (contract_array hnodes).mpr fun hconvertible node hnode => ?_
        obtain ⟨⟨truncated, item⟩, hconvert⟩ := Option.ne_none_iff_exists'.mp
          fun hnone => convertNode_eq_none.mp hnone (hconvertible node hnode)
        exact ⟨item, yields_of_convertNode hconvert (h nodes hnodes hconvertible node hnode)⟩
    · refine iff_of_true (fun cast => ?_) fun nodes hnodes => absurd ⟨nodes, hnodes⟩ harray
      rw [tweakVariantFromString, parseVector_eq_fail harray]
      rfl
  · have htype (t : NumType) : targetType ≠ .vector t := fun h => hvector ⟨t, h⟩
    -- the cast concerns the elements of vectors only
    have hcast (cast : BitVec 64 → BitVec 64) :
        Keeps platform (floats.withCast cast) arg targetType ↔ Keeps platform floats arg targetType := by
      cases targetType <;> exact Iff.rfl
    exact ⟨fun h => (hcast fun _ => 0).mp ((contract_of_not_vector htype).mp (h _)),
      fun h cast => (contract_of_not_vector htype).mpr ((hcast cast).mpr h)⟩

/-- A library that reads `"1.5"` as a number. -/
def FloatLibrary.readsFraction : FloatLibrary :=
  { FloatLibrary.unused with strtod := fun s => if s = text "1.5" then some (0x3FF8000000000000, []) else none }

/-- `1.5` is converted to a signed integer with the result TRUNCATED, and to nothing. -/
theorem not_contract_fraction :
    ¬ Contract ⟨true, fun _ => []⟩ .readsFraction (text "1.5") (.num .sint32)
      (tweakVariantFromString ⟨true, fun _ => []⟩ .readsFraction (text "1.5") (.num .sint32)) := by
  have hresult : tweakVariantFromString ⟨true, fun _ => []⟩ .readsFraction (text "1.5")
      (.num .sint32) = (.truncated, .null) := by decide
  rw [hresult]
  intro h
  cases h.1

end TweakTool.Common
