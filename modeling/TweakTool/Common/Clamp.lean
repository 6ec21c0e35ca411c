import TweakTool.Common.Convert

/-! # Integers that do not fit

An integer type takes the integer that a text spells if it can, and otherwise the one it has that is
nearest. The code leaves the first step to `strtoll` and `strtoull`, whose own range is that of 64
bits, and compares what they return with the limits of the type. -/

namespace TweakTool.Common

open TweakTool.Lib TweakTool.Json

/-! ## Ranges -/

def isSigned : NumType → Bool
  | .sint8 | .sint16 | .sint32 | .sint64 => true
  | _ => false

/-- The integer that a bit pattern of an integer type stands for. -/
def numValue (t : NumType) (bits : BitVec t.width) : Int :=
  if isSigned t then bits.toInt else bits.toNat

/-- `INT8_MIN`, …, and 0 for the unsigned types. -/
def lowest (t : NumType) : Int := if isSigned t then -2 ^ (t.width - 1) else 0

/-- `INT8_MAX`, …, `UINT64_MAX`. -/
def highest (t : NumType) : Int := if isSigned t then 2 ^ (t.width - 1) - 1 else 2 ^ t.width - 1

def InRange (t : NumType) (z : Int) : Prop := lowest t ≤ z ∧ z ≤ highest t

instance (t : NumType) (z : Int) : Decidable (InRange t z) := inferInstanceAs (Decidable (_ ∧ _))

def Nearest (t : NumType) (z : Int) (bits : BitVec t.width) : Prop :=
  ∀ other, (numValue t bits - z).natAbs ≤ (numValue t other - z).natAbs

def clamp (t : NumType) (z : Int) : Int := max (lowest t) (min (highest t) z)

variable {t : NumType}

theorem inRange_numValue (ht : t.isInteger) (bits : BitVec t.width) :
    InRange t (numValue t bits) := by
  have hnat : bits.toNat < 2 ^ t.width := bits.isLt
  have hlow := BitVec.le_toInt bits
  have hhigh := BitVec.toInt_lt (x := bits)
  cases t with
  | float | double => cases ht
  | sint8 | sint16 | sint32 | sint64 =>
    exact ⟨hlow, Int.le_sub_one_of_lt hhigh⟩
  | uint8 | uint16 | uint32 | uint64 =>
    refine ⟨Int.natCast_nonneg _, Int.le_sub_one_of_lt ?_⟩
    show (bits.toNat : Int) < 2 ^ NumType.width _
    exact_mod_cast hnat

variable {z : Int}

/-- The bits of an integer in the range stand for it. -/
theorem numValue_ofInt (ht : t.isInteger) (hz : InRange t z) :
    numValue t (BitVec.ofInt _ z) = z := by
  obtain ⟨hlow, hhigh⟩ := hz
  cases t with
  | float | double => cases ht
  | sint8 | sint16 | sint32 | sint64 =>
    exact BitVec.toInt_ofInt_eq_self (by decide) hlow (Int.lt_of_le_sub_one hhigh)
  | uint8 | uint16 | uint32 | uint64 =>
    have hlow : 0 ≤ z := hlow
    have hmod := Int.emod_eq_of_lt hlow (Int.lt_of_le_sub_one hhigh)
    simp only [numValue, isSigned, BitVec.toNat_ofInt, Bool.false_eq_true, if_false]
    rw [Int.toNat_of_nonneg (Int.emod_nonneg _ (by decide))]
    exact_mod_cast hmod

theorem lowest_le_highest (t : NumType) : lowest t ≤ highest t := by cases t <;> decide

theorem inRange_clamp (t : NumType) (z : Int) : InRange t (clamp t z) := by
  have hrange := lowest_le_highest t
  rw [InRange, clamp]
  omega

theorem clamp_of_inRange (h : InRange t z) : clamp t z = z := by
  rw [InRange] at h
  rw [clamp]
  omega

/-- There is one nearest value. -/
theorem nearest_iff (ht : t.isInteger) {bits : BitVec t.width} :
    Nearest t z bits ↔ numValue t bits = clamp t z := by
  have hbits := inRange_numValue ht bits
  constructor
  · intro hnearest
    have hclamp := hnearest (BitVec.ofInt _ (clamp t z))
    rw [numValue_ofInt ht (inRange_clamp t z)] at hclamp
    rw [InRange] at hbits
    rw [clamp] at hclamp ⊢
    omega
  · intro heq other
    have hother := inRange_numValue ht other
    rw [InRange] at hother
    rw [heq, clamp]
    omega

/-! ## What is read -/

/-- The integer that has a minus sign or not, and the magnitude `n`. -/
def intOf (negative : Bool) (n : Nat) : Int := if negative then -n else n

private theorem intOf_natAbs (z : Int) : intOf (z < 0) z.natAbs = z := by
  simp only [intOf, decide_eq_true_eq]
  omega

/-- What `strtoll` or `strtoull` returns, whichever is used for the type, for an integer that is
negative or not and has the magnitude `n`. -/
def machineValue (t : NumType) (negative : Bool) (n : Nat) : Int :=
  if isSigned t then if negative then max (-n) (-2 ^ 63) else min n (2 ^ 63 - 1)
  else
    ((if 2 ^ 64 ≤ n then 2 ^ 64 - 1 else if negative then (2 ^ 64 - n) % 2 ^ 64 else n : Nat) : Int)

/-- The result of `COERCE_INT` and `COERCE_UINT`. -/
def coerced (t : NumType) (val : Int) : Conversion :=
  (if InRange t val then .success else .truncated, .num t (BitVec.ofInt _ (clamp t val)))

theorem coerced_of_inRange {val : Int} (h : InRange t val) :
    coerced t val = (.success, .num t (BitVec.ofInt _ val)) := by
  rw [coerced, if_pos h, clamp_of_inRange h]

private theorem coerceInt_eq {low high : Int} (hlow : lowest t = low) (hhigh : highest t = high)
    (val : Int) : coerceInt t low high val = coerced t val := by
  have hrange := lowest_le_highest t
  subst hlow hhigh
  rw [coerceInt]
  by_cases hin : InRange t val
  · rw [coerced_of_inRange hin]
    exact if_pos hin
  · refine (if_neg hin).trans ?_
    rw [coerced, if_neg hin]
    rw [InRange] at hin
    split
    · next hbelow =>
      have hclamp : clamp t val = lowest t := by rw [clamp]; omega
      rw [hclamp]
    · next hbelow =>
      have hclamp : clamp t val = highest t := by rw [clamp]; omega
      rw [hclamp]

theorem coerceUint_eq {high : Nat} (hlow : lowest t = 0) (hhigh : highest t = high) (val : Nat)
    (result : ConversionResult) :
    coerceUint t high val result =
      (if InRange t val then result else .truncated, .num t (BitVec.ofInt _ (clamp t val))) := by
  rw [coerceUint]
  by_cases hval : val ≤ high
  · have hin : InRange t val := by
      rw [InRange]
      omega
    rw [clamp_of_inRange hin, if_pos hin, if_pos hval, BitVec.ofInt_natCast]
  · have hin : ¬ InRange t val := by
      rw [InRange]
      omega
    have hclamp : clamp t val = (high : Nat) := by
      rw [clamp]
      omega
    rw [if_neg hval, if_neg hin, hclamp, BitVec.ofInt_natCast]

variable {s : Text} {negative : Bool} {n : Nat}

private theorem parseSignedInt64_of_scan (h : scanInteger s = some (negative, n, [])) :
    parseSignedInt64 s = some (if negative then max (-n : Int) (-2 ^ 63) else min n (2 ^ 63 - 1)) := by
  rw [parseSignedInt64, strtoll, h]
  rfl

private theorem parseUnsignedInt64_of_scan (h : scanInteger s = some (negative, n, [])) :
    parseUnsignedInt64 s =
      some (if 2 ^ 64 ≤ n then 2 ^ 64 - 1 else if negative then (2 ^ 64 - n) % 2 ^ 64 else n) := by
  rw [parseUnsignedInt64, strtoull, h]
  rfl

/-- A text that is an integer is converted by what `strtoll` or `strtoull` makes of it. -/
theorem parseScalar_of_scan (floats : FloatLibrary) (ht : t.isInteger)
    (h : scanInteger s = some (negative, n, [])) :
    parseScalar floats t s = coerced t (machineValue t negative n) := by
  have hsigned := parseSignedInt64_of_scan h
  have hunsigned := parseUnsignedInt64_of_scan h
  cases t with
  | float | double => cases ht
  | sint8 | sint16 | sint32 =>
    simp only [parseScalar, parseGenericInt, hsigned]
    refine coerceInt_eq ?_ ?_ _ <;> decide
  | sint64 =>
    have hin : InRange .sint64 (machineValue .sint64 negative n) := by
      have hlow : lowest .sint64 = -2 ^ 63 := rfl
      have hhigh : highest .sint64 = 2 ^ 63 - 1 := rfl
      simp only [InRange, machineValue, hlow, hhigh, isSigned, if_true]
      split <;> omega
    rw [coerced_of_inRange hin]
    simp only [parseScalar, parseGenericInt, hsigned]
    rfl
  | uint8 | uint16 | uint32 =>
    simp only [parseScalar, parseGenericUint, hunsigned, uintOfVal]
    refine coerceUint_eq ?_ ?_ _ _ <;> decide
  | uint64 =>
    have hin : InRange .uint64 (machineValue .uint64 negative n) := by
      have hlow : lowest .uint64 = 0 := rfl
      have hhigh : highest .uint64 = 2 ^ 64 - 1 := rfl
      simp only [InRange, machineValue, hlow, hhigh, isSigned, Bool.false_eq_true, if_false]
      split
      · omega
      · split <;> omega
    rw [coerced_of_inRange hin]
    simp only [parseScalar, parseGenericUint, hunsigned, uintOfVal]
    rfl

/-! ## Decimal integers -/

/-- The code does what it should for an integer in decimal notation. -/
def Clamps (platform : Platform) (floats : FloatLibrary) (t : NumType) (z : Int) : Prop :=
  ∃ bits, tweakVariantFromString platform floats (decimalInt z) (.num t) =
    (if InRange t z then .success else .truncated, .num t bits) ∧ Nearest t z bits

/-- The conversion is right if reading the digits leaves the nearest value the same. -/
theorem clamps_iff (platform : Platform) (floats : FloatLibrary) (ht : t.isInteger) (z : Int) :
    Clamps platform floats t z ↔
      (InRange t (machineValue t (z < 0) z.natAbs) ↔ InRange t z) ∧
        clamp t (machineValue t (z < 0) z.natAbs) = clamp t z := by
  have hread : tweakVariantFromString platform floats (decimalInt z) (.num t) =
      coerced t (machineValue t (z < 0) z.natAbs) :=
    parseScalar_of_scan floats ht (scanInteger_decimalInt z)
  generalize machineValue t (z < 0) z.natAbs = val at hread
  have hvalue := numValue_ofInt ht (inRange_clamp t val)
  rw [Clamps, hread, coerced]
  constructor
  · rintro ⟨bits, heq, hnearest⟩
    obtain ⟨hresult, hbits⟩ := Prod.mk.inj heq
    cases hbits
    refine ⟨?_, hvalue.symm.trans ((nearest_iff ht).mp hnearest)⟩
    by_cases hval : InRange t val <;> by_cases hz : InRange t z <;> simp_all
  · rintro ⟨hiff, hclamp⟩
    refine ⟨BitVec.ofInt _ (clamp t val), ?_, (nearest_iff ht).mpr (hvalue.trans hclamp)⟩
    simp only [hiff]

/-- `strtoll` stops at the ends of 64 bits. -/
theorem machineValue_signed (h : isSigned t = true) (negative : Bool) (n : Nat) :
    machineValue t negative n = max (-2 ^ 63) (min (2 ^ 63 - 1) (intOf negative n)) := by
  simp only [machineValue, intOf, h, if_true]
  split <;> omega

/-- `strtoull` stops at the upper end. -/
theorem machineValue_unsigned (h : isSigned t = false) (n : Nat) :
    machineValue t false n = min (2 ^ 64 - 1) n := by
  simp only [machineValue, h, Bool.false_eq_true, if_false]
  split <;> omega

/-- Negation modulo `2 ^ 64` makes a positive number of a negative one. -/
theorem machineValue_negative (h : isSigned t = false) (hn : 0 < n) :
    0 < machineValue t true n := by
  simp only [machineValue, h, Bool.false_eq_true, if_false, if_true]
  split <;> omega

/-- The 64-bit types have the range of `strtoll` and `strtoull`; the others lie well within it. -/
theorem limits_signed (h : isSigned t = true) :
    t.width = 64 ∧ lowest t = -2 ^ 63 ∧ highest t = 2 ^ 63 - 1 ∨
      t.width ≠ 64 ∧ -2 ^ 63 < lowest t ∧ highest t < 2 ^ 63 - 1 := by
  cases t with
  | sint8 | sint16 | sint32 | sint64 => decide
  | uint8 | uint16 | uint32 | uint64 | float | double => cases h

/-- The range of an unsigned type starts at zero. -/
theorem limits_unsigned (ht : t.isInteger) (h : isSigned t = false) :
    lowest t = 0 ∧ 0 < highest t ∧
      (t.width = 64 ∧ highest t = 2 ^ 64 - 1 ∨ t.width ≠ 64 ∧ highest t < 2 ^ 64 - 1) := by
  cases t with
  | sint8 | sint16 | sint32 | sint64 => cases h
  | uint8 | uint16 | uint32 | uint64 => decide
  | float | double => cases ht

/-- An integer is clamped to the type exactly if it is not negative where the type is unsigned, and
does not exceed 64 bits where the type has as many. -/
theorem tweakVariantFromString_clamps_iff (platform : Platform) (floats : FloatLibrary)
    {t : NumType} (ht : t.isInteger) (z : Int) :
    Clamps platform floats t z ↔
      (isSigned t = false → 0 ≤ z) ∧ (t.width = 64 → InRange t z) := by
  rw [clamps_iff platform floats ht]
  have hrange := lowest_le_highest t
  cases hsigned : isSigned t with
  | true =>
    have hlimits := limits_signed hsigned
    rw [machineValue_signed hsigned, intOf_natAbs]
    simp only [InRange, clamp, Bool.true_eq_false, false_imp_iff, true_and]
    omega
  | false =>
    have hlimits := limits_unsigned ht hsigned
    simp only [InRange, clamp, forall_const]
    rcases Int.lt_or_le z 0 with hz | hz
    · have hpos := machineValue_negative hsigned (Int.natAbs_pos.mpr (Int.ne_of_lt hz))
      rw [decide_eq_true hz]
      omega
    · rw [decide_eq_false (Int.not_lt.mpr hz), machineValue_unsigned hsigned]
      omega

/-- A text far beyond the range of `strtoll`. -/
theorem tweakVariantFromString_clamps_sint8 :
    Clamps ⟨true, fun _ => []⟩ .unused .sint8 (-10 ^ 30) :=
  (tweakVariantFromString_clamps_iff ⟨true, fun _ => []⟩ .unused rfl _).mpr ⟨by decide, by decide⟩

/-- `"-1"` becomes 255. -/
theorem not_clamps_minus_one : ¬ Clamps ⟨true, fun _ => []⟩ .unused .uint8 (-1) := by
  rw [clamps_iff _ _ rfl]
  decide

end TweakTool.Common
