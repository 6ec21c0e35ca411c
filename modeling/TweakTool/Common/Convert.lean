import Mathlib.Tactic.IntervalCases
import TweakTool.Common.Variant
import TweakTool.Json.Arrays
import TweakTool.Lib.Binary64
import TweakTool.Lib.Decimal
import TweakTool.Lib.Traverse

/-! # Variants as texts

`tweakvariant.c`: `tweak_variant_to_string` and `tweak_variant_from_string`. The texts of vectors are
read by the JSON parser. -/

namespace TweakTool.Common

open TweakTool.Lib TweakTool.Json

/-- What is used of the C library for floating point numbers. -/
structure FloatLibrary where
  print (t : NumType) : BitVec t.width → Text -- `%.17g`
  strtod : Text → Option (BitVec 64 × Text) -- with what `endp` is set to
  toFloat : BitVec 64 → BitVec 32 -- `(float) val`
  /-- `(uint64_t) val` for a value that is out of range, which is undefined. -/
  castUInt64 : BitVec 64 → BitVec 64
  /-- `powf(10.f, exponent)` and `pow(10., exponent)`. -/
  pow10 (t : NumType) (exponent : Int) : BitVec t.width

/-! ## Printing -/

def boolToString (arg : Bool) : Text := if arg then text "true" else text "false"

/-- `sint8_to_string`, …, `double_to_string`. -/
def scalarToString (floats : FloatLibrary) (t : NumType) (arg : BitVec t.width) : Text :=
  match t with
  | .sint8 | .sint16 | .sint32 | .sint64 => decimalInt arg.toInt
  | .uint8 | .uint16 | .uint32 | .uint64 => decimal arg.toNat
  | .float | .double => floats.print _ arg

/-- The elements of a vector, as an array of their C type. -/
def vectorItems (t : NumType) (bytes : List UInt8) : List (BitVec t.width) :=
  (List.range (bytes.length / t.size)).map fun ix =>
    BitVec.ofNat _ (leNat (slice bytes (ix * t.size) t.size))

/-- The loop over the elements, from `ix` on. -/
def vectorLoop (floats : FloatLibrary) (t : NumType) (result : Text) (ix : Nat) :
    List (BitVec t.width) → Text
  | [] => result
  | item :: items =>
    let result := if ix ≠ 0 then result ++ text ", " else result
    vectorLoop floats t (result ++ scalarToString floats t item) (ix + 1) items

/-- `sint8_vector_to_string`, …, `double_vector_to_string`. -/
def vectorToString (floats : FloatLibrary) (t : NumType) (array : List (BitVec t.width)) : Text :=
  vectorLoop floats t (text "[") 0 array ++ text "]"

def tweakVariantToString (floats : FloatLibrary) : Variant → Text
  | .null => text "null"
  | .bool b => boolToString b
  | .num t bits => scalarToString floats t bits
  | .string s => s
  | .vector t bytes => vectorToString floats t (vectorItems t bytes)

/-! ## Parsing -/

inductive ConversionResult where
  | success | truncated | fail
  deriving DecidableEq

/-- The result and the variant in `out`, which is empty at first. -/
abbrev Conversion := ConversionResult × Variant

def parseBool (arg : Text) : Conversion :=
  if arg = text "true" ∨ arg = text "1" then (.success, .bool true)
  else if arg = text "false" ∨ arg = text "0" then (.success, .bool false)
  else (.fail, .null)

def parseSignedInt64 (s : Text) : Option Int :=
  match strtoll s with
  | some (i, []) => some i
  | _ => none

def parseUnsignedInt64 (s : Text) : Option Nat :=
  match strtoull s with
  | some (u, []) => some u
  | _ => none

def parseFloatingPoint (floats : FloatLibrary) (s : Text) : Option (BitVec 64) :=
  match floats.strtod s with
  | some (d, []) => some d
  | _ => none

def parseGenericFloat (floats : FloatLibrary) (arg : Text) (targetType : NumType) : Conversion :=
  match parseFloatingPoint floats arg with
  | none => (.fail, .null)
  | some val =>
    match targetType with
    | .float => (.success, .num .float (floats.toFloat val))
    | .double => (.success, .num .double val)
    | _ => (.success, .null)

def coerceInt (t : NumType) (low high val : Int) : Conversion :=
  if low ≤ val ∧ val ≤ high then (.success, .num t (BitVec.ofInt _ val))
  else if val < low then (.truncated, .num t (BitVec.ofInt _ low))
  else (.truncated, .num t (BitVec.ofInt _ high))

def parseGenericInt (floats : FloatLibrary) (arg : Text) (targetType : NumType) : Conversion :=
  match parseSignedInt64 arg with
  | none =>
    -- what `val` is set to is not used, `result` stays empty
    if (parseGenericFloat floats arg .double).1 = .success then (.truncated, .null)
    else (.fail, .null)
  | some val =>
    match targetType with
    | .sint8 => coerceInt .sint8 (-2 ^ 7) (2 ^ 7 - 1) val
    | .sint16 => coerceInt .sint16 (-2 ^ 15) (2 ^ 15 - 1) val
    | .sint32 => coerceInt .sint32 (-2 ^ 31) (2 ^ 31 - 1) val
    | .sint64 => (.success, .num .sint64 (BitVec.ofInt _ val))
    | _ => (.success, .null)

def coerceUint (t : NumType) (high val : Nat) (result : ConversionResult) : Conversion :=
  if val ≤ high then (result, .num t (BitVec.ofNat _ val))
  else (.truncated, .num t (BitVec.ofNat _ high))

def uintOfVal (targetType : NumType) (val : Nat) (result : ConversionResult) : Conversion :=
  match targetType with
  | .uint8 => coerceUint .uint8 (2 ^ 8 - 1) val result
  | .uint16 => coerceUint .uint16 (2 ^ 16 - 1) val result
  | .uint32 => coerceUint .uint32 (2 ^ 32 - 1) val result
  | .uint64 => (result, .num .uint64 (BitVec.ofNat _ val))
  | _ => (result, .null)

/-- `(uint64_t) round(val)`. Only what is not negative gets here, so that a half is rounded up. -/
def roundUInt64 (floats : FloatLibrary) (d : BitVec 64) : Nat :=
  match Binary64.ofBits d with
  | .finite q =>
    if 0 ≤ round q ∧ round q < 2 ^ 64 then (round q).toNat else (floats.castUInt64 d).toNat
  | .nan | .infinity _ => (floats.castUInt64 d).toNat

/-- The value that is stored for a number that is no integer; `(double) UINT64_MAX` is `2 ^ 64`. -/
def uintOfDouble (floats : FloatLibrary) (d : BitVec 64) : Nat :=
  if (Binary64.ofBits d).above (2 ^ 64) then 2 ^ 64 - 1
  else if (Binary64.ofBits d).below 0 then 0
  else roundUInt64 floats d

def parseGenericUint (floats : FloatLibrary) (arg : Text) (targetType : NumType) : Conversion :=
  match parseUnsignedInt64 arg with
  | some val => uintOfVal targetType val .success
  | none =>
    match parseFloatingPoint floats arg with
    | none => (.fail, .null)
    | some d => uintOfVal targetType (uintOfDouble floats d) .truncated

def parseScalar (floats : FloatLibrary) (t : NumType) (arg : Text) : Conversion :=
  match t with
  | .sint8 | .sint16 | .sint32 | .sint64 => parseGenericInt floats arg t
  | .uint8 | .uint16 | .uint32 | .uint64 => parseGenericUint floats arg t
  | .float | .double => parseGenericFloat floats arg t

/-- A field of the union of a variant, which is zero in an empty one. -/
def scalarField (t : NumType) : Variant → BitVec t.width
  | .num u bits => if h : u = t then h ▸ bits else 0
  | _ => 0

/-- An element of the array, and whether it was truncated. -/
def parseItem (floats : FloatLibrary) (t : NumType) (root : Option Node) (ix : Nat) :
    Option (Bool × BitVec t.width) :=
  match tweakJsonGetArrayItem root ix typeNumber with
  | none => none
  | some itemNode =>
    match parseScalar floats t ((tweakJsonNodeAsCStr (some itemNode)).getD []) with
    | (.fail, _) => none
    | (.truncated, itemValue) => some (true, scalarField t itemValue)
    | (.success, itemValue) => some (false, scalarField t itemValue)

def vectorBytes {t : NumType} (array : List (BitVec t.width)) : List UInt8 :=
  array.flatMap fun item => leBytes t.size item.toNat

/-- `parse_vector_sint8`, …, `parse_vector_double`. -/
def parseVector (platform : Platform) (floats : FloatLibrary) (t : NumType) (arg : Text) :
    Conversion :=
  let root := tweakJsonParse platform arg
  match tweakJsonGetArraySize root with
  | none => (.fail, .null)
  | some itemCount =>
    match (List.range itemCount).mapM (parseItem floats t root) with
    | none => (.fail, .null)
    | some items =>
      (if items.any (·.1) then .truncated else .success, .vector t (vectorBytes (items.map (·.2))))

def parseString (platform : Platform) (arg : Text) : Conversion :=
  match tweakJsonParse platform arg with
  | some (.string data) => (.success, .string data)
  | _ => (.truncated, .string arg)

def tweakVariantFromString (platform : Platform) (floats : FloatLibrary) (arg : Text) :
    VariantType → Conversion
  | .null => (.fail, .null)
  | .bool => parseBool arg
  | .num t => parseScalar floats t arg
  | .string => parseString platform arg
  | .vector t => parseVector platform floats t arg

/-! ## Integers are read back -/

variable {w : Nat}

private theorem parseSignedInt64_decimalInt (arg : BitVec w) (hw : w ≤ 64) :
    parseSignedInt64 (decimalInt arg.toInt) = some arg.toInt := by
  have hle : (2 : Int) ^ (w - 1) ≤ 2 ^ 63 := by
    exact_mod_cast Nat.pow_le_pow_right (by decide : 0 < 2) (by omega : w - 1 ≤ 63)
  have hlow := BitVec.le_toInt arg
  have hhigh := BitVec.toInt_lt (x := arg)
  rw [parseSignedInt64, strtoll_decimalInt (by omega) (by omega)]

private theorem parseUnsignedInt64_decimal (arg : BitVec w) (hw : w ≤ 64) :
    parseUnsignedInt64 (decimal arg.toNat) = some arg.toNat := by
  have hlt : arg.toNat < 2 ^ 64 :=
    Nat.lt_of_lt_of_le arg.isLt (Nat.pow_le_pow_right (by decide) hw)
  rw [parseUnsignedInt64, strtoull_decimal hlt]

variable {t : NumType}

private theorem coerceInt_toInt (arg : BitVec t.width) {low high : Int} (hlow : low ≤ arg.toInt)
    (hhigh : arg.toInt ≤ high) : coerceInt t low high arg.toInt = (.success, .num t arg) := by
  rw [coerceInt, if_pos ⟨hlow, hhigh⟩, BitVec.ofInt_toInt]

private theorem coerceUint_toNat (arg : BitVec t.width) {high : Nat} (hhigh : arg.toNat ≤ high) :
    coerceUint t high arg.toNat .success = (.success, .num t arg) := by
  rw [coerceUint, if_pos hhigh, BitVec.ofNat_toNat, BitVec.setWidth_eq]

theorem toInt_bounds {k : Nat} (arg : BitVec w) (hw : w = k + 1) :
    -2 ^ k ≤ arg.toInt ∧ arg.toInt ≤ 2 ^ k - 1 := by
  subst hw
  have hlow := BitVec.le_toInt arg
  have hhigh := BitVec.toInt_lt (x := arg)
  rw [Nat.add_sub_cancel] at hlow hhigh
  omega

/-- An integer is read as it was printed. -/
theorem parseScalar_toString (floats : FloatLibrary) (ht : t.isInteger) (arg : BitVec t.width) :
    parseScalar floats t (scalarToString floats t arg) = (.success, .num t arg) := by
  have hsigned : t.width ≤ 64 → parseSignedInt64 (decimalInt arg.toInt) = some arg.toInt :=
    parseSignedInt64_decimalInt arg
  have hunsigned : t.width ≤ 64 → parseUnsignedInt64 (decimal arg.toNat) = some arg.toNat :=
    parseUnsignedInt64_decimal arg
  cases t with
  | float => cases ht
  | double => cases ht
  | sint8 =>
    have hbounds := toInt_bounds arg (k := 7) rfl
    simp only [parseScalar, scalarToString, parseGenericInt, hsigned (by decide)]
    exact coerceInt_toInt arg hbounds.1 hbounds.2
  | sint16 =>
    have hbounds := toInt_bounds arg (k := 15) rfl
    simp only [parseScalar, scalarToString, parseGenericInt, hsigned (by decide)]
    exact coerceInt_toInt arg hbounds.1 hbounds.2
  | sint32 =>
    have hbounds := toInt_bounds arg (k := 31) rfl
    simp only [parseScalar, scalarToString, parseGenericInt, hsigned (by decide)]
    exact coerceInt_toInt arg hbounds.1 hbounds.2
  | sint64 =>
    simp only [parseScalar, scalarToString, parseGenericInt, hsigned (by decide),
      BitVec.ofInt_toInt]
  | uint8 =>
    simp only [parseScalar, scalarToString, parseGenericUint, hunsigned (by decide)]
    exact coerceUint_toNat arg (Nat.le_sub_one_of_lt arg.isLt)
  | uint16 =>
    simp only [parseScalar, scalarToString, parseGenericUint, hunsigned (by decide)]
    exact coerceUint_toNat arg (Nat.le_sub_one_of_lt arg.isLt)
  | uint32 =>
    simp only [parseScalar, scalarToString, parseGenericUint, hunsigned (by decide)]
    exact coerceUint_toNat arg (Nat.le_sub_one_of_lt arg.isLt)
  | uint64 =>
    simp only [parseScalar, scalarToString, parseGenericUint, hunsigned (by decide), uintOfVal,
      BitVec.ofNat_toNat, BitVec.setWidth_eq]

/-! ## Arrays of numbers are read back -/

private theorem mem_of_isDigit {c : UInt8} (h : isDigit c) : c ∈ text "-0123456789" := by
  simp only [isDigit, decide_eq_true_eq] at h
  rw [← UInt8.ofNat_toNat (x := c)]
  generalize c.toNat = n at h
  obtain ⟨hlow, hhigh⟩ := h
  interval_cases n <;> decide

theorem valid_decimal {n : Nat} (hn : n < 10 ^ 20) : (Leaf.number (decimal n)).Valid := by
  have hall : ∀ c ∈ text "-0123456789", c ∈ numberChars := by decide
  obtain ⟨c, s, hs⟩ := List.exists_cons_of_ne_nil (decimal_ne_nil n)
  refine ⟨⟨c, by rw [hs]; rfl, ?_⟩, fun d hd => hall d (mem_of_isDigit (isDigit_of_mem_decimal hd)), ?_⟩
  · exact mem_of_isDigit (isDigit_of_mem_decimal (by rw [hs]; exact List.mem_cons_self))
  · exact Nat.le_trans (length_decimal_le (k := 19) hn) (by decide)

theorem valid_decimalInt {i : Int} (hi : i.natAbs < 10 ^ 20) :
    (Leaf.number (decimalInt i)).Valid := by
  rw [decimalInt]
  split
  · obtain ⟨-, hall, hlength⟩ := valid_decimal hi
    refine ⟨⟨ascii '-', rfl, by decide⟩, List.forall_mem_cons.mpr ⟨by decide, hall⟩, ?_⟩
    have := length_decimal_le (k := 19) hi
    rw [List.length_cons]
    omega
  · exact valid_decimal hi

/-- A printed integer is a number of the grammar. -/
theorem valid_scalarToString (floats : FloatLibrary) (ht : t.isInteger) (arg : BitVec t.width) :
    (Leaf.number (scalarToString floats t arg)).Valid := by
  have hsize : t.width ≤ 64 := by cases t <;> decide
  have hpow : 2 ^ t.width < 10 ^ 20 :=
    Nat.lt_of_le_of_lt (Nat.pow_le_pow_right (by decide) hsize) (by decide)
  have hnat : arg.toNat < 10 ^ 20 := Nat.lt_trans arg.isLt hpow
  have hint : arg.toInt.natAbs < 10 ^ 20 := by
    have hlow := BitVec.le_two_mul_toInt (x := arg)
    have hhigh := BitVec.two_mul_toInt_lt (x := arg)
    have hpow' : (2 : Int) ^ t.width < 10 ^ 20 := by exact_mod_cast hpow
    omega
  cases t with
  | float => cases ht
  | double => cases ht
  | sint8 => exact valid_decimalInt hint
  | sint16 => exact valid_decimalInt hint
  | sint32 => exact valid_decimalInt hint
  | sint64 => exact valid_decimalInt hint
  | uint8 => exact valid_decimal hnat
  | uint16 => exact valid_decimal hnat
  | uint32 => exact valid_decimal hnat
  | uint64 => exact valid_decimal hnat

def numberEntries : List Text → Entries
  | [] => .nil
  | spelling :: spellings => .cons none (.leaf (.number spelling)) (numberEntries spellings)

section Arrays

variable {platform : Platform} {spellings : List Text}

/-- The elements after the first one, as they are printed. -/
def printedTail (spellings : List Text) : Text :=
  spellings.flatMap (fun spelling => text ", " ++ spelling) ++ text "]"

private theorem numberEntries_eq (spellings : List Text) :
    numberEntries spellings = .unlabelled (spellings.map fun s => .leaf (.number s)) := by
  induction spellings with
  | nil => rfl
  | cons spelling spellings ih => rw [numberEntries, ih, List.map_cons, Entries.unlabelled]

theorem depth_numberEntries (spellings : List Text) : (numberEntries spellings).depth = 0 := by
  induction spellings with
  | nil => rfl
  | cons spelling spellings ih => simp only [numberEntries, Entries.depth, Value.depth, ih, Nat.max_self]

/-- A printed array of numbers is read. -/
theorem tweakJsonParse_numbers {spelling : Text}
    (hvalid : ∀ s ∈ spelling :: spellings, (Leaf.number s).Valid) :
    tweakJsonParse platform (text "[" ++ (spelling ++ printedTail spellings)) =
      some (.array ((spelling :: spellings).map .number)) := by
  have hprinted := printed_array fun s hs => printed_number (hvalid s hs)
  have hdepth : (Value.node .array (numberEntries (spelling :: spellings))).depth < 64 := by
    rw [Value.depth, depth_numberEntries]
    decide
  have htext : text "[" ++ (text ", ").intercalate ((spelling :: spellings).map fun s => s) ++ text "]" =
      text "[" ++ (spelling ++ printedTail spellings) := by
    rw [List.map_id', List.append_assoc, intercalate_arrayTail]
    rfl
  rw [htext, ← numberEntries_eq] at hprinted
  rw [hprinted.tweakJsonParse, if_pos hdepth]

end Arrays

/-! ## The round trip -/

/-- The loop puts a comma in front of each further element. -/
theorem vectorLoop_eq (floats : FloatLibrary) (t : NumType) {ix : Nat} (hix : ix ≠ 0)
    (result : Text) (items : List (BitVec t.width)) :
    vectorLoop floats t result ix items ++ text "]" =
      result ++ printedTail (items.map (scalarToString floats t)) := by
  induction items generalizing result ix with
  | nil => rfl
  | cons item items ih =>
    rw [vectorLoop, if_pos hix, ih (Nat.succ_ne_zero ix), printedTail, printedTail, List.map_cons,
      List.flatMap_cons]
    simp only [List.append_assoc]

theorem vectorToString_cons (floats : FloatLibrary) (t : NumType) (item : BitVec t.width)
    (items : List (BitVec t.width)) :
    vectorToString floats t (item :: items) = text "[" ++ (scalarToString floats t item ++
      printedTail (items.map (scalarToString floats t))) := by
  rw [vectorToString, vectorLoop, if_neg (by simp), vectorLoop_eq floats t (by decide),
    List.append_assoc]

theorem slice_append_of_le {a b : Bytes} {offset n : Nat} (h : a.length ≤ offset) :
    slice (a ++ b) offset n = slice b (offset - a.length) n := by
  rw [slice, slice, List.drop_append, List.drop_eq_nil_of_le h, List.nil_append]

/-- An array of integers is what its bytes are taken for. -/
theorem vectorItems_vectorBytes (items : List (BitVec t.width)) :
    vectorItems t (vectorBytes items) = items := by
  have hsize : 0 < t.size := by cases t <;> decide
  induction items with
  | nil => simp [vectorItems, vectorBytes]
  | cons item items ih =>
    have hbytes : vectorBytes (item :: items) = leBytes t.size item.toNat ++ vectorBytes items := rfl
    have hcount : (vectorBytes (item :: items)).length / t.size =
        (vectorBytes items).length / t.size + 1 := by
      rw [hbytes, List.length_append, length_leBytes, Nat.add_div_left _ hsize]
    have hfirst : slice (vectorBytes (item :: items)) (0 * t.size) t.size =
        leBytes t.size item.toNat := by
      rw [hbytes, Nat.zero_mul, slice, List.drop_zero]
      exact List.take_left' (length_leBytes _ _)
    have hrest : ∀ ix, slice (vectorBytes (item :: items)) ((ix + 1) * t.size) t.size =
        slice (vectorBytes items) (ix * t.size) t.size := by
      intro ix
      rw [hbytes, slice_append_of_le (by rw [length_leBytes]; exact Nat.le_mul_of_pos_left _ (by omega)),
        length_leBytes, Nat.add_mul, Nat.one_mul, Nat.add_sub_cancel]
    have hitem : BitVec.ofNat t.width (leNat (leBytes t.size item.toNat)) = item := by
      have hlt : item.toNat < 256 ^ t.size := by
        have := item.isLt
        rwa [show 2 ^ t.width = 256 ^ t.size by rw [Nat.pow_mul]] at this
      rw [leNat_leBytes hlt, BitVec.ofNat_toNat, BitVec.setWidth_eq]
    rw [vectorItems, hcount, List.range_succ_eq_map, List.map_cons, List.map_map, hfirst, hitem]
    simp only [Function.comp_def, Nat.succ_eq_add_one, hrest]
    exact congrArg _ ih

theorem scalarField_num (bits : BitVec t.width) : scalarField t (.num t bits) = bits :=
  dif_pos rfl

private theorem parseItem_numbers (floats : FloatLibrary) (ht : t.isInteger)
    (items : List (BitVec t.width)) {ix : Nat} (hix : ix < items.length) :
    parseItem floats t (some (.array ((items.map (scalarToString floats t)).map .number))) ix =
      some (false, items[ix]) := by
  simp [parseItem, tweakJsonGetArrayItem, hix, masked, Node.type, typeNumber, tweakJsonNodeAsCStr,
    parseScalar_toString floats ht, scalarField_num]

/-- A printed vector is read as an array of numbers. -/
theorem tweakJsonParse_vectorToString (platform : Platform) (floats : FloatLibrary)
    (ht : t.isInteger) {items : List (BitVec t.width)} (hne : items ≠ []) :
    tweakJsonParse platform (vectorToString floats t items) =
      some (.array ((items.map (scalarToString floats t)).map .number)) := by
  obtain ⟨item, rest, rfl⟩ := List.exists_cons_of_ne_nil hne
  rw [vectorToString_cons]
  refine tweakJsonParse_numbers ?_
  rw [← List.map_cons]
  intro s hs
  obtain ⟨arg, -, rfl⟩ := List.mem_map.mp hs
  exact valid_scalarToString floats ht arg

/-- A vector of integers is read as it was printed. -/
theorem parseVector_toString (platform : Platform) (floats : FloatLibrary) (ht : t.isInteger)
    {items : List (BitVec t.width)} (hne : items ≠ []) :
    parseVector platform floats t (vectorToString floats t items) =
      (.success, .vector t (vectorBytes items)) := by
  have hroot := tweakJsonParse_vectorToString platform floats ht hne
  have hmap : (List.range items.length).mapM (parseItem floats t
      (some (.array ((items.map (scalarToString floats t)).map .number)))) =
      some (items.map (false, ·)) := by
    rw [mapM_range (g := fun item => some (false, item)) (parseItem_numbers floats ht items)]
    exact List.mapM_pure
  simp only [parseVector, hroot, tweakJsonGetArraySize, List.length_map, hmap]
  simp [List.any_eq_true, Function.comp_def]

/-- The values that the round trip is about: `bool`, integers, and vectors of integers with at least
one element. -/
inductive IntegerValue : Variant → Prop
  | bool (b : Bool) : IntegerValue (.bool b)
  | num {t : NumType} (bits : BitVec t.width) : t.isInteger → IntegerValue (.num t bits)
  | vector {t : NumType} {items : List (BitVec t.width)} : t.isInteger → items ≠ [] →
    IntegerValue (.vector t (vectorBytes items))

/-- What is printed for a value is read back as that value. -/
theorem tweakVariantFromString_toString (platform : Platform) (floats : FloatLibrary) {v : Variant}
    (hv : IntegerValue v) :
    tweakVariantFromString platform floats (tweakVariantToString floats v) v.type = (.success, v) ∧
      tweakVariantIsEqual v v := by
  cases hv with
  | bool b => cases b <;> exact ⟨rfl, rfl⟩
  | @num t bits ht =>
    exact ⟨parseScalar_toString floats ht bits,
      (tweakVariantIsEqual_iff (a := .num t bits) ht).mpr rfl⟩
  | @vector t items ht hne =>
    refine ⟨?_, by simp [tweakVariantIsEqual]⟩
    rw [tweakVariantToString, vectorItems_vectorBytes]
    exact parseVector_toString platform floats ht hne

/-- No floating point number is printed or read. -/
def FloatLibrary.unused : FloatLibrary where
  print _ _ := []
  strtod _ := none
  toFloat _ := 0
  castUInt64 _ := 0
  pow10 _ _ := 0

/-- The extreme values of `int8_t`. -/
theorem tweakVariantFromString_toString_extreme :
    tweakVariantFromString ⟨true, fun _ => []⟩ .unused
        (tweakVariantToString .unused (.vector .sint8 (vectorBytes (t := .sint8) [-128, 127])))
        (.vector .sint8) =
      (.success, .vector .sint8 (vectorBytes (t := .sint8) [-128, 127])) :=
  (tweakVariantFromString_toString ⟨true, fun _ => []⟩ .unused (.vector rfl (by decide))).1

end TweakTool.Common
