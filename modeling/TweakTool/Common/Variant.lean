import Mathlib.Data.List.Basic
import Mathlib.Algebra.Ring.Nat

/-! # Tweak ids and variants

`types.h` and `variant.h`: the ids of tweak items and the tagged union that holds their values.

A numeric value is kept as the bit pattern it has in memory, at the width of its C type; what
distinguishes `int16_t` from `uint16_t` is the tag alone, as in the union of the source. The
representation of strings and of vector storage is a parameter: the application layer only sees
texts and byte sequences (`Variant`), the pickle layer works on the objects of `string.h` and
`buffer.h` themselves. -/

namespace TweakTool

/-- `tweak_id`. Ids come from a 64-bit counter that is never reset. -/
abbrev TweakId := Nat

def tweakInvalidId : TweakId := 0

/-- The contents of a C string, without its terminator. -/
abbrev Text := List UInt8

/-! ## Types -/

/-- The numeric element types, scalar or inside a vector. -/
inductive NumType where
  | sint8 | sint16 | sint32 | sint64
  | uint8 | uint16 | uint32 | uint64
  | float | double
  deriving DecidableEq, Repr

def NumType.size : NumType → Nat
  | .sint8 | .uint8 => 1
  | .sint16 | .uint16 => 2
  | .sint32 | .uint32 | .float => 4
  | .sint64 | .uint64 | .double => 8

abbrev NumType.width (t : NumType) : Nat := 8 * t.size

/-- The integer types, as opposed to the two floating point types. -/
def NumType.isInteger : NumType → Bool
  | .float | .double => false
  | _ => true

inductive VariantType where
  | null
  | bool
  | num (t : NumType)
  | string
  | vector (t : NumType)
  deriving DecidableEq, Repr

/-! ## Values -/

/-- `tweak_variant`, over a type `S` of strings and a type `B` of buffers. -/
inductive VariantOf (S B : Type) where
  | null
  | bool (b : Bool)
  | num (t : NumType) (bits : BitVec t.width)
  | string (string : S)
  | vector (t : NumType) (buffer : B)
  deriving DecidableEq

/-- A variant as the application layer sees it: the text of a string, the bytes of a vector. -/
abbrev Variant := VariantOf Text (List UInt8)

def VariantOf.type {S B : Type} : VariantOf S B → VariantType
  | .null => .null
  | .bool _ => .bool
  | .num t _ => .num t
  | .string _ => .string
  | .vector t _ => .vector t

/-- The `size` field of the buffer of a vector; no other variant has one. -/
def Variant.bufferSize : Variant → Nat
  | .vector _ bytes => bytes.length
  | _ => 0

/-! ## Equality

`==` on `float` and `double` is not equality of bit patterns: no NaN equals anything, and the
two zeros are equal. -/

/-- `==` of two numbers with `e` exponent and `m` mantissa bits, given by their bit patterns. -/
def fpEqual (e m : Nat) (a b : Nat) : Bool :=
  let magnitude (x : Nat) := x % 2 ^ (e + m)
  let isNaN (x : Nat) := decide ((2 ^ e - 1) * 2 ^ m < magnitude x)
  !isNaN a && !isNaN b && (a == b || (magnitude a == 0 && magnitude b == 0))

/-- `==` on two numbers of one C type. -/
def numEqual (t : NumType) (a b : BitVec t.width) : Bool :=
  match t with
  | .float => fpEqual 8 23 a.toNat b.toNat
  | .double => fpEqual 11 52 a.toNat b.toNat
  | _ => a.toNat == b.toNat

/-- `tweak_variant_is_equal`. Two nulls are not equal; `memcmp` compares the bytes of vectors. -/
def tweakVariantIsEqual : Variant → Variant → Bool
  | .bool a, .bool b => a == b
  | .num t a, .num u b => if h : t = u then numEqual u (h ▸ a) b else false
  | .string a, .string b => a == b
  | .vector t a, .vector u b => t == u && a == b
  | _, _ => false

/-- `bool` and the integer types: those whose `==` compares bit patterns. -/
def VariantType.isBoolOrInteger : VariantType → Bool
  | .bool => true
  | .num t => t.isInteger
  | _ => false

/-- On bool and integer values `tweak_variant_is_equal` is equality. -/
theorem tweakVariantIsEqual_iff {a b : Variant} (ha : a.type.isBoolOrInteger = true) :
    tweakVariantIsEqual a b = true ↔ a = b := by
  cases a with
  | bool x => cases b <;> simp [tweakVariantIsEqual]
  | num t x =>
    cases b with
    | num u y =>
      by_cases htu : t = u
      · subst htu
        have hnum : numEqual t x y = (x.toNat == y.toNat) := by
          cases t <;> first | rfl | cases ha
        simp [tweakVariantIsEqual, hnum, BitVec.toNat_inj]
      · simp [tweakVariantIsEqual, htu]
    | _ => simp [tweakVariantIsEqual]
  | _ => cases ha

private theorem fpEqual_comm (e m a b : Nat) : fpEqual e m a b = fpEqual e m b a := by
  simp only [fpEqual, BEq.comm (a := a) (b := b), Bool.and_comm]

theorem numEqual_comm (t : NumType) (a b : BitVec t.width) : numEqual t a b = numEqual t b a := by
  cases t with
  | float | double => exact fpEqual_comm _ _ _ _
  | _ => exact BEq.comm

theorem tweakVariantIsEqual_comm (a b : Variant) :
    tweakVariantIsEqual a b = tweakVariantIsEqual b a := by
  cases a with
  | num t x =>
    cases b with
    | num u y =>
      by_cases htu : t = u
      · subst htu
        simp only [tweakVariantIsEqual, dif_pos]
        exact numEqual_comm t x y
      · simp only [tweakVariantIsEqual, dif_neg htu, dif_neg (Ne.symm htu)]
    | _ => rfl
  | bool x => cases b <;> first | rfl | exact BEq.comm
  | string x => cases b <;> first | rfl | exact BEq.comm
  | vector t x =>
    cases b with
    | vector u y => exact congrArg₂ and BEq.comm BEq.comm
    | _ => rfl
  | null => cases b <;> rfl

end TweakTool
