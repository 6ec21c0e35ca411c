import Mathlib.Algebra.Order.Round
import Mathlib.Data.Rat.Floor
import Mathlib.Tactic.Linarith

/-! # Floating point numbers of 64 bits

What a bit pattern stands for, as a rational number where it is finite; and integers that are nearest
to a rational number within given bounds. -/

namespace TweakTool.Lib

inductive Binary64 where
  | nan
  | infinity (negative : Bool)
  | finite (value : ℚ)

namespace Binary64

/-- A sign, eleven bits of exponent and 52 of the significand, whose first bit is implied. -/
def ofBits (bits : BitVec 64) : Binary64 :=
  let exponent : Nat := bits.toNat / 2 ^ 52 % 2 ^ 11
  let fraction : Nat := bits.toNat % 2 ^ 52
  if exponent = 2 ^ 11 - 1 then if fraction = 0 then .infinity bits.msb else .nan
  else
    let significand : Nat := if exponent = 0 then fraction else 2 ^ 52 + fraction
    let magnitude : ℚ := significand * 2 ^ max exponent 1 / 2 ^ 1075
    .finite (if bits.msb then -magnitude else magnitude)

/-- Comparisons with a number that is not finite; those with `nan` are false. -/
def above (bound : ℚ) : Binary64 → Bool
  | .nan => false
  | .infinity negative => !negative
  | .finite q => bound < q

def below (bound : ℚ) : Binary64 → Bool
  | .nan => false
  | .infinity negative => negative
  | .finite q => q < bound

end Binary64

/-- Within bounds, no integer is nearer than the one that rounding gives, or the bound next to it. -/
theorem abs_clamp_round_sub_le {low high z : ℤ} (q : ℚ) (hlow : low ≤ z) (hhigh : z ≤ high) :
    |((max low (min high (round q)) : ℤ) : ℚ) - q| ≤ |(z : ℚ) - q| := by
  have hupper := round_le_add_half q
  have hlower := sub_half_lt_round q
  rcases lt_or_ge (round q) low with hbelow | hlow'
  · have hq : q < low := by
      have hcast : (round q : ℚ) + 1 ≤ low := by exact_mod_cast hbelow
      linarith
    have hz : (low : ℚ) ≤ z := by exact_mod_cast hlow
    rw [show max low (min high (round q)) = low by omega, abs_of_nonneg (by linarith),
      abs_of_nonneg (by linarith)]
    linarith
  · rcases lt_or_ge high (round q) with habove | hhigh'
    · have hq : (high : ℚ) < q := by
        have hcast : (high : ℚ) + 1 ≤ round q := by exact_mod_cast habove
        linarith
      have hz : (z : ℚ) ≤ high := by exact_mod_cast hhigh
      rw [show max low (min high (round q)) = high by omega, abs_of_nonpos (by linarith),
        abs_of_nonpos (by linarith)]
      linarith
    · rw [show max low (min high (round q)) = round q by omega, abs_sub_comm, abs_sub_comm (z : ℚ)]
      exact round_le q z

end TweakTool.Lib
