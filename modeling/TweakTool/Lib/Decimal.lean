import Mathlib.Data.List.TakeWhile
import Mathlib.Data.Nat.Digits.Lemmas
import TweakTool.Lib.Bytes

/-! # Decimal integers

What `printf` prints for an integer and what `strtoll` and `strtoull` read in base 10. -/

namespace TweakTool.Lib

/-! ## Printing -/

def digitChar (d : Nat) : UInt8 := UInt8.ofNat (48 + d)

/-- `%u`. -/
def decimal (n : Nat) : Bytes :=
  if n = 0 then [digitChar 0] else (Nat.digits 10 n).reverse.map digitChar

/-- `%d`. -/
def decimalInt (i : Int) : Bytes :=
  if i < 0 then ascii '-' :: decimal i.natAbs else decimal i.natAbs

/-! ## Reading -/

def isDigit (c : UInt8) : Bool := 48 ≤ c.toNat ∧ c.toNat < 58

/-- `isspace` in the C locale. -/
def isBlank (c : UInt8) : Bool := c = 32 ∨ 9 ≤ c.toNat ∧ c.toNat ≤ 13

def digitsValue (digits : Bytes) : Nat :=
  digits.foldl (fun value c => 10 * value + (c.toNat - 48)) 0

/-- An optional sign in front of digits. -/
def splitSign : Bytes → Bool × Bytes
  | [] => (false, [])
  | c :: s => if c = ascii '-' then (true, s) else if c = ascii '+' then (false, s) else (false, c :: s)

/-- The integer at the start of a text: whether it is negative, its magnitude, and what follows.
There may be none. -/
def scanInteger (s : Bytes) : Option (Bool × Nat × Bytes) :=
  let (negative, s) := splitSign (s.dropWhile isBlank)
  let digits := s.takeWhile isDigit
  if digits = [] then none else some (negative, digitsValue digits, s.dropWhile isDigit)

/-- `strtoll`, with what `endp` is set to. -/
def strtoll (s : Bytes) : Option (Int × Bytes) :=
  (scanInteger s).map fun (negative, n, rest) =>
    (if negative then max (-n) (-2 ^ 63) else min n (2 ^ 63 - 1), rest)

/-- `strtoull`, with what `endp` is set to. A negative number is negated in the unsigned type. -/
def strtoull (s : Bytes) : Option (Nat × Bytes) :=
  (scanInteger s).map fun (negative, n, rest) =>
    (if 2 ^ 64 ≤ n then 2 ^ 64 - 1 else if negative then (2 ^ 64 - n) % 2 ^ 64 else n, rest)

/-! ## What is printed is read -/

theorem toNat_digitChar {d : Nat} (hd : d < 10) : (digitChar d).toNat = 48 + d := by
  rw [digitChar, UInt8.toNat_ofNat']
  omega

theorem isDigit_digitChar {d : Nat} (hd : d < 10) : isDigit (digitChar d) := by
  simp only [isDigit, toNat_digitChar hd, decide_eq_true_eq]
  omega

theorem isDigit_of_mem_decimal {n : Nat} {c : UInt8} (hc : c ∈ decimal n) : isDigit c := by
  rw [decimal] at hc
  split at hc
  · rw [List.mem_singleton.mp hc]
    exact isDigit_digitChar (by decide)
  · obtain ⟨d, hd, rfl⟩ := List.mem_map.mp hc
    exact isDigit_digitChar (Nat.digits_lt_base (by decide) (List.mem_reverse.mp hd))

theorem decimal_ne_nil (n : Nat) : decimal n ≠ [] := by
  rw [decimal]
  split
  · simp
  · next hn => simpa [Nat.digits_eq_nil_iff_eq_zero] using hn

/-- The digits of a number tell the number. -/
theorem digitsValue_decimal (n : Nat) : digitsValue (decimal n) = n := by
  rw [decimal]
  split
  · next hn =>
    rw [hn]
    rfl
  · have hstep : ∀ d ∈ Nat.digits 10 n, ∀ value,
        10 * value + ((digitChar d).toNat - 48) = d + 10 * value := by
      intro d hd value
      rw [toNat_digitChar (Nat.digits_lt_base (by decide) hd)]
      omega
    rw [digitsValue, List.foldl_map, List.foldl_reverse, List.foldr_ext _ _ _ hstep]
    exact (Nat.ofDigits_eq_foldr 10 _).symm.trans (Nat.ofDigits_digits 10 n)

theorem length_decimal_le {n k : Nat} (hn : n < 10 ^ (k + 1)) : (decimal n).length ≤ k + 1 := by
  rw [decimal]
  split
  · simp
  · rw [List.length_map, List.length_reverse]
    exact (Nat.digits_length_le_iff (by decide) n).mpr hn

theorem scanInteger_eq {s digits : Bytes} {negative : Bool}
    (hsplit : splitSign (s.dropWhile isBlank) = (negative, digits))
    (hdigits : ∀ c ∈ digits, isDigit c) (hne : digits ≠ []) :
    scanInteger s = some (negative, digitsValue digits, []) := by
  have htake : digits.takeWhile isDigit = digits := List.takeWhile_eq_self_iff.mpr hdigits
  have hdrop : digits.dropWhile isDigit = [] := List.dropWhile_eq_nil_iff.mpr hdigits
  rw [scanInteger, hsplit]
  simp only [htake, hdrop, if_neg hne]

/-- A digit is neither blank nor a sign. -/
theorem splitSign_digits {c : UInt8} {s : Bytes} (hc : isDigit c) :
    splitSign ((c :: s).dropWhile isBlank) = (false, c :: s) := by
  simp only [isDigit, decide_eq_true_eq] at hc
  have hblank : isBlank c = false := by
    simp only [isBlank, decide_eq_false_iff_not]
    rintro (rfl | h)
    · exact absurd hc (by decide)
    · omega
  have hminus : c ≠ ascii '-' := by
    rintro rfl
    exact absurd hc (by decide)
  have hplus : c ≠ ascii '+' := by
    rintro rfl
    exact absurd hc (by decide)
  rw [List.dropWhile_cons_of_neg (by simp [hblank]), splitSign, if_neg hminus, if_neg hplus]

theorem scanInteger_decimal (n : Nat) : scanInteger (decimal n) = some (false, n, []) := by
  have hsplit : splitSign ((decimal n).dropWhile isBlank) = (false, decimal n) := by
    obtain ⟨c, s, hs⟩ := List.exists_cons_of_ne_nil (decimal_ne_nil n)
    rw [hs]
    exact splitSign_digits (isDigit_of_mem_decimal (by rw [hs]; exact List.mem_cons_self))
  rw [scanInteger_eq hsplit (fun c => isDigit_of_mem_decimal) (decimal_ne_nil n),
    digitsValue_decimal]

/-- A printed integer is read as it was. -/
theorem scanInteger_decimalInt (i : Int) :
    scanInteger (decimalInt i) = some (decide (i < 0), i.natAbs, []) := by
  rw [decimalInt]
  split
  · next hneg =>
    rw [scanInteger_eq (by rfl) (fun c => isDigit_of_mem_decimal) (decimal_ne_nil _),
      digitsValue_decimal, decide_eq_true hneg]
  · next hneg => rw [scanInteger_decimal, decide_eq_false hneg]

theorem strtoll_decimalInt {i : Int} (hlow : -2 ^ 63 ≤ i) (hhigh : i < 2 ^ 63) :
    strtoll (decimalInt i) = some (i, []) := by
  simp only [strtoll, scanInteger_decimalInt, Option.map_some, decide_eq_true_eq, Option.some.injEq,
    Prod.mk.injEq, and_true]
  split <;> omega

theorem strtoull_decimal {n : Nat} (hn : n < 2 ^ 64) : strtoull (decimal n) = some (n, []) := by
  simp only [strtoull, scanInteger_decimal, Option.map_some, if_neg (Nat.not_le.mpr hn)]
  rfl

end TweakTool.Lib
