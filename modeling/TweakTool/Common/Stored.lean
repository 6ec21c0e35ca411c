import TweakTool.Common.Buffer
import TweakTool.Common.Variant

/-! # Variants in memory

`variant.h` and `tweakvariant.c`: a variant with the string or buffer object that it has in memory, and
its copy. The copy of a string looks at the capacity of the original; the code that keeps variants makes
their strings in few ways, and a copy of such a string has its text. -/

namespace TweakTool.Common

open TweakTool.Lib

/-- `tweak_variant`. -/
abbrev StoredVariant := VariantOf VariantString VariantBuffer

def tweakBufferClone (lib : CLibrary) (source : VariantBuffer) : VariantBuffer :=
  tweakBufferCreate lib source.contents

def tweakVariantCopy (lib : CLibrary) : StoredVariant → StoredVariant
  | .null => .null
  | .bool b => .bool b
  | .num t bits => .num t bits
  | .string string => .string (tweakVariantStringCopy lib string)
  | .vector t buffer => .vector t (tweakBufferClone lib buffer)

/-! ## Strings that are kept -/

/-- The strings of items and metadata are assigned to new objects, assigned once more with the same
text, and copied. Three times the storage that a text needs is a `size_t`. -/
inductive Made : CString → VariantString → Prop
  | assigned (lib : CLibrary) (arg : Option CString)
    (hsize : ((arg.getD .empty).val.length + 1) * 3 < sizeModulus) :
    Made (arg.getD .empty) (tweakAssignString lib .empty arg)
  | reassigned (lib : CLibrary) {s : CString} {string : VariantString} (h : Made s string) :
    Made s (tweakAssignString lib string (some s))
  | copied (lib : CLibrary) {s : CString} {string : VariantString} (h : Made s string) :
    Made s (tweakVariantStringCopy lib string)

/-- A text that fits leaves the storage as it is. -/
theorem capacity_tweakAssignString (lib : CLibrary) {string : VariantString} {arg : CString}
    (hfits : arg.val.length + 1 ≤ string.init.capacity) (hsize : arg.val.length + 1 < sizeModulus) :
    (tweakAssignString lib string (some arg)).capacity = string.init.capacity := by
  have hmod : (arg.val.length + 1) % sizeModulus = arg.val.length + 1 := Nat.mod_eq_of_lt hsize
  simp only [tweakAssignString, hmod]
  rw [if_neg (Nat.not_lt.mpr hfits)]
  exact VariantString.capacity_write _

namespace Made

variable {s : CString} {string : VariantString}

private theorem length_lt (h : Made s string) : (s.val.length + 1) * 3 < sizeModulus := by
  induction h with
  | assigned lib arg hsize => exact hsize
  | reassigned lib h ih => exact ih
  | copied lib h ih => exact ih

/-- Each way keeps the text, and a text on the heap is a long one. -/
theorem stores_and_long (h : Made s string) :
    Stores string s ∧ (string.capacity ≤ inlineStringSize ∨ inlineStringSize ≤ string.length) := by
  induction h with
  | assigned lib arg hsize =>
    cases arg with
    | none => exact ⟨.empty, .inl (Nat.zero_le _)⟩
    | some arg =>
      have hstores : Stores (tweakAssignString lib .empty (some arg)) arg :=
        stores_assign .empty fun _ => hsize
      refine ⟨hstores, ?_⟩
      by_cases hsmall : arg.val.length + 1 ≤ inlineStringSize
      · left
        exact Nat.le_of_eq (capacity_tweakAssignString lib hsmall (Nat.lt_of_le_of_lt hsmall (by decide)))
      · right
        rw [hstores.length]
        exact Nat.le_of_lt_succ (Nat.lt_of_not_le hsmall)
  | @reassigned lib s string h ih =>
    obtain ⟨hstores, hlong⟩ := ih
    have hbound := h.length_lt
    -- the same text fits where it already is, so nothing is allocated
    have hfits : s.val.length + 1 ≤ string.init.capacity := by
      rw [← hstores.shape.size]
      exact hstores.text.length_lt
    have hassigned : Stores (tweakAssignString lib string (some s)) s :=
      stores_assign hstores fun _ => hbound
    refine ⟨hassigned, ?_⟩
    rw [capacity_tweakAssignString lib hfits (by omega), hassigned.length, ← hstores.length]
    refine hlong.imp_left fun hsmall => ?_
    rw [VariantString.init]
    split
    · exact Nat.le_refl _
    · exact hsmall
  | @copied lib s string h ih =>
    obtain ⟨hstores, hlong⟩ := ih
    -- the copy of a short text on the heap would be taken for one inside the object
    refine ⟨stores_copy hstores hlong, ?_⟩
    rw [tweakVariantStringCopy]
    by_cases hsmall : tweakVariantIsSmallString string = true
    · rw [if_pos hsmall]
      exact hlong
    · rw [if_neg hsmall]
      rw [tweakVariantIsSmallString, decide_eq_true_iff] at hsmall
      exact .inr (hlong.resolve_left hsmall)

theorem stores (h : Made s string) : Stores string s := h.stores_and_long.1

end Made

/-! ## What is read -/

def shownString (string : VariantString) : Option CString × Nat :=
  (tweakVariantStringCStr string, string.length)

def shownVariant : StoredVariant → VariantOf (Option CString × Nat) Bytes
  | .null => .null
  | .bool b => .bool b
  | .num t bits => .num t bits
  | .string string => .string (shownString string)
  | .vector t buffer => .vector t buffer.contents

/-- A string in memory for a text, which ends at its first NUL. -/
def KeptString (t : Text) (string : VariantString) : Prop :=
  ∃ s, cText (t ++ [0]) = some s ∧ Made s string

inductive KeptVariant : Variant → StoredVariant → Prop
  | null : KeptVariant .null .null
  | bool (b : Bool) : KeptVariant (.bool b) (.bool b)
  | num (t : NumType) (bits : BitVec t.width) : KeptVariant (.num t bits) (.num t bits)
  | string {t : Text} {string : VariantString} (h : KeptString t string) :
    KeptVariant (.string t) (.string string)
  | vector (t : NumType) (buffer : VariantBuffer) (h : buffer.WellFormed) :
    KeptVariant (.vector t buffer.contents) (.vector t buffer)

section Copies

variable (lib : CLibrary) {t : Text} {string : VariantString} {value : Variant} {variant : StoredVariant}

/-- A copy is such a string again. -/
theorem KeptString.copy (h : KeptString t string) : KeptString t (tweakVariantStringCopy lib string) := by
  obtain ⟨s, hs, hmade⟩ := h
  exact ⟨s, hs, hmade.copied lib⟩

/-- The same text, of the same length. -/
theorem KeptString.shownString_copy (h : KeptString t string) :
    shownString (tweakVariantStringCopy lib string) = shownString string := by
  obtain ⟨s, -, hmade⟩ := h
  have hcopy := (hmade.copied lib).stores
  rw [shownString, shownString, hcopy.implements.text, hcopy.length, hmade.stores.implements.text,
    hmade.stores.length]

theorem KeptVariant.copy (h : KeptVariant value variant) :
    KeptVariant value (tweakVariantCopy lib variant) := by
  cases h with
  | null => exact .null
  | bool b => exact .bool b
  | num t bits => exact .num t bits
  | string h => exact .string (h.copy lib)
  | vector t buffer h =>
    obtain ⟨hformed, hcontents⟩ := tweakBufferCreate_spec lib buffer.contents
    have hkept := KeptVariant.vector t _ hformed
    rw [hcontents] at hkept
    exact hkept

/-- A copied value is shown as it was. -/
theorem KeptVariant.shownVariant_copy (h : KeptVariant value variant) :
    shownVariant (tweakVariantCopy lib variant) = shownVariant variant := by
  cases h with
  | null | bool b | num t bits => rfl
  | string h => exact congrArg VariantOf.string (h.shownString_copy lib)
  | vector t buffer h =>
    exact congrArg (VariantOf.vector t) (tweakBufferCreate_spec lib buffer.contents).2

end Copies

end TweakTool.Common
