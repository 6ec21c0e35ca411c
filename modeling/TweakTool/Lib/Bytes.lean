import Mathlib.Data.List.Basic
import Mathlib.Algebra.Ring.Nat

/-! # Bytes in memory

A block of memory is the list of its bytes. `blit` is what `memcpy` does to the block it writes
to, `cText` what a C function sees when it reads the block as a string, and `leBytes`/`leNat` the
little-endian image of a number. -/

namespace TweakTool.Lib

abbrev Bytes := List UInt8

/-- What is said of the bytes of a text is checked along the text. There are only 256 bytes, and
without this instance the search may settle on going through all of them. -/
instance decidableForallMem (p : UInt8 → Prop) [DecidablePred p] (bytes : Bytes) :
    Decidable (∀ c ∈ bytes, p c) :=
  List.decidableBAll p bytes

/-! ## Literals -/

/-- A character constant of a C source. -/
@[simp] def ascii (c : Char) : UInt8 := c.val.toUInt8

/-- A string constant of a C source. -/
@[simp] def text (s : String) : Bytes := s.toList.map ascii

/-! ## Overwriting part of a block -/

/-- `block` with `bytes` written at `offset`. What would fall outside the block is not written,
so that the size of a block never changes. -/
def blit (block : Bytes) (offset : Nat) (bytes : Bytes) : Bytes :=
  block.take offset ++ bytes.take (block.length - offset) ++ block.drop (offset + bytes.length)

@[simp] theorem length_blit (block : Bytes) (offset : Nat) (bytes : Bytes) :
    (blit block offset bytes).length = block.length := by
  simp only [blit, List.length_append, List.length_take, List.length_drop]
  omega

variable {block : Bytes} {offset : Nat}

/-- A write that stays inside the block. -/
theorem blit_of_le {bytes : Bytes} (h : offset + bytes.length ≤ block.length) :
    blit block offset bytes =
      block.take offset ++ bytes ++ block.drop (offset + bytes.length) := by
  have hall : bytes.take (block.length - offset) = bytes := List.take_of_length_le (by omega)
  rw [blit, hall]

/-- Bytes written right after a known beginning of the block extend it. -/
theorem blit_append {done rest bytes : Bytes} (h : bytes.length ≤ rest.length) :
    blit (done ++ rest) done.length bytes = done ++ bytes ++ rest.drop bytes.length := by
  rw [blit_of_le (by rw [List.length_append]; omega), List.take_left, ← List.drop_drop,
    List.drop_left]

theorem blit_zero {bytes : Bytes} (h : bytes.length ≤ block.length) :
    blit block 0 bytes = bytes ++ block.drop bytes.length :=
  @blit_append [] block bytes h

/-! ## Reading part of a block -/

/-- The `n` bytes at `offset`, as far as the block has them. -/
def slice (block : Bytes) (offset n : Nat) : Bytes := (block.drop offset).take n

theorem getElem?_slice (block : Bytes) (offset n i : Nat) :
    (slice block offset n)[i]? = if i < n then block[offset + i]? else none := by
  rw [slice, List.getElem?_take, List.getElem?_drop]

theorem getElem?_blit (block : Bytes) (offset : Nat) (bytes : Bytes) (i : Nat) :
    (blit block offset bytes)[i]? =
      if offset ≤ i ∧ i < offset + bytes.length ∧ i < block.length then bytes[i - offset]?
      else block[i]? := by
  grind [blit]

variable {n : Nat}

theorem length_slice (h : offset + n ≤ block.length) : (slice block offset n).length = n := by
  rw [slice, List.length_take, List.length_drop]
  omega

/-- What was written is read back. -/
theorem slice_blit_self {bytes : Bytes} (h : offset + bytes.length ≤ block.length)
    (hn : n = bytes.length) : slice (blit block offset bytes) offset n = bytes := by
  apply List.ext_getElem?
  intro i
  rw [getElem?_slice, getElem?_blit, Nat.add_sub_cancel_left]
  grind

/-- A write does not touch what lies before it. -/
theorem slice_blit_of_le {bytes : Bytes} {start : Nat} (h : start + n ≤ offset) :
    slice (blit block offset bytes) start n = slice block start n := by
  apply List.ext_getElem?
  intro i
  rw [getElem?_slice, getElem?_slice, getElem?_blit]
  grind

/-- A write does not touch what lies after it. -/
theorem slice_blit_of_ge {bytes : Bytes} {start : Nat} (h : offset + bytes.length ≤ start) :
    slice (blit block offset bytes) start n = slice block start n := by
  apply List.ext_getElem?
  intro i
  rw [getElem?_slice, getElem?_slice, getElem?_blit]
  grind

/-- Part of what was written is read back. -/
theorem slice_blit_zero {bytes : Bytes} (hfits : bytes.length ≤ block.length)
    (h : offset + n ≤ bytes.length) :
    slice (blit block 0 bytes) offset n = slice bytes offset n := by
  apply List.ext_getElem?
  intro i
  rw [getElem?_slice, getElem?_slice, getElem?_blit]
  grind

theorem slice_take {m : Nat} (h : offset + n ≤ m) :
    slice (block.take m) offset n = slice block offset n := by
  apply List.ext_getElem?
  intro i
  rw [getElem?_slice, getElem?_slice, List.getElem?_take]
  grind

/-- A write that continues the known beginning of a block. -/
theorem take_blit {bytes : Bytes} (h : offset + bytes.length ≤ block.length) :
    (blit block offset bytes).take (offset + bytes.length) = block.take offset ++ bytes := by
  have hlen : (block.take offset ++ bytes).length = offset + bytes.length := by
    rw [List.length_append, List.length_take]
    omega
  rw [blit_of_le h, ← hlen, List.take_left]

/-- Two writes one behind the other are one. -/
theorem blit_blit {bytes more : Bytes} (h : offset + bytes.length + more.length ≤ block.length) :
    blit (blit block offset bytes) (offset + bytes.length) more = blit block offset (bytes ++ more) := by
  apply List.ext_getElem?
  intro i
  rw [getElem?_blit, getElem?_blit, getElem?_blit, length_blit, List.length_append]
  grind

/-- What lies behind a write stays as it was. -/
theorem drop_blit {bytes : Bytes} (h : offset + bytes.length ≤ n) :
    (blit block offset bytes).drop n = block.drop n := by
  apply List.ext_getElem?
  intro i
  rw [List.getElem?_drop, List.getElem?_drop, getElem?_blit]
  grind

/-! ## Blocks of a fixed size -/

def Block (n : Nat) := { bytes : Bytes // bytes.length = n }

namespace Block

variable {n : Nat}

def zero (n : Nat) : Block n := ⟨List.replicate n 0, List.length_replicate⟩

/-- `memcpy(&block[offset], bytes, …)`. -/
def write (block : Block n) (offset : Nat) (bytes : Bytes) : Block n :=
  ⟨blit block.val offset bytes, by rw [length_blit]; exact block.property⟩

@[simp] theorem length_val (block : Block n) : block.val.length = n := block.property

@[simp] theorem val_write (block : Block n) (offset : Nat) (bytes : Bytes) :
    (block.write offset bytes).val = blit block.val offset bytes := rfl

end Block

/-! ## Little-endian numbers -/

/-- The `width` bytes of `n`, least significant first; higher bits are dropped. -/
def leBytes : (width n : Nat) → Bytes
  | 0, _ => []
  | width + 1, n => UInt8.ofNat n :: leBytes width (n / 256)

def leNat : Bytes → Nat
  | [] => 0
  | b :: bs => b.toNat + 256 * leNat bs

@[simp] theorem length_leBytes (width n : Nat) : (leBytes width n).length = width := by
  induction width generalizing n with
  | zero => rfl
  | succ width ih => rw [leBytes, List.length_cons, ih]

/-- The bytes of a number tell the number. -/
theorem leNat_leBytes {width : Nat} (h : n < 256 ^ width) : leNat (leBytes width n) = n := by
  induction width generalizing n with
  | zero =>
    rw [Nat.pow_zero] at h
    rw [leBytes, leNat]
    omega
  | succ width ih =>
    rw [Nat.pow_succ] at h
    rw [leBytes, leNat, ih (by omega), UInt8.toNat_ofNat']
    omega

/-! ## Null-terminated texts -/

/-- A text as C can hold it: no byte of it is the terminator. -/
def CString := { bytes : Bytes // (0 : UInt8) ∉ bytes }

namespace CString

instance : DecidableEq CString := inferInstanceAs (DecidableEq { bytes : Bytes // (0 : UInt8) ∉ bytes })

def empty : CString := ⟨[], List.not_mem_nil⟩

def append (s t : CString) : CString :=
  ⟨s.val ++ t.val, by
    rw [List.mem_append]
    exact fun h => h.elim s.property t.property⟩

def terminated (t : CString) : Bytes := t.val ++ [0]

@[simp] theorem length_terminated (t : CString) : t.terminated.length = t.val.length + 1 := by
  simp [terminated]

end CString

/-- The text a block holds, `none` if it has no terminator. -/
def cText : Bytes → Option CString
  | [] => none
  | c :: cs =>
    if hc : c = 0 then some CString.empty
    else (cText cs).map fun t => ⟨c :: t.val, by
      rw [List.mem_cons]
      exact fun h => h.elim (fun h => hc h.symm) t.property⟩

/-- Reading stops at the first terminator. -/
theorem cText_append (t : CString) (rest : Bytes) : cText (t.val ++ 0 :: rest) = some t := by
  obtain ⟨bytes, hbytes⟩ := t
  induction bytes with
  | nil => rfl
  | cons c cs ih =>
    rw [List.mem_cons, not_or] at hbytes
    have hc : c ≠ 0 := Ne.symm hbytes.1
    have hcs : cText (cs ++ 0 :: rest) = some ⟨cs, hbytes.2⟩ := ih hbytes.2
    show cText (c :: (cs ++ 0 :: rest)) = _
    rw [cText, dif_neg hc, hcs]
    rfl

theorem eq_append_of_cText {t : CString} (h : cText block = some t) :
    ∃ rest, block = t.val ++ 0 :: rest := by
  induction block generalizing t with
  | nil => cases h
  | cons c cs ih =>
    rw [cText] at h
    by_cases hc : c = 0
    · rw [dif_pos hc] at h
      cases h
      exact ⟨cs, by rw [hc]; rfl⟩
    · rw [dif_neg hc] at h
      obtain ⟨u, hu, rfl⟩ := Option.map_eq_some_iff.mp h
      obtain ⟨rest, rfl⟩ := ih hu
      exact ⟨rest, rfl⟩

end TweakTool.Lib
