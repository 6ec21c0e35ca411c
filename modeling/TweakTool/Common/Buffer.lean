import TweakTool.Common.String

/-! # Variant buffers

`buffer.h` and `tweakbuffer.c`: the untyped storage of vectors. As for strings the union is the
data itself or a pointer to a heap block, but here it is the *size* of the data that tells which,
and there is no capacity. The code is built with `NDEBUG`: the assertion that the size is not zero is
not there, and a buffer without bytes is made. -/

namespace TweakTool.Common

open TweakTool.Lib

/-- `TWEAK_VARIANT_SMALL_BUFFER_SIZE`, 16 · 8. -/
def smallBufferSize : Nat := 128

/-- `struct tweak_variant_buffer`, with its union modelled as that of `VariantString`. -/
structure VariantBuffer where
  size : Nat
  smallBuffer : Block smallBufferSize
  largeBuffer : Option Bytes

namespace VariantBuffer

/-- The initialiser `{ 0 }`. -/
def empty : VariantBuffer where
  size := 0
  smallBuffer := .zero smallBufferSize
  largeBuffer := none

end VariantBuffer

/-- `tweak_buffer_get_data`, as the block that the pointer refers to. -/
def tweakBufferGetData (b : VariantBuffer) : Bytes :=
  if b.size ≤ smallBufferSize then b.smallBuffer.val else b.largeBuffer.getD []

def tweakBufferCreate (lib : CLibrary) (source : Bytes) : VariantBuffer :=
  if source.length ≤ smallBufferSize then
    { size := source.length
      smallBuffer := (Block.zero smallBufferSize).write 0 source
      largeBuffer := none }
  else
    { size := source.length
      smallBuffer := lib.pointer
      largeBuffer := some (blit (lib.malloc source.length) 0 source) }

namespace VariantBuffer

def contents (b : VariantBuffer) : Bytes := (tweakBufferGetData b).take b.size

/-- The data lies inside the storage that the size points to, and that storage is in use. -/
structure WellFormed (b : VariantBuffer) : Prop where
  storage : b.size ≤ smallBufferSize ↔ b.largeBuffer = none
  inside : b.size ≤ (tweakBufferGetData b).length

theorem WellFormed.length_contents {b : VariantBuffer} (h : b.WellFormed) :
    b.contents.length = b.size := by
  have hinside := h.inside
  rw [contents, List.length_take]
  omega

/-- The source has been copied to the start of the space that the buffer uses. -/
theorem holds_of_data {b : VariantBuffer} {source : Bytes} (space : Bytes)
    (hstorage : source.length ≤ smallBufferSize ↔ b.largeBuffer = none)
    (hsize : b.size = source.length) (hdata : tweakBufferGetData b = blit space 0 source)
    (hroom : source.length ≤ space.length) : b.WellFormed ∧ b.contents = source := by
  refine ⟨⟨hsize ▸ hstorage, ?_⟩, ?_⟩
  · rw [hdata, hsize, length_blit]
    exact hroom
  · rw [contents, hdata, hsize, blit_zero hroom, List.take_left]

end VariantBuffer

/-- A created buffer holds the source. -/
theorem tweakBufferCreate_spec (lib : CLibrary) (source : Bytes) :
    (tweakBufferCreate lib source).WellFormed ∧
      (tweakBufferCreate lib source).contents = source := by
  by_cases hsmall : source.length ≤ smallBufferSize
  · rw [tweakBufferCreate, if_pos hsmall]
    refine VariantBuffer.holds_of_data (Block.zero smallBufferSize).val (iff_of_true hsmall rfl) rfl
      ?_ ?_
    · rw [tweakBufferGetData, if_pos hsmall]
      exact Block.val_write ..
    · rw [Block.length_val]
      exact hsmall
  · rw [tweakBufferCreate, if_neg hsmall]
    refine VariantBuffer.holds_of_data (lib.malloc source.length)
      (iff_of_false hsmall (by rintro ⟨⟩)) rfl ?_ ?_
    · rw [tweakBufferGetData, if_neg hsmall]
      rfl
    · exact Nat.le_of_eq (length_malloc ..).symm

end TweakTool.Common
