import TweakTool.Common.Buffer
import TweakTool.Common.Variant
import TweakTool.Pickle.Nanopb

/-! # Vectors on the wire

The functions `tweakpickle_pb_util.c` generates with `IMPLEMENT_BUFFER_ENCODER_DECODER`: the
elements of a vector are written one by one as fixed size numbers, each after a tag; the decoder
does not know their number and grows the target buffer as they come in.

Sizes are natural numbers. The bytes of a vector exist in memory, so they are fewer than 2⁶³, and
then no `size_t` of these functions wraps around. -/

namespace TweakTool.Pickle

open TweakTool.Lib TweakTool.Common

/-- The element types the functions are generated for. -/
inductive ElementType where
  | sint16 | sint32 | sint64
  | uint16 | uint32 | uint64
  | float | double
  deriving DecidableEq, Repr

namespace ElementType

/-- `C_TYPE`. -/
def numType : ElementType → NumType
  | .sint16 => .sint16
  | .sint32 => .sint32
  | .sint64 => .sint64
  | .uint16 => .uint16
  | .uint32 => .uint32
  | .uint64 => .uint64
  | .float => .float
  | .double => .double

/-- `sizeof(C_TYPE)`. -/
abbrev size (e : ElementType) : Nat := e.numType.size

abbrev width (e : ElementType) : Nat := e.numType.width

/-- `sizeof(TARGET_TYPE)`, which is also the size `ENCODER` and `DECODER` work on. -/
def targetSize : ElementType → Nat
  | .sint64 | .uint64 | .double => 8
  | _ => 4

/-- `TARGET_TYPE value = data[ix]`. -/
def toTarget (e : ElementType) (value : BitVec e.width) : BitVec (8 * e.targetSize) :=
  match e with
  | .sint16 => value.signExtend 32
  | .uint16 => value.setWidth 32
  | .sint32 | .uint32 | .float => value
  | .sint64 | .uint64 | .double => value

/-- `(C_TYPE)value`. -/
def ofTarget (e : ElementType) (value : BitVec (8 * e.targetSize)) : BitVec e.width :=
  value.setWidth e.width

/-- The wire type that `pb_encode_tag_for_field` writes for the `repeated` field of the buffer
message. For the integer types it announces a varint, although a fixed size number follows. -/
def wireType : ElementType → WireType
  | .float => wt32Bit
  | .double => wt64Bit
  | _ => wtVarint

end ElementType

/-- `tweak_pb_buffer_*_buffer_tag`. -/
def bufferTag : Nat := 2

variable {e : ElementType}

/-- An element in the memory of the host. -/
def elementBytes (value : BitVec e.width) : Bytes := leBytes e.size value.toNat

def elementAt (e : ElementType) (data : Bytes) (ix : Nat) : BitVec e.width :=
  BitVec.ofNat _ (leNat (slice data (ix * e.size) e.size))

/-! ## The generated functions -/

def pbVariantEncodeBuffer (e : ElementType) (buffer : VariantBuffer) : Bytes :=
  (List.range (buffer.size / e.size)).flatMap fun ix =>
    pbEncodeTag e.wireType bufferTag ++
      pbEncodeFixed e.targetSize (e.toTarget (elementAt e (tweakBufferGetData buffer) ix))

/-- The target of the decoder with its two local variables. -/
structure Target where
  buffer : VariantBuffer
  count : Nat
  capacity : Nat

def Target.init : Target := ⟨.empty, 0, 0⟩

def smallBufferCapacity (e : ElementType) : Nat := smallBufferSize / e.size

/-- The block `append_*_value_to_buffer` moves to when the old one is full. -/
def largerBlock (lib : CLibrary) (e : ElementType) (target : Target) (newCapacity : Nat) : Bytes :=
  if target.capacity ≤ smallBufferCapacity e then
    blit (lib.malloc (e.size * newCapacity)) 0
      (target.buffer.smallBuffer.val.take target.buffer.size)
  else lib.realloc (target.buffer.largeBuffer.getD []) (e.size * newCapacity)

/-- `append_*_value_to_buffer`. The pointer `data` is taken before the size changes. -/
def appendValueToBuffer (lib : CLibrary) (target : Target) (value : BitVec e.width) : Target :=
  let newCapacity := if target.capacity = 0 then smallBufferCapacity e else target.capacity
  let newCount := target.count + 1
  let offset := (newCount - 1) * e.size
  let size := newCount * e.size
  if newCapacity < newCount then
    let newCapacity := newCapacity * 3 / 2
    let block := blit (largerBlock lib e target newCapacity) offset (elementBytes value)
    ⟨⟨size, lib.pointer, some block⟩, newCount, newCapacity⟩
  else if target.buffer.size ≤ smallBufferSize then
    let small := target.buffer.smallBuffer.write offset (elementBytes value)
    ⟨⟨size, small, target.buffer.largeBuffer⟩, newCount, newCapacity⟩
  else
    let large := target.buffer.largeBuffer.map (blit · offset (elementBytes value))
    ⟨⟨size, target.buffer.smallBuffer, large⟩, newCount, newCapacity⟩

/-- The loop of `pb_variant_decode_*_buffer`. The n-th append works with `libs n`. -/
def decodeBufferLoop (libs : Nat → CLibrary) (e : ElementType) :
    (fuel : Nat) → Target → Bytes → Option VariantBuffer
  | _, target, [] => some target.buffer
  | 0, _, _ :: _ => none
  | fuel + 1, target, byte :: bytes =>
    match pbDecodeTag (byte :: bytes) with
    | none => none
    | some (_, _, rest) =>
      match pbDecodeFixed e.targetSize rest with
      | none => none
      | some (value, rest) =>
        decodeBufferLoop libs e fuel
          (appendValueToBuffer (libs target.count) target (e.ofTarget value)) rest

def pbVariantDecodeBuffer (libs : Nat → CLibrary) (e : ElementType) (stream : Bytes) :
    Option VariantBuffer :=
  decodeBufferLoop libs e stream.length .init stream

/-! ## Elements and bytes -/

def vectorBytes (values : List (BitVec e.width)) : Bytes := values.flatMap elementBytes

@[simp] theorem length_elementBytes (value : BitVec e.width) :
    (elementBytes value).length = e.size := length_leBytes ..

private theorem length_vectorBytes (values : List (BitVec e.width)) :
    (vectorBytes values).length = values.length * e.size := by
  induction values with
  | nil => rw [vectorBytes, List.flatMap_nil, List.length_nil, List.length_nil, Nat.zero_mul]
  | cons value values ih =>
    rw [vectorBytes] at ih
    rw [vectorBytes, List.flatMap_cons, List.length_append, length_elementBytes, ih,
      List.length_cons, Nat.succ_mul, Nat.add_comm]

private theorem vectorBytes_append (values : List (BitVec e.width)) (value : BitVec e.width) :
    vectorBytes (values ++ [value]) = vectorBytes values ++ elementBytes value := by
  rw [vectorBytes, List.flatMap_append, List.flatMap_singleton]
  rfl

private theorem leNat_elementBytes (value : BitVec e.width) :
    BitVec.ofNat e.width (leNat (elementBytes value)) = value := by
  have hvalue : value.toNat < 256 ^ e.size := by
    have hpow : (256 : Nat) ^ e.size = 2 ^ e.width := by
      rw [ElementType.width, NumType.width, Nat.pow_mul]
    rw [hpow]
    exact value.isLt
  rw [elementBytes, leNat_leBytes hvalue, BitVec.ofNat_toNat, BitVec.setWidth_eq]

/-- The elements of a vector are found at their indices. -/
theorem elementAt_vectorBytes (values : List (BitVec e.width)) (rest : Bytes) (ix : Nat)
    (h : ix < values.length) : elementAt e (vectorBytes values ++ rest) ix = values[ix] := by
  induction values generalizing ix with
  | nil => exact absurd h (Nat.not_lt_zero _)
  | cons value values ih =>
    have hcons : vectorBytes (value :: values) ++ rest =
        elementBytes value ++ (vectorBytes values ++ rest) := by
      rw [vectorBytes, List.flatMap_cons, List.append_assoc]
      rfl
    rw [hcons]
    cases ix with
    | zero =>
      rw [elementAt, slice, Nat.zero_mul, List.drop_zero, ← length_elementBytes value,
        List.take_left]
      exact leNat_elementBytes value
    | succ ix =>
      have hdrop : slice (elementBytes value ++ (vectorBytes values ++ rest))
          ((ix + 1) * e.size) e.size = slice (vectorBytes values ++ rest) (ix * e.size) e.size := by
        have hoff : (ix + 1) * e.size = (elementBytes value).length + ix * e.size := by
          rw [length_elementBytes, Nat.succ_mul, Nat.add_comm]
        rw [slice, slice, hoff, ← List.drop_drop, List.drop_left]
      have hix : ix < values.length := Nat.lt_of_succ_lt_succ h
      rw [elementAt, hdrop, List.getElem_cons_succ]
      exact ih ix hix

/-- Extending the sign and cutting it off again. -/
theorem setWidth_signExtend {w m : Nat} (h : w ≤ m) (value : BitVec w) :
    (value.signExtend m).setWidth w = value := by
  ext i hi
  rw [BitVec.getElem_setWidth, BitVec.getLsbD_eq_getElem (by omega), BitVec.getElem_signExtend,
    dif_pos hi]

private theorem ElementType.ofTarget_toTarget (value : BitVec e.width) :
    e.ofTarget (e.toTarget value) = value := by
  cases e with
  | sint16 => exact setWidth_signExtend (by decide) value
  | uint16 => exact BitVec.setWidth_setWidth_of_le value (by decide)
  | _ => exact BitVec.setWidth_eq value

/-! ## Appending -/

/-- The invariant of the decoder's loop: the target holds the values appended so far. The two
kinds of storage are told apart by the number of values, which is what the size says as well. -/
structure Appended (target : Target) (values : List (BitVec e.width)) : Prop where
  count : target.count = values.length
  size : target.buffer.size = target.count * e.size
  contents : target.buffer.contents = vectorBytes values
  storage :
    (target.capacity = smallBufferCapacity e ∨ target.capacity = 0 ∧ target.count = 0) ∧
      target.count ≤ smallBufferCapacity e ∧ target.buffer.largeBuffer = none ∨
    smallBufferCapacity e < target.count ∧ target.count ≤ target.capacity ∧
      ∃ block, target.buffer.largeBuffer = some block ∧ block.length = e.size * target.capacity

/-- The small buffer holds a whole number of elements, at least sixteen. -/
theorem smallBufferCapacity_spec (e : ElementType) :
    0 < e.size ∧ smallBufferCapacity e * e.size = smallBufferSize ∧ 16 ≤ smallBufferCapacity e := by
  cases e <;> decide

variable {count : Nat}

theorem mul_size_le_iff : count * e.size ≤ smallBufferSize ↔ count ≤ smallBufferCapacity e := by
  obtain ⟨hpos, hcap, _⟩ := smallBufferCapacity_spec e
  rw [← hcap]
  exact Nat.mul_le_mul_right_iff hpos

theorem appended_init : Appended (e := e) .init [] :=
  ⟨rfl, (Nat.zero_mul _).symm, rfl, .inl ⟨.inr ⟨rfl, rfl⟩, Nat.zero_le _, rfl⟩⟩

variable {target : Target} {values : List (BitVec e.width)}

/-- What the invariant says about the buffer alone. -/
theorem Appended.wellFormed (h : Appended target values) : target.buffer.WellFormed := by
  obtain ⟨hpos, hcap, _⟩ := smallBufferCapacity_spec e
  have hsize := h.size
  rcases h.storage with ⟨_, hcount, hnone⟩ | ⟨hcount, hle, block, hblock, hlength⟩
  · have hsmall : target.buffer.size ≤ smallBufferSize := by
      rw [hsize]
      exact mul_size_le_iff.mpr hcount
    refine ⟨by simp only [hsmall, hnone], ?_⟩
    rw [tweakBufferGetData, if_pos hsmall, Block.length_val]
    exact hsmall
  · have hlarge : ¬ target.buffer.size ≤ smallBufferSize := by
      rw [hsize, mul_size_le_iff]
      omega
    refine ⟨by simp [hlarge, hblock], ?_⟩
    rw [tweakBufferGetData, if_neg hlarge, hblock, Option.getD_some, hlength, hsize, Nat.mul_comm]
    exact Nat.mul_le_mul_left _ hle

/-- An element written behind the elements of a block. -/
theorem take_blit_element {data : Bytes} (value : BitVec e.width)
    (hdata : data.take (count * e.size) = vectorBytes values)
    (hroom : (count + 1) * e.size ≤ data.length) :
    (blit data (count * e.size) (elementBytes value)).take ((count + 1) * e.size) =
      vectorBytes (values ++ [value]) := by
  rw [Nat.succ_mul] at hroom ⊢
  have hlen := length_elementBytes value
  rw [← hlen] at hroom
  rw [← hlen, take_blit hroom, hlen, hdata, vectorBytes_append]

/-- The target after an element went into a heap block with room for it. -/
theorem appended_heap {block : Bytes} {capacity : Nat} (small : Block smallBufferSize)
    (value : BitVec e.width) (hcount : count = values.length)
    (hdata : block.take (count * e.size) = vectorBytes values)
    (hlength : block.length = e.size * capacity) (hlarge : smallBufferCapacity e < count + 1)
    (hroom : count + 1 ≤ capacity) :
    Appended ⟨⟨(count + 1) * e.size, small,
        some (blit block (count * e.size) (elementBytes value))⟩, count + 1, capacity⟩
      (values ++ [value]) := by
  have hfits : (count + 1) * e.size ≤ block.length := by
    rw [hlength, Nat.mul_comm]
    exact Nat.mul_le_mul_left _ hroom
  refine ⟨?_, rfl, ?_, .inr ⟨hlarge, hroom, _, rfl, ?_⟩⟩
  · rw [List.length_append, List.length_singleton, hcount]
  · have hsize : ¬ (count + 1) * e.size ≤ smallBufferSize := by
      rw [mul_size_le_iff]
      omega
    rw [VariantBuffer.contents, tweakBufferGetData, if_neg hsize, Option.getD_some]
    exact take_blit_element value hdata hfits
  · rw [length_blit, hlength]

/-- The larger block has the values of the old storage. -/
theorem Appended.largerBlock (lib : CLibrary) (h : Appended target values) (newCapacity : Nat)
    (hgrow : target.capacity ≤ newCapacity) (hcount : target.count ≤ newCapacity) :
    (largerBlock lib e target newCapacity).length = e.size * newCapacity ∧
    (largerBlock lib e target newCapacity).take (target.count * e.size) = vectorBytes values := by
  have hcontents := h.contents
  have hsize := h.size
  have hbytes : target.count * e.size ≤ e.size * newCapacity := by
    rw [Nat.mul_comm]
    exact Nat.mul_le_mul_left _ hcount
  rw [VariantBuffer.contents, tweakBufferGetData] at hcontents
  -- inline, or in a block of the heap
  rcases h.storage with ⟨hcap, hle, _⟩ | ⟨hlt, hle, block, hblock, hlength⟩
  · have hsmall : target.buffer.size ≤ smallBufferSize := by
      rw [hsize]
      exact mul_size_le_iff.mpr hle
    have hold : target.capacity ≤ smallBufferCapacity e := by
      rcases hcap with hcap | ⟨hcap, _⟩ <;> omega
    rw [if_pos hsmall] at hcontents
    rw [Pickle.largerBlock, if_pos hold, hcontents]
    have hvalues : (vectorBytes values).length = target.count * e.size := by
      rw [length_vectorBytes, h.count]
    have hroom : (vectorBytes values).length ≤ (lib.malloc (e.size * newCapacity)).length := by
      rw [hvalues, length_malloc]
      exact hbytes
    refine ⟨by rw [length_blit, length_malloc], ?_⟩
    rw [blit_zero hroom, ← hvalues, List.take_left]
  · have hlarge : ¬ target.buffer.size ≤ smallBufferSize := by
      rw [hsize, mul_size_le_iff]
      omega
    have hold : ¬ target.capacity ≤ smallBufferCapacity e := by omega
    rw [if_neg hlarge, hblock, Option.getD_some, hsize] at hcontents
    rw [Pickle.largerBlock, if_neg hold, hblock, Option.getD_some]
    refine ⟨length_realloc .., ?_⟩
    have hkeep : block.length ≤ e.size * newCapacity := by
      rw [hlength]
      exact Nat.mul_le_mul_left _ hgrow
    have hinside : target.count * e.size ≤ block.length := by
      rw [hlength, Nat.mul_comm]
      exact Nat.mul_le_mul_left _ hle
    rw [CLibrary.realloc, List.take_of_length_le hkeep, List.take_append_of_le_length hinside]
    exact hcontents

/-- One append: in place, or into a larger block when the storage is full. -/
theorem Appended.append (lib : CLibrary) (h : Appended target values) (value : BitVec e.width) :
    Appended (appendValueToBuffer lib target value) (values ++ [value]) := by
  obtain ⟨hpos, hcap, h16⟩ := smallBufferCapacity_spec e
  have hsize := h.size
  have hcontents := h.contents
  rw [VariantBuffer.contents, tweakBufferGetData] at hcontents
  simp only [appendValueToBuffer, Nat.add_sub_cancel]
  rcases h.storage with ⟨hcapacity, hle, hnone⟩ | ⟨hlt, hle, block, hblock, hlength⟩
  · have hnew : (if target.capacity = 0 then smallBufferCapacity e else target.capacity) =
        smallBufferCapacity e := by
      rcases hcapacity with hcapacity | ⟨hcapacity, _⟩
      · rw [if_neg (by omega), hcapacity]
      · rw [if_pos hcapacity]
    have hsmall : target.buffer.size ≤ smallBufferSize := by
      rw [hsize]
      exact mul_size_le_iff.mpr hle
    rw [if_pos hsmall, hsize] at hcontents
    rw [hnew]
    by_cases hfull : smallBufferCapacity e < target.count + 1
    · -- the small buffer is full: the values move to the heap
      rw [if_pos hfull]
      obtain ⟨hlength, hdata⟩ := h.largerBlock lib (smallBufferCapacity e * 3 / 2)
        (by omega) (by omega)
      exact appended_heap _ value h.count hdata hlength hfull (by omega)
    · rw [if_neg hfull, if_pos hsmall, hnone]
      have hroom : (target.count + 1) * e.size ≤ smallBufferSize :=
        mul_size_le_iff.mpr (by omega)
      refine ⟨?_, rfl, ?_, .inl ⟨.inl rfl, Nat.le_of_not_lt hfull, rfl⟩⟩
      · rw [List.length_append, List.length_singleton, h.count]
      · rw [VariantBuffer.contents, tweakBufferGetData, if_pos hroom, Block.val_write]
        exact take_blit_element value hcontents (by rw [Block.length_val]; exact hroom)
  · have hlarge : ¬ target.buffer.size ≤ smallBufferSize := by
      rw [hsize, mul_size_le_iff]
      omega
    rw [if_neg hlarge, hblock, Option.getD_some, hsize] at hcontents
    rw [if_neg (by omega : ¬ target.capacity = 0)]
    by_cases hfull : target.capacity < target.count + 1
    · rw [if_pos hfull]
      obtain ⟨hlength, hdata⟩ := h.largerBlock lib (target.capacity * 3 / 2)
        (by omega) (by omega)
      exact appended_heap _ value h.count hdata hlength (by omega) (by omega)
    · rw [if_neg hfull, if_neg hlarge, hblock, Option.map_some]
      exact appended_heap _ value h.count hcontents hlength (by omega) (by omega)

/-- The appends of the elements of a vector, in order. -/
def appendAll (libs : Nat → CLibrary) (target : Target) (values : List (BitVec e.width)) : Target :=
  values.foldl (fun target value => appendValueToBuffer (libs target.count) target value) target

/-- All elements are appended. -/
theorem Appended.appendAll (libs : Nat → CLibrary) {done : List (BitVec e.width)}
    (h : Appended target done) (values : List (BitVec e.width)) :
    Appended (appendAll libs target values) (done ++ values) := by
  induction values generalizing target done with
  | nil =>
    rw [List.append_nil]
    exact h
  | cons value values ih =>
    have hrest := ih (h.append (libs target.count) value)
    rw [List.append_assoc] at hrest
    exact hrest

/-! ## The round trip -/

/-- The buffer is a vector of the given elements. -/
structure Represents (buffer : VariantBuffer) (values : List (BitVec e.width)) : Prop where
  shape : buffer.WellFormed
  contents : buffer.contents = vectorBytes values

variable {buffer : VariantBuffer}

theorem Represents.size (h : Represents buffer values) : buffer.size = values.length * e.size := by
  rw [← h.shape.length_contents, h.contents, length_vectorBytes]

theorem Appended.represents (h : Appended target values) :
    Represents target.buffer values := ⟨h.wellFormed, h.contents⟩

/-- One element on the wire. -/
def wireElement (value : BitVec e.width) : Bytes :=
  pbEncodeTag e.wireType bufferTag ++ pbEncodeFixed e.targetSize (e.toTarget value)

/-- What the encoder writes, element by element. -/
theorem pbVariantEncodeBuffer_eq (h : Represents buffer values) :
    pbVariantEncodeBuffer e buffer = values.flatMap wireElement := by
  obtain ⟨hpos, _⟩ := smallBufferCapacity_spec e
  have hcount : buffer.size / e.size = values.length := by
    rw [h.size, Nat.mul_div_cancel _ hpos]
  have hdata : tweakBufferGetData buffer =
      vectorBytes values ++ (tweakBufferGetData buffer).drop buffer.size := by
    rw [← h.contents, VariantBuffer.contents, List.take_append_drop]
  have helem (ix : Nat) (hix : ix < values.length) :
      elementAt e (tweakBufferGetData buffer) ix = values[ix] := by
    rw [hdata]
    exact elementAt_vectorBytes values _ ix hix
  have hvalues : (List.range values.length).map (elementAt e (tweakBufferGetData buffer)) =
      values := by
    apply List.ext_getElem
    · rw [List.length_map, List.length_range]
    · intro ix _ hix
      rw [List.getElem_map, List.getElem_range, helem ix hix]
  have hmap := List.flatMap_map (elementAt e (tweakBufferGetData buffer)) wireElement
    (List.range values.length)
  rw [hvalues] at hmap
  rw [pbVariantEncodeBuffer, hcount]
  exact hmap.symm

private theorem wireType_lt (e : ElementType) : e.wireType < 8 := by
  cases e <;> decide

/-- One encoded element at the head of the stream. -/
theorem decodeBufferLoop_wireElement (libs : Nat → CLibrary) (fuel : Nat) (target : Target)
    (value : BitVec e.width) (rest : Bytes) :
    decodeBufferLoop libs e (fuel + 1) target (wireElement value ++ rest) =
      decodeBufferLoop libs e fuel (appendValueToBuffer (libs target.count) target value) rest := by
  rw [wireElement, List.append_assoc]
  have htag := pbDecodeTag_encode (wireType_lt e) (by decide : bufferTag < 2 ^ 29)
    (pbEncodeFixed e.targetSize (e.toTarget value) ++ rest)
  have hne : pbEncodeTag e.wireType bufferTag ≠ [] := pbEncodeVarint_ne_nil _
  cases hbytes : pbEncodeTag e.wireType bufferTag with
  | nil => exact absurd hbytes hne
  | cons byte bytes =>
    rw [hbytes] at htag
    rw [List.cons_append] at htag ⊢
    rw [decodeBufferLoop, htag]
    simp only [pbDecodeFixed_encode, ElementType.ofTarget_toTarget]

/-- The loop appends one element after another. -/
theorem decodeBufferLoop_wireElements (libs : Nat → CLibrary) (values : List (BitVec e.width)) :
    ∀ (fuel : Nat) (target : Target), values.length ≤ fuel →
      decodeBufferLoop libs e fuel target (values.flatMap wireElement) =
        some (appendAll libs target values).buffer := by
  induction values with
  | nil =>
    intro fuel target _
    cases fuel <;> rfl
  | cons value values ih =>
    intro fuel target hfuel
    rw [List.length_cons] at hfuel
    obtain ⟨fuel, rfl⟩ := Nat.exists_eq_add_one_of_ne_zero (by omega : fuel ≠ 0)
    rw [List.flatMap_cons, decodeBufferLoop_wireElement, ih _ _ (by omega)]
    rfl

/-- The stream has a byte or more for every element. -/
theorem length_le_wireElements (values : List (BitVec e.width)) :
    values.length ≤ (values.flatMap wireElement).length := by
  induction values with
  | nil => exact Nat.zero_le _
  | cons value values ih =>
    have hpos : 0 < (wireElement value).length := by
      rw [wireElement, List.length_append]
      exact Nat.add_pos_left (List.length_pos_iff.mpr (pbEncodeVarint_ne_nil _)) _
    rw [List.flatMap_cons, List.length_append, List.length_cons]
    omega

/-- Decoding what was encoded from a vector appends its elements, one after the other, to an empty
target. -/
theorem pbVariantDecodeBuffer_encode (libs : Nat → CLibrary) (h : Represents buffer values) :
    pbVariantDecodeBuffer libs e (pbVariantEncodeBuffer e buffer) =
      some (appendAll libs .init values).buffer := by
  rw [pbVariantEncodeBuffer_eq h, pbVariantDecodeBuffer]
  exact decodeBufferLoop_wireElements libs values _ .init (length_le_wireElements values)

end TweakTool.Pickle
