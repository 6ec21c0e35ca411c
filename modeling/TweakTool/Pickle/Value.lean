import TweakTool.Pickle.Vector

/-! # Values on the wire

The `value` message of `tweak.proto` and the two tables of `tweakpickle_pb_util.c` between it and
`tweak_variant`: `tweak_pickle_pb_variant_to_value` and `tweak_pickle_pb_value_to_variant`, with the
callbacks for strings and vectors.

The union of `tweak_pb_value` is modelled by its first eight bytes; a narrower member is made of
the low bytes, as on a little-endian host. -/

namespace TweakTool.Pickle

open TweakTool.Lib TweakTool.Common

/-- `tweak_variant`, with the string and buffer objects it has in memory. -/
abbrev PVariant := VariantOf VariantString VariantBuffer

/-- What a value means: its type, and its bits, text or bytes. -/
def view : PVariant → VariantOf (Option CString) Bytes
  | .null => .null
  | .bool b => .bool b
  | .num t bits => .num t bits
  | .string s => .string (tweakVariantStringCStr s)
  | .vector t b => .vector t b.contents

/-! ## The message -/

/-- The members of the oneof `values`. -/
inductive ValueTag where
  | isNull
  | scalarBool
  | scalar (t : NumType)
  | string
  | buffer (t : NumType)
  deriving DecidableEq, Repr

namespace ValueTag

/-- `tweak_pb_value_*_tag`. -/
def number : ValueTag → Nat
  | .isNull => 1
  | .scalarBool => 2
  | .scalar .sint8 => 3
  | .scalar .sint16 => 4
  | .scalar .sint32 => 5
  | .scalar .sint64 => 6
  | .scalar .uint8 => 7
  | .scalar .uint16 => 8
  | .scalar .uint32 => 9
  | .scalar .uint64 => 10
  | .scalar .float => 11
  | .scalar .double => 12
  | .string => 13
  | .buffer .sint8 => 14
  | .buffer .sint16 => 15
  | .buffer .sint32 => 16
  | .buffer .sint64 => 17
  | .buffer .uint8 => 18
  | .buffer .uint16 => 19
  | .buffer .uint32 => 20
  | .buffer .uint64 => 21
  | .buffer .float => 22
  | .buffer .double => 23

def ofNumber? : Nat → Option ValueTag
  | 1 => some .isNull
  | 2 => some .scalarBool
  | 3 => some (.scalar .sint8)
  | 4 => some (.scalar .sint16)
  | 5 => some (.scalar .sint32)
  | 6 => some (.scalar .sint64)
  | 7 => some (.scalar .uint8)
  | 8 => some (.scalar .uint16)
  | 9 => some (.scalar .uint32)
  | 10 => some (.scalar .uint64)
  | 11 => some (.scalar .float)
  | 12 => some (.scalar .double)
  | 13 => some .string
  | 14 => some (.buffer .sint8)
  | 15 => some (.buffer .sint16)
  | 16 => some (.buffer .sint32)
  | 17 => some (.buffer .sint64)
  | 18 => some (.buffer .uint8)
  | 19 => some (.buffer .uint16)
  | 20 => some (.buffer .uint32)
  | 21 => some (.buffer .uint64)
  | 22 => some (.buffer .float)
  | 23 => some (.buffer .double)
  | _ => none

private theorem ofNumber?_number (tag : ValueTag) : ofNumber? tag.number = some tag := by
  cases tag with
  | scalar t => cases t <;> rfl
  | buffer t => cases t <;> rfl
  | _ => rfl

private theorem number_bounds (tag : ValueTag) : 0 < tag.number ∧ tag.number < 2 ^ 29 := by
  cases tag with
  | scalar t => cases t <;> decide
  | buffer t => cases t <;> decide
  | _ => decide

end ValueTag

/-- `tweak_pb_value`: `which_values`, the union as a scalar, and the variant that the encode
callback of a string or vector gets as its argument. -/
structure PbValue where
  whichValues : Option ValueTag
  bits : BitVec 64
  arg : PVariant

def PbValue.init : PbValue := ⟨none, 0, .null⟩

/-! ## From a variant to the message -/

/-- `tweak_pickle_pb_variant_to_value`. The row of `sint8` has the tag of `sint32`. -/
def tweakPicklePbVariantToValue (src : PVariant) : PbValue :=
  match src with
  | .null => ⟨some .isNull, 1, .null⟩
  | .bool b => ⟨some .scalarBool, if b then 1 else 0, .null⟩
  | .num .sint8 value => ⟨some (.scalar .sint32), (value.signExtend 32).setWidth 64, .null⟩
  | .num .sint16 value => ⟨some (.scalar .sint16), (value.signExtend 32).setWidth 64, .null⟩
  | .num .sint32 value => ⟨some (.scalar .sint32), value.setWidth 64, .null⟩
  | .num .sint64 value => ⟨some (.scalar .sint64), value, .null⟩
  | .num .uint8 value => ⟨some (.scalar .uint8), value.setWidth 64, .null⟩
  | .num .uint16 value => ⟨some (.scalar .uint16), value.setWidth 64, .null⟩
  | .num .uint32 value => ⟨some (.scalar .uint32), value.setWidth 64, .null⟩
  | .num .uint64 value => ⟨some (.scalar .uint64), value, .null⟩
  | .num .float value => ⟨some (.scalar .float), value.setWidth 64, .null⟩
  | .num .double value => ⟨some (.scalar .double), value, .null⟩
  | .string _ => ⟨some .string, 0, src⟩
  | .vector t _ => ⟨some (.buffer t), 0, src⟩

/-- The bytes `tweak_variant_string_c_str(string)[0 .. string->length]`. -/
def stringBytes (s : VariantString) : Bytes := s.storage.take s.length

/-- `pb_variant_encode_string`. There is no tag before the length. -/
def pbVariantEncodeString (s : VariantString) : Bytes := pbEncodeString (stringBytes s)

/-- `pb_variant_encode_raw_buffer`. There is no tag before the length. -/
def pbVariantEncodeRawBuffer (b : VariantBuffer) : Bytes := pbEncodeString b.contents

/-- The encode callback that the table sets for a vector type. -/
def pbVariantEncodeVector : NumType → VariantBuffer → Bytes
  | .sint8 | .uint8 => pbVariantEncodeRawBuffer
  | .sint16 => pbVariantEncodeBuffer .sint16
  | .sint32 => pbVariantEncodeBuffer .sint32
  | .sint64 => pbVariantEncodeBuffer .sint64
  | .uint16 => pbVariantEncodeBuffer .uint16
  | .uint32 => pbVariantEncodeBuffer .uint32
  | .uint64 => pbVariantEncodeBuffer .uint64
  | .float => pbVariantEncodeBuffer .float
  | .double => pbVariantEncodeBuffer .double

/-- What the encode callback writes into the submessage of a string or vector. -/
def encodeCallback : PVariant → Bytes
  | .string s => pbVariantEncodeString s
  | .vector t b => pbVariantEncodeVector t b
  | _ => []

/-- The wire type and the payload of a member of the oneof. -/
def encodeMember (value : PbValue) : ValueTag → WireType × Bytes
  | .isNull | .scalarBool => (wtVarint, pbEncodeVarint (if value.bits.setWidth 8 = 0 then 0 else 1))
  | .scalar .sint8 | .scalar .sint16 | .scalar .sint32 =>
    (wtVarint, pbEncodeVarint (zigzag (value.bits.setWidth 32).toInt))
  | .scalar .sint64 => (wtVarint, pbEncodeVarint (zigzag value.bits.toInt))
  | .scalar .uint8 | .scalar .uint16 | .scalar .uint32 =>
    (wtVarint, pbEncodeVarint (value.bits.setWidth 32).toNat)
  | .scalar .uint64 => (wtVarint, pbEncodeVarint value.bits.toNat)
  | .scalar .float => (wt32Bit, pbEncodeFixed 4 (value.bits.setWidth 32))
  | .scalar .double => (wt64Bit, pbEncodeFixed 8 value.bits)
  | .string | .buffer _ => (wtString, pbEncodeString (encodeCallback value.arg))

/-- `pb_encode` of a `value` message. -/
def encodePbValue (value : PbValue) : Bytes :=
  match value.whichValues with
  | none => []
  | some tag =>
    let (wireType, payload) := encodeMember value tag
    pbEncodeTag wireType tag.number ++ payload

/-! ## From the message to a variant -/

def tweakPicklePbIsScalar (value : PbValue) : Bool :=
  match value.whichValues with
  | some .isNull | some .scalarBool | some (.scalar _) => true
  | some .string | some (.buffer _) | none => false

/-- `tweak_pickle_pb_value_to_variant`. The row of `uint8` reads the member of `sint16`, which has
the same low byte; the row of `uint64` makes a `uint32`. -/
def tweakPicklePbValueToVariant (src : PbValue) : PVariant :=
  match src.whichValues with
  | some .isNull => .null
  | some .scalarBool => .bool (src.bits.setWidth 8 ≠ 0)
  | some (.scalar .sint8) => .num .sint8 (src.bits.setWidth 8)
  | some (.scalar .sint16) => .num .sint16 (src.bits.setWidth 16)
  | some (.scalar .sint32) => .num .sint32 (src.bits.setWidth 32)
  | some (.scalar .sint64) => .num .sint64 src.bits
  | some (.scalar .uint8) => .num .uint8 (src.bits.setWidth 8)
  | some (.scalar .uint16) => .num .uint16 (src.bits.setWidth 16)
  | some (.scalar .uint32) => .num .uint32 (src.bits.setWidth 32)
  | some (.scalar .uint64) => .num .uint32 (src.bits.setWidth 32)
  | some (.scalar .float) => .num .float (src.bits.setWidth 32)
  | some (.scalar .double) => .num .double src.bits
  | some .string | some (.buffer _) | none => .null

/-- `pb_variant_decode_string` into an empty string. What the encoder wrote as a length is read as
a tag, and the rest of the stream is the text. -/
def pbVariantDecodeString (lib : CLibrary) (stream : Bytes) : Option VariantString :=
  match pbDecodeTag stream with
  | none => none
  | some (_, _, rest) => some (tweakAssignString lib .empty (cText (rest ++ [0])))

/-- `pb_variant_decode_raw_buffer` into an empty buffer. The scratch area is always the small one,
because it is the size of the *target* that is compared; a longer stream is written beyond it, and
then nothing is said about the result. -/
def pbVariantDecodeRawBuffer (lib : CLibrary) (stream : Bytes) : Option VariantBuffer :=
  match pbDecodeTag stream with
  | none => none
  | some (_, _, rest) =>
    if rest.length ≤ smallBufferSize then some (tweakBufferCreate lib rest) else none

/-- The vector rows of `tweak_pickle_pb_decode_variant`. -/
def pbVariantDecodeVector (libs : Nat → CLibrary) : NumType → Bytes → Option VariantBuffer
  | .sint8 | .uint8 => pbVariantDecodeRawBuffer (libs 0)
  | .sint16 => pbVariantDecodeBuffer libs .sint16
  | .sint32 => pbVariantDecodeBuffer libs .sint32
  | .sint64 => pbVariantDecodeBuffer libs .sint64
  | .uint16 => pbVariantDecodeBuffer libs .uint16
  | .uint32 => pbVariantDecodeBuffer libs .uint32
  | .uint64 => pbVariantDecodeBuffer libs .uint64
  | .float => pbVariantDecodeBuffer libs .float
  | .double => pbVariantDecodeBuffer libs .double

/-- `tweak_pickle_pb_decode_variant`, the callback for the members that are messages. It takes the
whole submessage, so that nothing of it is left to the runtime. -/
def tweakPicklePbDecodeVariant (libs : Nat → CLibrary) (tag : ValueTag) (stream : Bytes) :
    Option PVariant :=
  match tag with
  | .string => (pbVariantDecodeString (libs 0) stream).map .string
  | .buffer t => (pbVariantDecodeVector libs t stream).map (.vector t)
  | .isNull | .scalarBool | .scalar _ => none

/-- A `value` message being decoded, with the variant its callback writes to. -/
structure ValueState where
  value : PbValue
  variant : PVariant

def ValueState.init : ValueState := ⟨.init, .null⟩

/-- Store a decoded scalar in the union. -/
def ValueState.setScalar (s : ValueState) (tag : ValueTag) (bits : BitVec 64) : ValueState :=
  { s with value := { s.value with whichValues := some tag, bits := bits } }

/-- `(int32_t)svalue`, unless it changes the value. -/
def clampInt32 (svalue : Int) : Option (BitVec 64) :=
  if (BitVec.ofInt 32 svalue).toInt = svalue then some ((BitVec.ofInt 32 svalue).setWidth 64)
  else none

/-- `(uint32_t)value`, unless it changes the value. -/
def clampUint32 (value : Nat) : Option (BitVec 64) :=
  if value < 2 ^ 32 then some (BitVec.ofNat 64 value) else none

/-- The scalar payload of a member, by the type its field has in `tweak.proto`. -/
def decodeScalar (tag : ValueTag) (wireType : WireType) (bytes : Bytes) :
    Option (BitVec 64 × Bytes) :=
  match tag with
  | .isNull | .scalarBool =>
    if wireType ≠ wtVarint then none
    else (pbDecodeVarint32 bytes).map fun (value, rest) => (if value ≠ 0 then 1 else 0, rest)
  | .scalar .sint8 | .scalar .sint16 | .scalar .sint32 =>
    if wireType ≠ wtVarint then none
    else (pbDecodeVarint bytes).bind fun (value, rest) =>
      (clampInt32 (unzigzag value)).map fun bits => (bits, rest)
  | .scalar .sint64 =>
    if wireType ≠ wtVarint then none
    else (pbDecodeVarint bytes).map fun (value, rest) => (BitVec.ofInt 64 (unzigzag value), rest)
  | .scalar .uint8 | .scalar .uint16 | .scalar .uint32 =>
    if wireType ≠ wtVarint then none
    else (pbDecodeVarint bytes).bind fun (value, rest) =>
      (clampUint32 value).map fun bits => (bits, rest)
  | .scalar .uint64 =>
    if wireType ≠ wtVarint then none
    else (pbDecodeVarint bytes).map fun (value, rest) => (BitVec.ofNat 64 value, rest)
  | .scalar .float =>
    if wireType ≠ wt32Bit then none
    else (pbDecodeFixed 4 bytes).map fun (value, rest) => (value.setWidth 64, rest)
  | .scalar .double =>
    if wireType ≠ wt64Bit then none else pbDecodeFixed 8 bytes
  | .string | .buffer _ => none

/-- The decoder of one member of the oneof. -/
def decodeMember (libs : Nat → CLibrary) (s : ValueState) (tag : ValueTag) :
    FieldDecoder ValueState := fun wireType bytes =>
  match tag with
  | .string | .buffer _ =>
    if wireType ≠ wtString then none
    else
      match pbMakeStringSubstream bytes with
      | none => none
      | some (stream, rest) =>
        (tweakPicklePbDecodeVariant libs tag stream).map fun variant =>
          (⟨⟨some tag, 0, .null⟩, variant⟩, rest)
  | .isNull | .scalarBool | .scalar _ =>
    (decodeScalar tag wireType bytes).map fun (bits, rest) => (s.setScalar tag bits, rest)

def valueFields (libs : Nat → CLibrary) (s : ValueState) (tag : Nat) :
    Option (FieldDecoder ValueState) :=
  (ValueTag.ofNumber? tag).map (decodeMember libs s)

/-- The variant of a decoded message: the scalar of the union, or what the callback left. -/
def ValueState.result (s : ValueState) : PVariant :=
  if tweakPicklePbIsScalar s.value then tweakPicklePbValueToVariant s.value else s.variant

/-! ## Scalars -/

/-- What the union holds after a scalar has been written, sent and read back. -/
def sentBits (tag : ValueTag) (bits : BitVec 64) : BitVec 64 :=
  match tag with
  | .isNull | .scalarBool => if bits.setWidth 8 = 0 then 0 else 1
  | .scalar .sint64 | .scalar .uint64 | .scalar .double => bits
  | .scalar _ => (bits.setWidth 32).setWidth 64
  | .string | .buffer _ => 0

theorem zigzag_toInt_lt {w : Nat} (x : BitVec w) (h : w ≤ 64) : zigzag x.toInt < 2 ^ 64 := by
  have hlt : 2 * x.toInt < 2 ^ w := BitVec.two_mul_toInt_lt
  have hle : -2 ^ w ≤ 2 * x.toInt := BitVec.le_two_mul_toInt
  have hpow : (2 : Int) ^ w ≤ 2 ^ 64 := by
    exact_mod_cast Nat.pow_le_pow_right (by decide : 0 < 2) h
  rw [zigzag]
  split <;> omega

private theorem clampInt32_toInt (x : BitVec 32) : clampInt32 x.toInt = some (x.setWidth 64) := by
  rw [clampInt32, BitVec.ofInt_toInt, if_pos rfl]

private theorem clampUint32_toNat (x : BitVec 32) : clampUint32 x.toNat = some (x.setWidth 64) := by
  rw [clampUint32, if_pos x.isLt, BitVec.ofNat_toNat]

variable {tag : ValueTag}

/-- The runtime's encoder and decoder of a scalar member are inverse to each other. -/
theorem decodeScalar_encodeMember (value : PbValue)
    (hscalar : tweakPicklePbIsScalar { value with whichValues := some tag } = true) (rest : Bytes) :
    decodeScalar tag (encodeMember value tag).1 ((encodeMember value tag).2 ++ rest) =
      some (sentBits tag value.bits, rest) := by
  have h32 := zigzag_toInt_lt (value.bits.setWidth 32) (by decide)
  have h64 := zigzag_toInt_lt value.bits (by decide)
  have hu32 : (value.bits.setWidth 32).toNat < 2 ^ 64 :=
    Nat.lt_trans (value.bits.setWidth 32).isLt (by decide)
  cases tag with
  | isNull | scalarBool =>
    simp only [decodeScalar, encodeMember, sentBits]
    by_cases hzero : value.bits.setWidth 8 = 0
    · simp only [hzero, if_true]
      rfl
    · simp only [hzero, if_false]
      rfl
  | scalar t =>
    cases t with
    | sint8 | sint16 | sint32 =>
      simp only [decodeScalar, encodeMember, sentBits, ne_eq, not_true_eq_false, if_false,
        pbDecodeVarint_encode h32, Option.bind_some, unzigzag_zigzag, clampInt32_toInt,
        Option.map_some]
    | sint64 =>
      simp only [decodeScalar, encodeMember, sentBits, ne_eq, not_true_eq_false, if_false,
        pbDecodeVarint_encode h64, unzigzag_zigzag, Option.map_some, BitVec.ofInt_toInt]
    | uint8 | uint16 | uint32 =>
      simp only [decodeScalar, encodeMember, sentBits, ne_eq, not_true_eq_false, if_false,
        pbDecodeVarint_encode hu32, Option.bind_some, clampUint32_toNat, Option.map_some]
    | uint64 =>
      simp only [decodeScalar, encodeMember, sentBits, ne_eq, not_true_eq_false, if_false,
        pbDecodeVarint_encode value.bits.isLt, Option.map_some, BitVec.ofNat_toNat,
        BitVec.setWidth_eq]
    | float =>
      simp only [decodeScalar, encodeMember, sentBits, ne_eq, not_true_eq_false, if_false]
      rw [pbDecodeFixed_encode, Option.map_some]
    | double =>
      simp only [decodeScalar, encodeMember, sentBits, ne_eq, not_true_eq_false, if_false]
      exact @pbDecodeFixed_encode 8 value.bits rest
  | string | buffer t => cases hscalar

/-- The tables read only the bytes that are sent. -/
theorem tweakPicklePbValueToVariant_sentBits (tag : ValueTag) (bits : BitVec 64) (arg : PVariant) :
    tweakPicklePbValueToVariant ⟨some tag, sentBits tag bits, .null⟩ =
      tweakPicklePbValueToVariant ⟨some tag, bits, arg⟩ := by
  cases tag with
  | scalarBool =>
    refine congrArg VariantOf.bool (decide_eq_decide.mpr (not_congr ?_))
    show (if bits.setWidth 8 = 0 then (0 : BitVec 64) else 1).setWidth 8 = 0 ↔ _
    by_cases hzero : bits.setWidth 8 = 0
    · rw [if_pos hzero]
      exact iff_of_true rfl hzero
    · rw [if_neg hzero]
      exact iff_of_false (by decide) hzero
  | scalar t =>
    cases t with
    | sint64 | uint64 | double => rfl
    | _ => simp [tweakPicklePbValueToVariant, sentBits]
  | isNull | string | buffer t => rfl

/-- What a scalar arrives as. Two rows of the tables do not belong together. -/
def arrivesAs : PVariant → PVariant
  | .num .sint8 value => .num .sint32 (value.signExtend 32)
  | .num .uint64 value => .num .uint32 (value.setWidth 32)
  | v => v

/-- The scalar types of the tables, `null` excepted. -/
def IsScalar : PVariant → Prop
  | .bool _ | .num _ _ => True
  | .null | .string _ | .vector _ _ => False

/-- A scalar that the union holds in its low bytes is read back from them. -/
theorem setWidth_of_wider {w v : Nat} (h : w ≤ v) (x : BitVec w) :
    (x.setWidth v).setWidth w = x := by
  rw [BitVec.setWidth_setWidth_of_le _ h, BitVec.setWidth_eq]

variable {v : PVariant}

/-- A scalar goes through both tables. -/
theorem tweakPicklePbValueToVariant_variantToValue (h : IsScalar v) :
    tweakPicklePbIsScalar (tweakPicklePbVariantToValue v) = true ∧
    tweakPicklePbValueToVariant (tweakPicklePbVariantToValue v) = arrivesAs v := by
  cases v with
  | null | string s | vector t b => exact h.elim
  | bool b => cases b <;> exact ⟨rfl, rfl⟩
  | num t value =>
    refine ⟨by cases t <;> rfl, ?_⟩
    cases t with
    | sint64 | uint64 | double => rfl
    | sint8 =>
      exact congrArg (VariantOf.num .sint32) (setWidth_of_wider (by decide) _)
    | sint16 =>
      refine congrArg (VariantOf.num .sint16) ?_
      exact (BitVec.setWidth_setWidth_of_le _ (by decide)).trans
        (setWidth_signExtend (by decide) value)
    | sint32 => exact congrArg (VariantOf.num .sint32) (setWidth_of_wider (by decide) _)
    | uint8 => exact congrArg (VariantOf.num .uint8) (setWidth_of_wider (by decide) _)
    | uint16 => exact congrArg (VariantOf.num .uint16) (setWidth_of_wider (by decide) _)
    | uint32 => exact congrArg (VariantOf.num .uint32) (setWidth_of_wider (by decide) _)
    | float => exact congrArg (VariantOf.num .float) (setWidth_of_wider (by decide) _)

/-! ## Strings -/

variable {t : CString}

/-- The text of a string is what its storage begins with. -/
theorem stringBytes_eq {s : VariantString} (h : Strings.Implements s t) :
    stringBytes s = t.val := by
  have hblock : cText s.storage = some t := by rw [← VariantString.cStr_eq, h.text]
  obtain ⟨rest, hrest⟩ := eq_append_of_cText hblock
  rw [stringBytes, hrest, h.length, List.take_left]

/-- The length before the text is read as a tag, and the text is what follows. -/
theorem pbVariantDecodeString_encode (lib : CLibrary) {s : VariantString}
    (h : Strings.Implements s t) (hsize : t.val.length < 2 ^ 32) :
    ∃ result, pbVariantDecodeString lib (pbVariantEncodeString s) = some result ∧
      Strings.Implements result t := by
  have hgrow : Strings.GrowthFits VariantString.empty.init.capacity t.val.length := by
    intro _
    rw [sizeModulus]
    omega
  have htag : pbDecodeTag (pbEncodeString t.val) =
      some (t.val.length / 8, t.val.length % 8, t.val) := by
    rw [pbDecodeTag, pbEncodeString, pbDecodeVarint32_encode hsize]
    rfl
  have hstores : Stores (tweakAssignString lib .empty (some t)) t :=
    stores_assign Stores.empty hgrow
  refine ⟨_, ?_, hstores.implements⟩
  rw [pbVariantEncodeString, stringBytes_eq h, pbVariantDecodeString, htag]
  show some (tweakAssignString lib .empty (cText (t.val ++ 0 :: []))) = _
  rw [cText_append]

/-! ## The round trip of a value -/

/-- A scalar, or a string with a text. -/
def Plain (v : PVariant) : Prop :=
  IsScalar v ∨ ∃ s t, v = .string s ∧ Strings.Implements s t

private theorem decodeMember_scalar {bits : BitVec 64} {arg : PVariant}
    (h : tweakPicklePbIsScalar ⟨some tag, bits, arg⟩ = true) (libs : Nat → CLibrary)
    (s : ValueState) (wireType : WireType) (bytes : Bytes) :
    decodeMember libs s tag wireType bytes =
      (decodeScalar tag wireType bytes).map fun (bits, rest) => (s.setScalar tag bits, rest) := by
  cases tag with
  | string | buffer t => cases h
  | isNull | scalarBool | scalar t => rfl

theorem encodeMember_wireType_lt (value : PbValue) (tag : ValueTag) :
    (encodeMember value tag).1 < 8 := by
  have hwire : wtVarint < 8 ∧ wt64Bit < 8 ∧ wtString < 8 ∧ wt32Bit < 8 := by decide
  obtain ⟨hvarint, h64, hstring, h32⟩ := hwire
  cases tag with
  | isNull | scalarBool => exact hvarint
  | scalar t => cases t <;> assumption
  | string | buffer t => exact hstring

/-- A message with one member, as the bytes of that member. -/
theorem parses_member {libs : Nat → CLibrary} {value : PbValue} {s : ValueState}
    (htag : value.whichValues = some tag)
    (hdecode : ∀ rest, decodeMember libs .init tag (encodeMember value tag).1
      ((encodeMember value tag).2 ++ rest) = some (s, rest)) :
    Parses (valueFields libs) .init (encodePbValue value) s := by
  have hknown : valueFields libs .init tag.number = some (decodeMember libs .init tag) := by
    rw [valueFields, ValueTag.ofNumber?_number, Option.map_some]
  have hparses := Parses.field (encodeMember_wireType_lt value tag) tag.number_bounds hknown hdecode
    (.nil s)
  rw [List.append_nil] at hparses
  rw [encodePbValue, htag]
  exact hparses

private theorem parses_scalar (libs : Nat → CLibrary) (h : IsScalar v) :
    ∃ s, Parses (valueFields libs) .init (encodePbValue (tweakPicklePbVariantToValue v)) s ∧
      s.result = arrivesAs v := by
  obtain ⟨hscalar, hvariant⟩ := tweakPicklePbValueToVariant_variantToValue h
  generalize tweakPicklePbVariantToValue v = value at hscalar hvariant ⊢
  obtain ⟨which, bits, arg⟩ := value
  cases which with
  | none => cases hscalar
  | some tag =>
    have hsent : tweakPicklePbIsScalar ⟨some tag, sentBits tag bits, .null⟩ = true := hscalar
    refine ⟨ValueState.init.setScalar tag (sentBits tag bits), parses_member rfl ?_, ?_⟩
    · intro rest
      rw [decodeMember_scalar hscalar, decodeScalar_encodeMember ⟨some tag, bits, arg⟩ hscalar]
      rfl
    · rw [ValueState.result]
      show (if tweakPicklePbIsScalar ⟨some tag, sentBits tag bits, .null⟩ = true then
        tweakPicklePbValueToVariant ⟨some tag, sentBits tag bits, .null⟩ else _) = _
      rw [if_pos hsent, tweakPicklePbValueToVariant_sentBits tag bits arg, hvariant]

/-- A string arrives with its text. -/
theorem parses_string (libs : Nat → CLibrary) {string : VariantString}
    (h : Strings.Implements string t)
    (hsize : (encodePbValue (tweakPicklePbVariantToValue (.string string))).length < 2 ^ 32) :
    ∃ s, Parses (valueFields libs) .init
        (encodePbValue (tweakPicklePbVariantToValue (.string string))) s ∧
      view s.result = .string (some t) := by
  have hinner : (pbVariantEncodeString string).length < 2 ^ 32 := by
    refine Nat.lt_of_le_of_lt ?_ hsize
    simp only [encodePbValue, tweakPicklePbVariantToValue, encodeMember, encodeCallback,
      pbEncodeString, List.length_append]
    omega
  have htext : t.val.length < 2 ^ 32 := by
    refine Nat.lt_of_le_of_lt ?_ hinner
    rw [pbVariantEncodeString, stringBytes_eq h, pbEncodeString, List.length_append]
    omega
  obtain ⟨result, hresult, himpl⟩ := pbVariantDecodeString_encode (libs 0) h htext
  refine ⟨⟨⟨some .string, 0, .null⟩, .string result⟩, parses_member rfl ?_, ?_⟩
  · intro rest
    have hsub := pbMakeStringSubstream_encode hinner rest
    simp only [decodeMember, encodeMember, tweakPicklePbVariantToValue, encodeCallback, ne_eq,
      not_true_eq_false, if_false, hsub, tweakPicklePbDecodeVariant, hresult, Option.map_some]
  · exact congrArg VariantOf.string himpl.text

/-- What a value arrives as, whatever the peer's library does. -/
theorem parses_value (libs : Nat → CLibrary) (h : Plain v)
    (hsize : (encodePbValue (tweakPicklePbVariantToValue v)).length < 2 ^ 32) :
    ∃ s, Parses (valueFields libs) .init (encodePbValue (tweakPicklePbVariantToValue v)) s ∧
      view s.result = view (arrivesAs v) := by
  rcases h with hscalar | ⟨string, t, rfl, ht⟩
  · obtain ⟨s, hparses, hresult⟩ := parses_scalar libs hscalar
    exact ⟨s, hparses, congrArg view hresult⟩
  · obtain ⟨s, hparses, hview⟩ := parses_string libs ht hsize
    exact ⟨s, hparses, hview.trans (congrArg VariantOf.string ht.text.symm)⟩

/-! ## The round trip of a vector -/

/-- What a vector is sent with is received again, with all its elements; and at every moment of
the reception the target is a vector of the elements received so far, in the small buffer if they
fit and else in a heap block with room for them. -/
theorem tweakPicklePbDecodeVariant_vector (libs : Nat → CLibrary) (e : ElementType)
    (values : List (BitVec e.width)) (buffer : VariantBuffer) (h : Represents buffer values) :
    (∃ value result, tweakPicklePbVariantToValue (.vector e.numType buffer) = value ∧
      value.whichValues = some (.buffer e.numType) ∧
      tweakPicklePbDecodeVariant libs (.buffer e.numType) (encodeCallback value.arg) =
        some (.vector e.numType result) ∧
      result = (appendAll libs .init values).buffer ∧ Represents result values) ∧
    ∀ n ≤ values.length, ∃ target, appendAll libs .init (values.take n) = target ∧
      target.count = n ∧ target.buffer.size = n * e.size ∧
      Represents target.buffer (values.take n) := by
  have hpre (received : List (BitVec e.width)) :
      Appended (appendAll libs .init received) received := appended_init.appendAll libs received
  constructor
  · refine ⟨_, _, rfl, rfl, ?_, rfl, (hpre values).represents⟩
    have hencode : encodeCallback (tweakPicklePbVariantToValue (.vector e.numType buffer)).arg =
        pbVariantEncodeBuffer e buffer := by
      cases e <;> rfl
    have hdecode : pbVariantDecodeVector libs e.numType = pbVariantDecodeBuffer libs e := by
      cases e <;> rfl
    rw [hencode, tweakPicklePbDecodeVariant, hdecode, pbVariantDecodeBuffer_encode libs h]
    rfl
  · intro n hn
    have happended := hpre (values.take n)
    have hcount : (appendAll libs .init (values.take n)).count = n := by
      rw [happended.count, List.length_take, Nat.min_eq_left hn]
    refine ⟨_, rfl, hcount, ?_, happended.represents⟩
    rw [happended.size, hcount]

/-- Numbers that take up twenty bytes more than the small buffer has. -/
def thirtySeven : List (BitVec ElementType.sint32.width) :=
  (List.range 37).map fun n => BitVec.ofInt _ (-n)

theorem tweakPicklePbDecodeVariant_vector_thirtySeven :
    ∃ buffer result,
      tweakPicklePbDecodeVariant (fun _ => Strings.zeroLibrary) (.buffer .sint32)
        (encodeCallback (.vector .sint32 buffer)) = some (.vector .sint32 result) ∧
      Represents result thirtySeven := by
  have hcreate := tweakBufferCreate_spec Strings.zeroLibrary (vectorBytes thirtySeven)
  have hvector : Represents (tweakBufferCreate Strings.zeroLibrary (vectorBytes thirtySeven))
      thirtySeven := ⟨hcreate.1, hcreate.2⟩
  obtain ⟨⟨value, result, rfl, _, hdecode, _, hresult⟩, _⟩ :=
    tweakPicklePbDecodeVariant_vector (fun _ => Strings.zeroLibrary) .sint32 thirtySeven _ hvector
  exact ⟨_, result, hdecode, hresult⟩

end TweakTool.Pickle
