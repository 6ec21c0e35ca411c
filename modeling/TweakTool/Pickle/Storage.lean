import TweakTool.Pickle.RoundTrip

/-! # What the decoders do to storage

Two decoders look at the sizes of the storage they use. `pb_variant_decode_raw_buffer` reads a
vector of bytes into a scratch area, and decides from the size of its *target* whether the area is
on the stack or on the heap. `tweak_pickle_pb_decode_string` counts the terminator of a text in the
size that it reserves, and `tweak_pickle_pb_reserve_string` takes that size for the length. -/

namespace TweakTool.Pickle

open TweakTool.Lib TweakTool.Common

/-! ## The scratch area -/

/-- What `pb_variant_decode_raw_buffer` does when the stream begins with a tag. -/
structure RawDecoding where
  scratch : Nat -- the number of bytes of the area that `tmp` points to
  written : Nat -- `pb_read` writes the positions of the area below this one
  buffer : VariantBuffer -- what `tweak_buffer_create` makes of the bytes read

/-- The area is large enough for what is written to it. -/
def RawDecoding.Inside (d : RawDecoding) : Prop := d.written ≤ d.scratch

instance (d : RawDecoding) : Decidable d.Inside := inferInstanceAs (Decidable (_ ≤ _))

/-- The size of the area for a target and the number of bytes to be read. -/
def scratchSize (target : VariantBuffer) (size : Nat) : Nat :=
  if smallBufferSize < target.size then size else smallBufferSize

/-- `pb_variant_decode_raw_buffer` into any buffer, with its scratch area. -/
def decodeRawInto (lib : CLibrary) (target : VariantBuffer) (stream : Bytes) :
    Option RawDecoding :=
  (pbDecodeTag stream).map fun (_, _, rest) =>
    { scratch := scratchSize target rest.length
      written := rest.length
      buffer := tweakBufferCreate lib rest }

/-- The model that is used for messages says nothing of a decoding that is not inside. -/
theorem pbVariantDecodeRawBuffer_eq (lib : CLibrary) (stream : Bytes) :
    pbVariantDecodeRawBuffer lib stream =
      ((decodeRawInto lib .empty stream).filter (·.Inside)).map (·.buffer) := by
  rw [pbVariantDecodeRawBuffer, decodeRawInto]
  cases pbDecodeTag stream with
  | none => rfl
  | some read =>
    obtain ⟨tag, wireType, rest⟩ := read
    by_cases hfits : rest.length ≤ smallBufferSize
    · have hinside : (RawDecoding.mk (scratchSize .empty rest.length) rest.length
          (tweakBufferCreate lib rest)).Inside := hfits
      simp [hfits, Option.filter, hinside]
    · have hoverflow : ¬ (RawDecoding.mk (scratchSize .empty rest.length) rest.length
          (tweakBufferCreate lib rest)).Inside := hfits
      simp [hfits, Option.filter, hoverflow]

/-- Decoding the bytes into an empty buffer stays inside an area of their number at least, and the
buffer then holds exactly them. -/
def StaysInside (lib : CLibrary) (bytes stream : Bytes) : Prop :=
  ∃ d, decodeRawInto lib .empty stream = some d ∧ d.Inside ∧ bytes.length ≤ d.scratch ∧
    d.buffer.WellFormed ∧ d.buffer.size = bytes.length ∧ d.buffer.contents = bytes

/-- The target is empty, so the area is the one on the stack whatever is to be read. -/
theorem scratchSize_empty (size : Nat) : scratchSize .empty size = smallBufferSize := rfl

/-- The length before the bytes is read as a tag, and the bytes are what follows. -/
theorem decodeRawInto_encode (lib : CLibrary) (target : VariantBuffer) {bytes : Bytes}
    (h : bytes.length < 2 ^ 32) :
    decodeRawInto lib target (pbEncodeString bytes) =
      some ⟨scratchSize target bytes.length, bytes.length, tweakBufferCreate lib bytes⟩ := by
  rw [decodeRawInto, pbDecodeTag, pbEncodeString, pbDecodeVarint32_encode h]
  rfl

/-- A vector of bytes is decoded inside the scratch area if and only if it fits into the inline
storage of a buffer. -/
theorem pbVariantDecodeRawBuffer_inside_iff (lib : CLibrary) (bytes : Bytes) (buffer : VariantBuffer)
    (hbuffer : buffer.WellFormed ∧ buffer.contents = bytes) :
    StaysInside lib bytes (pbVariantEncodeRawBuffer buffer) ↔ bytes.length ≤ smallBufferSize := by
  rw [pbVariantEncodeRawBuffer, hbuffer.2]
  constructor
  · rintro ⟨d, hd, -, hroom, -⟩
    -- Whatever has been read, the area is the one on the stack.
    rw [decodeRawInto, Option.map_eq_some_iff] at hd
    obtain ⟨_, -, rfl⟩ := hd
    exact hroom
  · intro hfits
    have hsmall : bytes.length < 2 ^ 32 := Nat.lt_of_le_of_lt hfits (by decide)
    have ⟨hformed, hcontents⟩ := tweakBufferCreate_spec lib bytes
    have hsize : (tweakBufferCreate lib bytes).size = bytes.length := by
      rw [← hformed.length_contents, hcontents]
    have hdecoded := decodeRawInto_encode lib .empty hsmall
    rw [scratchSize_empty] at hdecoded
    exact ⟨_, hdecoded, hfits, hfits, hformed, hsize, hcontents⟩

/-- A vector that fills the inline storage. -/
def fullVector : Bytes := (List.range 128).map UInt8.ofNat

/-- A vector of one byte more than the inline storage. -/
def longVector : Bytes := List.replicate 129 7

theorem pbVariantDecodeRawBuffer_inside_fullVector :
    fullVector.length = smallBufferSize ∧
      StaysInside Strings.zeroLibrary fullVector
        (pbVariantEncodeRawBuffer (tweakBufferCreate Strings.zeroLibrary fullVector)) := by
  have hlength : fullVector.length = smallBufferSize := by
    rw [fullVector, List.length_map, List.length_range]
    rfl
  exact ⟨hlength, (pbVariantDecodeRawBuffer_inside_iff Strings.zeroLibrary fullVector _
    (tweakBufferCreate_spec ..)).mpr (Nat.le_of_eq hlength)⟩

/-- The 129th byte is written behind the array on the stack. -/
theorem not_staysInside_longVector :
    ¬ StaysInside Strings.zeroLibrary longVector
      (pbVariantEncodeRawBuffer (tweakBufferCreate Strings.zeroLibrary longVector)) := by
  rw [pbVariantEncodeRawBuffer, (tweakBufferCreate_spec _ longVector).2]
  rintro ⟨d, hd, hinside, -⟩
  have hlength : longVector.length = 129 := List.length_replicate
  rw [decodeRawInto_encode _ _ (by rw [hlength]; decide)] at hd
  obtain rfl := Option.some.inj hd
  rw [RawDecoding.Inside, hlength, scratchSize_empty] at hinside
  exact absurd hinside (by decide)

/-! ## The length of a text -/

/-- The fields of a message that are decoded to a text carry the text and nothing else: its length,
and its bytes when it is encoded again. -/
def Canonical (lib : CLibrary) (t : CString) : Prop :=
  let decoded := tweakPicklePbDecodeString lib .empty t.val
  decoded.length = t.val.length ∧
    ∀ tag, tweakPicklePbEncodeString tag decoded = encodeDelimited tag t.val

/-- What a client that forwards what it received sends for a text. -/
def forward (lib : CLibrary) (stream : Bytes) : Bytes :=
  stringBytes (tweakPicklePbDecodeString lib .empty stream)

/-- `tweak_pickle_pb_reserve_string` is asked for the text with its terminator. -/
theorem length_tweakPicklePbDecodeString (lib : CLibrary) (string : VariantString)
    (stream : Bytes) : (tweakPicklePbDecodeString lib string stream).length = stream.length + 1 := by
  rw [tweakPicklePbDecodeString]
  split <;> rfl

/-- Forwarding a text adds its terminator to it. -/
theorem forward_eq (lib : CLibrary) (stream : Bytes) : forward lib stream = stream ++ [0] := by
  obtain ⟨rest, hrest⟩ := storage_tweakPicklePbDecodeString lib stream
  have hlength : (stream ++ [0]).length = stream.length + 1 := by
    rw [List.length_append, List.length_singleton]
  rw [forward, stringBytes, hrest, length_tweakPicklePbDecodeString, ← hlength, List.take_left]

/-- Every client on the way adds one more. -/
theorem iterate_forward (lib : CLibrary) (stream : Bytes) (clients : Nat) :
    (forward lib)^[clients] stream = stream ++ List.replicate clients 0 := by
  induction clients with
  | zero => exact (List.append_nil stream).symm
  | succ clients ih =>
    rw [Function.iterate_succ_apply', ih, forward_eq, List.append_assoc,
      List.replicate_succ']

/-- No text is decoded to a canonical string: the length is one too large, a chain of clients adds
as many NULs as it has members, and nothing else happens to the text. -/
theorem tweakPicklePbDecodeString_not_canonical (lib : CLibrary) (t : CString) :
    ¬ Canonical lib t ∧
      (tweakPicklePbDecodeString lib .empty t.val).length = t.val.length + 1 ∧
      (∀ tag, tweakPicklePbEncodeString tag (tweakPicklePbDecodeString lib .empty t.val) =
        encodeDelimited tag (t.val ++ [0])) ∧
      ∀ clients, (forward lib)^[clients] t.val = t.val ++ List.replicate clients 0 := by
  have hlength := length_tweakPicklePbDecodeString lib .empty t.val
  refine ⟨?_, hlength, ?_, iterate_forward lib t.val⟩
  · rintro ⟨hcanonical, -⟩
    exact absurd (hlength.symm.trans hcanonical) (by omega)
  · intro tag
    rw [tweakPicklePbEncodeString]
    exact congrArg (encodeDelimited tag) (forward_eq lib t.val)

/-- Even the empty text comes out with a length of one. -/
theorem not_canonical_empty : ¬ Canonical Strings.zeroLibrary CString.empty := by
  rintro ⟨hlength, -⟩
  rw [length_tweakPicklePbDecodeString] at hlength
  exact absurd hlength (by decide)

end TweakTool.Pickle
