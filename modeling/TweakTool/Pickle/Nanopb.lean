import TweakTool.Lib.Bytes

/-! # The protobuf runtime

`autogen/pb_encode.c` and `pb_decode.c`, as far as the pickle layer uses them: varints, tags, fixed
size numbers, length-delimited strings, and the loop that decodes the fields of a message. A
stream is the list of the bytes that are left in it; `none` is a `false` result.

The loop `pbDecode` is over an arbitrary message state: for each tag the message either has a
field decoder, or does not know the tag and the field is skipped. -/

namespace TweakTool.Pickle

open TweakTool.Lib

/-! ## Varints -/

/-- Seven bits a byte, least significant first, at most `fuel` bytes. -/
def varintBytes : (fuel n : Nat) → Bytes
  | 0, _ => []
  | fuel + 1, n =>
    if n < 128 then [UInt8.ofNat n]
    else UInt8.ofNat (n % 128 + 128) :: varintBytes fuel (n / 128)

/-- `pb_encode_varint`. Ten bytes hold every `uint64_t`. -/
def pbEncodeVarint (n : Nat) : Bytes := varintBytes 10 n

/-- The loop of `pb_decode_varint`. -/
def varintLoop (result bitpos : Nat) : Bytes → Option (Nat × Bytes)
  | [] => none
  | byte :: bytes =>
    if 64 ≤ bitpos then none
    else
      let result := (result + byte.toNat % 128 * 2 ^ bitpos) % 2 ^ 64
      if byte.toNat < 128 then some (result, bytes) else varintLoop result (bitpos + 7) bytes

def pbDecodeVarint (bytes : Bytes) : Option (Nat × Bytes) := varintLoop 0 0 bytes

/-- Whether the bits of `byte` above the 32-bit result are zeros, or ones after a sign bit. -/
def validExtension (result bitpos : Nat) (byte : UInt8) : Bool :=
  byte.toNat % 128 = 0 ∨ result / 2 ^ 31 ≠ 0 ∧ byte.toNat = if bitpos < 63 then 0xFF else 0x01

/-- The loop of `pb_decode_varint32_eof`. -/
def varint32Loop (result bitpos : Nat) : Bytes → Option (Nat × Bytes)
  | [] => none
  | byte :: bytes =>
    if 32 ≤ bitpos ∧ (64 ≤ bitpos ∨ validExtension result bitpos byte = false) then none
    else
      let result :=
        if 32 ≤ bitpos then result else (result + byte.toNat % 128 * 2 ^ bitpos) % 2 ^ 32
      if 128 ≤ byte.toNat then varint32Loop result (bitpos + 7) bytes
      -- the byte at bit 28 has room for four bits only
      else if bitpos = 28 ∧ 16 ≤ byte.toNat % 128 then none
      else some (result, bytes)

def pbDecodeVarint32 (bytes : Bytes) : Option (Nat × Bytes) := varint32Loop 0 0 bytes

/-- The zigzag code of `pb_encode_svarint`. -/
def zigzag (value : Int) : Nat := if value < 0 then (-2 * value - 1).toNat else (2 * value).toNat

/-- The decoding of `pb_decode_svarint`. -/
def unzigzag (n : Nat) : Int := if n % 2 = 1 then -(n / 2 : Nat) - 1 else (n / 2 : Nat)

/-! ## Tags, strings and fixed size numbers -/

abbrev WireType := Nat

def wtVarint : WireType := 0
def wt64Bit : WireType := 1
def wtString : WireType := 2
def wt32Bit : WireType := 5

def pbEncodeTag (wireType : WireType) (tag : Nat) : Bytes := pbEncodeVarint (tag * 8 + wireType)

/-- `pb_decode_tag`: the tag, the wire type and what follows. -/
def pbDecodeTag (bytes : Bytes) : Option (Nat × WireType × Bytes) :=
  (pbDecodeVarint32 bytes).map fun (temp, rest) => (temp / 8, temp % 8, rest)

def pbEncodeString (data : Bytes) : Bytes := pbEncodeVarint data.length ++ data

def pbRead (count : Nat) (bytes : Bytes) : Option (Bytes × Bytes) :=
  if bytes.length < count then none else some (bytes.take count, bytes.drop count)

/-- `pb_make_string_substream`: the substream and what follows it. -/
def pbMakeStringSubstream (bytes : Bytes) : Option (Bytes × Bytes) :=
  match pbDecodeVarint32 bytes with
  | none => none
  | some (size, rest) => pbRead size rest

/-- `pb_encode_fixed32` and `pb_encode_fixed64`, for 4 and 8 bytes. -/
def pbEncodeFixed (size : Nat) (value : BitVec (8 * size)) : Bytes := leBytes size value.toNat

def pbDecodeFixed (size : Nat) (bytes : Bytes) : Option (BitVec (8 * size) × Bytes) :=
  (pbRead size bytes).map fun (value, rest) => (BitVec.ofNat _ (leNat value), rest)

def pbSkipVarint : Bytes → Option Bytes
  | [] => none
  | byte :: bytes => if byte.toNat < 128 then some bytes else pbSkipVarint bytes

def pbSkipField (wireType : WireType) (bytes : Bytes) : Option Bytes :=
  match wireType with
  | 0 => pbSkipVarint bytes
  | 1 => (pbRead 8 bytes).map (·.2)
  | 2 => (pbMakeStringSubstream bytes).map (·.2)
  | 5 => (pbRead 4 bytes).map (·.2)
  | _ => none

/-! ## Messages -/

/-- What a message does with one of its fields: it is given the wire type and the stream after
the tag, and returns the new state and the stream after the field. -/
abbrev FieldDecoder (σ : Type) := WireType → Bytes → Option (σ × Bytes)

/-- The loop of `pb_decode_inner`. Each turn takes at least the byte of a tag. -/
def pbDecodeLoop {σ : Type} (fields : σ → Nat → Option (FieldDecoder σ)) :
    (fuel : Nat) → σ → Bytes → Option σ
  | _, s, [] => some s
  | 0, _, _ :: _ => none
  | fuel + 1, s, byte :: bytes =>
    match pbDecodeTag (byte :: bytes) with
    | none => none
    | some (tag, wireType, rest) =>
      if tag = 0 then none
      else
        match fields s tag with
        | none =>
          match pbSkipField wireType rest with
          | none => none
          | some rest => pbDecodeLoop fields fuel s rest
        | some decode =>
          match decode wireType rest with
          | none => none
          | some (s, rest) => pbDecodeLoop fields fuel s rest

/-- `pb_decode`, from the initial state of the message. -/
def pbDecode {σ : Type} (fields : σ → Nat → Option (FieldDecoder σ)) (s : σ) (bytes : Bytes) :
    Option σ :=
  pbDecodeLoop fields bytes.length s bytes

/-! ## Reading back what was written -/

variable {n : Nat}

theorem toNat_ofNat_of_lt (h : n < 256) : (UInt8.ofNat n).toNat = n := by
  rw [UInt8.toNat_ofNat']
  omega

private theorem varintBytes_ne_nil (fuel n : Nat) : varintBytes (fuel + 1) n ≠ [] := by
  rw [varintBytes]
  split <;> exact List.cons_ne_nil _ _

theorem pbEncodeVarint_ne_nil (n : Nat) : pbEncodeVarint n ≠ [] := varintBytes_ne_nil 9 n

/-- The arithmetic of one more byte: `n` splits into its low seven bits and the rest. -/
theorem mod_mul_add_div_mul (n b : Nat) :
    n % 128 * 2 ^ b + n / 128 * 2 ^ (b + 7) = n * 2 ^ b := by
  have hpow : 2 ^ (b + 7) = 128 * 2 ^ b := by
    rw [Nat.pow_add, Nat.mul_comm]
  rw [hpow, ← Nat.mul_assoc, ← Nat.add_mul]
  congr 1
  omega

private theorem varintLoop_varintBytes (rest : Bytes) : ∀ (fuel n result bitpos : Nat),
    n < 128 ^ fuel → 0 < fuel → result + n * 2 ^ bitpos < 2 ^ 64 → bitpos + 7 * fuel ≤ 70 →
    varintLoop result bitpos (varintBytes fuel n ++ rest) = some (result + n * 2 ^ bitpos, rest) := by
  intro fuel
  induction fuel with
  | zero =>
    intro n result bitpos _ hpos
    omega
  | succ fuel ih =>
    intro n result bitpos hn _ hfits hbits
    have hsplit := mod_mul_add_div_mul n bitpos
    rw [varintBytes]
    by_cases hlast : n < 128
    · rw [if_pos hlast, List.cons_append, List.nil_append, varintLoop, if_neg (by omega),
        toNat_ofNat_of_lt (by omega), if_pos hlast, Nat.mod_eq_of_lt hlast, Nat.mod_eq_of_lt hfits]
    · have hfuel : 0 < fuel := by
        rcases Nat.eq_zero_or_pos fuel with rfl | hfuel
        · omega
        · exact hfuel
      rw [if_neg hlast, List.cons_append, varintLoop, if_neg (by omega),
        toNat_ofNat_of_lt (by omega), if_neg (by omega)]
      have hbyte : (n % 128 + 128) % 128 = n % 128 := by omega
      have hhead : (result + n % 128 * 2 ^ bitpos) % 2 ^ 64 = result + n % 128 * 2 ^ bitpos :=
        Nat.mod_eq_of_lt (by omega)
      rw [hbyte, hhead, ih (n / 128) _ (bitpos + 7) (by rw [Nat.pow_succ] at hn; omega) hfuel
        (by omega) (by omega)]
      congr 2
      omega

def varintSize : (fuel n : Nat) → Nat
  | 0, _ => 0
  | fuel + 1, n => if n < 128 then 1 else 1 + varintSize fuel (n / 128)

theorem length_varintBytes (fuel n : Nat) : (varintBytes fuel n).length = varintSize fuel n := by
  induction fuel generalizing n with
  | zero => rfl
  | succ fuel ih =>
    rw [varintBytes, varintSize]
    split
    · rfl
    · rw [List.length_cons, ih, Nat.add_comm]

/-- A varint is decoded as it was encoded. -/
theorem pbDecodeVarint_encode (h : n < 2 ^ 64) (rest : Bytes) :
    pbDecodeVarint (pbEncodeVarint n ++ rest) = some (n, rest) := by
  rw [pbDecodeVarint, pbEncodeVarint, varintLoop_varintBytes rest 10 n 0 0 (by omega) (by omega)
    (by omega) (by omega)]
  congr 2
  omega

private theorem varint32Loop_varintBytes (rest : Bytes) : ∀ (fuel n result bitpos : Nat),
    n < 128 ^ fuel → 0 < fuel → result + n * 2 ^ bitpos < 2 ^ 32 → bitpos < 32 →
    bitpos % 7 = 0 →
    varint32Loop result bitpos (varintBytes fuel n ++ rest) =
      some (result + n * 2 ^ bitpos, rest) := by
  intro fuel
  induction fuel with
  | zero =>
    intro n result bitpos _ hpos
    omega
  | succ fuel ih =>
    intro n result bitpos hn _ hfits hbits hseven
    have hsplit := mod_mul_add_div_mul n bitpos
    have hin (byte : UInt8) :
        ¬ (32 ≤ bitpos ∧ (64 ≤ bitpos ∨ validExtension result bitpos byte = false)) :=
      fun h => absurd h.1 (by omega)
    rw [varintBytes]
    by_cases hlast : n < 128
    · have hroom : ¬ (bitpos = 28 ∧ 16 ≤ n % 128) := by
        rintro ⟨rfl, hlarge⟩
        omega
      rw [if_pos hlast, List.cons_append, List.nil_append, varint32Loop, if_neg (hin _),
        toNat_ofNat_of_lt (by omega), if_neg (by omega), if_neg hroom, if_neg (by omega),
        Nat.mod_eq_of_lt hlast, Nat.mod_eq_of_lt hfits]
    · have hfuel : 0 < fuel := by
        rcases Nat.eq_zero_or_pos fuel with rfl | hfuel
        · omega
        · exact hfuel
      have hbyte : (n % 128 + 128) % 128 = n % 128 := by omega
      have hhead : (result + n % 128 * 2 ^ bitpos) % 2 ^ 32 = result + n % 128 * 2 ^ bitpos :=
        Nat.mod_eq_of_lt (by omega)
      -- what is left of a number below 2 ^ 32 ends at bit 28
      have hnext : bitpos + 7 < 32 := by
        by_contra hend
        have h28 : bitpos = 28 := by omega
        subst h28
        omega
      rw [if_neg hlast, List.cons_append, varint32Loop, if_neg (hin _),
        toNat_ofNat_of_lt (by omega), if_pos (by omega), if_neg (by omega), hbyte, hhead,
        ih (n / 128) _ (bitpos + 7) (by rw [Nat.pow_succ] at hn; omega) hfuel (by omega) hnext
          (by omega)]
      congr 2
      omega

theorem pbDecodeVarint32_encode (h : n < 2 ^ 32) (rest : Bytes) :
    pbDecodeVarint32 (pbEncodeVarint n ++ rest) = some (n, rest) := by
  rw [pbDecodeVarint32, pbEncodeVarint, varint32Loop_varintBytes rest 10 n 0 0 (by omega)
    (by omega) (by omega) (by omega) (by omega)]
  congr 2
  omega

/-- Bits beyond the 32nd are refused, unless they reach up to the sign bit. -/
theorem varint32Loop_beyond (rest : Bytes) : ∀ (fuel n result bitpos : Nat),
    n < 128 ^ fuel → 0 < n → 32 ≤ bitpos → n * 2 ^ bitpos < 2 ^ 63 →
    varint32Loop result bitpos (varintBytes fuel n ++ rest) = none := by
  intro fuel
  induction fuel with
  | zero =>
    intro n result bitpos hn hpos
    omega
  | succ fuel ih =>
    intro n result bitpos hn hpos hbits hfits
    have hsplit := mod_mul_add_div_mul n bitpos
    rw [varintBytes]
    by_cases hlast : n < 128
    · -- the last byte is neither zero nor a sign extension, whose bytes are 0xFF here
      have hsign : bitpos < 63 := by
        have hle : 2 ^ bitpos ≤ n * 2 ^ bitpos := Nat.le_mul_of_pos_left _ hpos
        exact (Nat.pow_lt_pow_iff_right (by omega)).mp (Nat.lt_of_le_of_lt hle hfits)
      have hbad : validExtension result bitpos (UInt8.ofNat n) = false := by
        rw [validExtension, toNat_ofNat_of_lt (by omega), if_pos hsign, decide_eq_false_iff_not]
        omega
      rw [if_pos hlast, List.cons_append, varint32Loop, if_pos ⟨hbits, .inr hbad⟩]
    · rw [if_neg hlast, List.cons_append, varint32Loop]
      split
      · rfl
      · rw [toNat_ofNat_of_lt (by omega), if_pos (by omega)]
        exact ih _ _ _ (by rw [Nat.pow_succ] at hn; omega) (by omega) (by omega) (by omega)

/-- Dropping the low seven bits of a number that reaches beyond bit 32 leaves it beyond bit 32. -/
theorem le_div_mul_of_le {b : Nat} (hb : b + 7 ≤ 32) (h : 2 ^ 32 ≤ n * 2 ^ b) :
    2 ^ 32 ≤ n / 128 * 2 ^ (b + 7) := by
  have hsplit (k : Nat) (hk : k ≤ 32) : 2 ^ 32 = 2 ^ (32 - k) * 2 ^ k := by
    rw [← Nat.pow_add]
    congr 1
    omega
  have hn : 2 ^ (32 - b) ≤ n := by
    rw [hsplit b (by omega)] at h
    exact Nat.le_of_mul_le_mul_right h (Nat.two_pow_pos b)
  have hpow : 2 ^ (32 - b) = 2 ^ (32 - (b + 7)) * 128 := by
    have hexp : 32 - b = 32 - (b + 7) + 7 := by omega
    rw [hexp, Nat.pow_add]
  have hdiv : 2 ^ (32 - (b + 7)) ≤ n / 128 := by
    rw [Nat.le_div_iff_mul_le (by omega), ← hpow]
    exact hn
  rw [hsplit (b + 7) hb]
  exact Nat.mul_le_mul_right _ hdiv

private theorem varint32Loop_large (rest : Bytes) : ∀ (fuel n result bitpos : Nat),
    n < 128 ^ fuel → bitpos ≤ 28 → bitpos % 7 = 0 → 2 ^ 32 ≤ n * 2 ^ bitpos →
    n * 2 ^ bitpos < 2 ^ 63 →
    varint32Loop result bitpos (varintBytes fuel n ++ rest) = none := by
  intro fuel
  induction fuel with
  | zero =>
    intro n result bitpos hn _ _ hlarge
    have hzero : n = 0 := by omega
    rw [hzero, Nat.zero_mul] at hlarge
    omega
  | succ fuel ih =>
    intro n result bitpos hn hbits hseven hlarge hfits
    have hsplit := mod_mul_add_div_mul n bitpos
    have hbitpos : bitpos = 0 ∨ bitpos = 7 ∨ bitpos = 14 ∨ bitpos = 21 ∨ bitpos = 28 := by omega
    have hin (byte : UInt8) :
        ¬ (32 ≤ bitpos ∧ (64 ≤ bitpos ∨ validExtension result bitpos byte = false)) :=
      fun h => absurd h.1 (by omega)
    rw [varintBytes]
    by_cases hlast : n < 128
    · have h28 : bitpos = 28 ∧ 16 ≤ n % 128 := by
        rcases hbitpos with rfl | rfl | rfl | rfl | rfl <;> omega
      rw [if_pos hlast, List.cons_append, varint32Loop, if_neg (hin _),
        toNat_ofNat_of_lt (by omega), if_neg (by omega), if_pos h28]
    · rw [if_neg hlast, List.cons_append, varint32Loop, if_neg (hin _),
        toNat_ofNat_of_lt (by omega), if_pos (by omega)]
      have hfuel : n / 128 < 128 ^ fuel := by
        rw [Nat.pow_succ] at hn
        omega
      by_cases h28 : bitpos = 28
      · exact varint32Loop_beyond rest _ _ _ _ hfuel (by omega) (by omega) (by omega)
      · exact ih _ _ _ hfuel (by omega) (by omega) (le_div_mul_of_le (by omega) hlarge) (by omega)

/-- A length of 4 GiB or more cannot be decoded. -/
theorem pbDecodeVarint32_encode_large (hlarge : 2 ^ 32 ≤ n) (hfits : n < 2 ^ 63) (rest : Bytes) :
    pbDecodeVarint32 (pbEncodeVarint n ++ rest) = none := by
  rw [pbDecodeVarint32, pbEncodeVarint]
  apply varint32Loop_large rest 10 n 0 0
  all_goals omega

/-- So is a tag. -/
theorem pbDecodeTag_encode {wireType tag : Nat} (hwire : wireType < 8) (htag : tag < 2 ^ 29)
    (rest : Bytes) : pbDecodeTag (pbEncodeTag wireType tag ++ rest) = some (tag, wireType, rest) := by
  rw [pbDecodeTag, pbEncodeTag, pbDecodeVarint32_encode (by omega), Option.map_some]
  have hdiv : (tag * 8 + wireType) / 8 = tag := by omega
  have hmod : (tag * 8 + wireType) % 8 = wireType := by omega
  simp only [hdiv, hmod]

variable {data : Bytes}

private theorem pbRead_append (h : n = data.length) (rest : Bytes) :
    pbRead n (data ++ rest) = some (data, rest) := by
  subst h
  rw [pbRead, List.length_append, if_neg (by omega), List.take_left, List.drop_left]

/-- So is a string with its length. -/
theorem pbMakeStringSubstream_encode (h : data.length < 2 ^ 32) (rest : Bytes) :
    pbMakeStringSubstream (pbEncodeString data ++ rest) = some (data, rest) := by
  rw [pbMakeStringSubstream, pbEncodeString, List.append_assoc, pbDecodeVarint32_encode h]
  exact pbRead_append rfl rest

/-- A length of more than 32 bits is refused. -/
theorem pbMakeStringSubstream_encode_large (hlarge : 2 ^ 32 ≤ data.length)
    (hfits : data.length < 2 ^ 63) (rest : Bytes) :
    pbMakeStringSubstream (pbEncodeString data ++ rest) = none := by
  rw [pbMakeStringSubstream, pbEncodeString, List.append_assoc,
    pbDecodeVarint32_encode_large hlarge hfits]

/-- Fixed-size numbers are decoded as they were encoded. -/
theorem pbDecodeFixed_encode {size : Nat} (value : BitVec (8 * size)) (rest : Bytes) :
    pbDecodeFixed size (pbEncodeFixed size value ++ rest) = some (value, rest) := by
  have hvalue : value.toNat < 256 ^ size := by
    have hpow : (256 : Nat) ^ size = 2 ^ (8 * size) := by
      rw [Nat.pow_mul]
    rw [hpow]
    exact value.isLt
  rw [pbDecodeFixed, pbEncodeFixed, pbRead_append (length_leBytes ..).symm, Option.map_some]
  simp only [leNat_leBytes hvalue, BitVec.ofNat_toNat, BitVec.setWidth_eq]

theorem unzigzag_zigzag (value : Int) : unzigzag (zigzag value) = value := by
  rw [unzigzag, zigzag]
  split <;> split <;> omega

/-! ## Decoding a message field by field -/

section Messages

variable {σ : Type} {fields : σ → Nat → Option (FieldDecoder σ)}

/-- `Parses fields s bytes t`: the bytes are a sequence of encoded fields that takes the message
from `s` to `t`. -/
inductive Parses (fields : σ → Nat → Option (FieldDecoder σ)) : σ → Bytes → σ → Prop where
  | nil (s : σ) : Parses fields s [] s
  | field {s t u : σ} {wireType tag : Nat} {payload bytes : Bytes} {decode : FieldDecoder σ}
      (hwire : wireType < 8) (htag : 0 < tag ∧ tag < 2 ^ 29) (hknown : fields s tag = some decode)
      (hdecode : ∀ rest, decode wireType (payload ++ rest) = some (t, rest))
      (hrest : Parses fields t bytes u) :
      Parses fields s (pbEncodeTag wireType tag ++ payload ++ bytes) u

variable {s : σ} {bytes : Bytes}

private theorem pbDecodeLoop_ne_nil {fuel : Nat} (h : bytes ≠ []) :
    pbDecodeLoop fields (fuel + 1) s bytes =
      match pbDecodeTag bytes with
      | none => none
      | some (tag, wireType, rest) =>
        if tag = 0 then none
        else
          match fields s tag with
          | none =>
            match pbSkipField wireType rest with
            | none => none
            | some rest => pbDecodeLoop fields fuel s rest
          | some decode =>
            match decode wireType rest with
            | none => none
            | some (s, rest) => pbDecodeLoop fields fuel s rest := by
  cases bytes with
  | nil => exact absurd rfl h
  | cons byte bytes => rfl

/-- One encoded field at the head of the stream. -/
theorem pbDecodeLoop_field {fuel : Nat} {wireType tag : Nat} {decode : FieldDecoder σ}
    (hwire : wireType < 8) (htag : 0 < tag ∧ tag < 2 ^ 29) (hknown : fields s tag = some decode)
    (stream : Bytes) :
    pbDecodeLoop fields (fuel + 1) s (pbEncodeTag wireType tag ++ stream) =
      match decode wireType stream with
      | none => none
      | some (s, rest) => pbDecodeLoop fields fuel s rest := by
  have hne : pbEncodeTag wireType tag ++ stream ≠ [] :=
    List.append_ne_nil_of_left_ne_nil (pbEncodeVarint_ne_nil _) _
  rw [pbDecodeLoop_ne_nil hne, pbDecodeTag_encode hwire htag.2]
  simp only [if_neg (Nat.ne_of_gt htag.1), hknown]

private theorem Parses.loop {t : σ} (h : Parses fields s bytes t) :
    ∀ fuel, bytes.length ≤ fuel → pbDecodeLoop fields fuel s bytes = some t := by
  induction h with
  | nil s =>
    intro fuel _
    cases fuel <;> rfl
  | @field s t u wireType tag payload bytes decode hwire htag hknown hdecode hrest ih =>
    intro fuel hfuel
    have hpos : 0 < (pbEncodeTag wireType tag).length :=
      List.length_pos_iff.mpr (pbEncodeVarint_ne_nil _)
    rw [List.length_append, List.length_append] at hfuel
    obtain ⟨fuel, rfl⟩ := Nat.exists_eq_add_one_of_ne_zero (by omega : fuel ≠ 0)
    rw [List.append_assoc, pbDecodeLoop_field hwire htag hknown, hdecode]
    exact ih fuel (by omega)

/-- A message is decoded field by field. -/
theorem Parses.decode {t : σ} (h : Parses fields s bytes t) :
    pbDecode fields s bytes = some t := h.loop _ (Nat.le_refl _)

end Messages

end TweakTool.Pickle
