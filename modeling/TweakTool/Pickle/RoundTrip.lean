import TweakTool.Pickle.Message
import Mathlib.Data.BitVec

/-! # The round trip of a message

A datagram made by one endpoint is decoded by the other. Every request arrives, with its id and its
texts, as long as nanopb's 32-bit length prefix can express its size; its values arrive as
`arrivesAs` says, which is not what was sent for `sint8` and `uint64`. -/

namespace TweakTool.Pickle

open TweakTool.Lib TweakTool.Common

inductive Message (S V : Type) where
  | fromServer (m : ServerMessage S V)
  | fromClient (m : ClientMessage S V)

namespace Message

variable {S V : Type}

def map {S' V' : Type} (f : S → S') (g : V → V') : Message S V → Message S' V'
  | fromServer m => fromServer (m.map f g)
  | fromClient m => fromClient (m.map f g)

def texts : Message S V → List S
  | fromServer (.addItem m) => [m.uri, m.description, m.meta]
  | fromServer (.announceFeatures features) => [features]
  | fromClient (.subscribe uriPatterns) => [uriPatterns]
  | fromClient (.announceFeatures features) => [features]
  | _ => []

def values : Message S V → List V
  | fromServer (.addItem m) => [m.currentValue, m.defaultValue]
  | fromServer (.changeItem m) | fromClient (.changeItem m) => [m.value]
  | _ => []

def encode : Message VariantString PVariant → Option Bytes
  | fromServer m => m.encode
  | fromClient m => m.encode

/-- What the other side makes of a datagram that is sent from the side of `m`. -/
def receive (libs : Nat → Nat → CLibrary) (m : Message VariantString PVariant) (bytes : Bytes) :
    Option (Message VariantString PVariant) :=
  match m with
  | fromServer _ => (clientReceiveListener libs bytes).map fromServer
  | fromClient _ => (serverReceiveListener libs bytes).map fromClient

/-- What a message means. -/
def view (m : Message VariantString PVariant) :
    Message (Option CString) (VariantOf (Option CString) Bytes) :=
  m.map tweakVariantStringCStr Pickle.view

/-- The strings of the message have texts, and its values are scalars or strings. -/
def Plain (m : Message VariantString PVariant) : Prop :=
  (∀ s ∈ m.texts, ∃ t, Strings.Implements s t) ∧ ∀ v ∈ m.values, Pickle.Plain v

end Message

/-! ## Sizes

All tags of requests and values up to the strings are below 16 and take one byte. -/

def uint64Size (value : BitVec 64) : Nat := if value = 0 then 0 else 1 + varintSize 10 value.toNat

/-- The size of a length-delimited field with `n` bytes of data. -/
def delimitedSize (n : Nat) : Nat := 1 + varintSize 10 n + n

def valueSize : PVariant → Nat
  | .null | .bool _ => 2
  | .num .float _ => 5
  | .num .double _ => 9
  | .num .sint8 value | .num .sint16 value | .num .sint32 value | .num .sint64 value =>
    1 + varintSize 10 (zigzag value.toInt)
  | .num .uint8 value | .num .uint16 value | .num .uint32 value | .num .uint64 value =>
    1 + varintSize 10 value.toNat
  | .string s => delimitedSize (varintSize 10 s.length + s.length)
  | .vector _ _ => 0

namespace Message

/-- The size of the request inside the datagram. -/
def requestSize : Message VariantString PVariant → Nat
  | fromServer (.addItem m) =>
    uint64Size m.id + delimitedSize m.uri.length + delimitedSize (valueSize m.currentValue) +
      delimitedSize m.description.length + delimitedSize m.meta.length +
      delimitedSize (valueSize m.defaultValue)
  | fromServer (.changeItem m) | fromClient (.changeItem m) =>
    uint64Size m.id + delimitedSize (valueSize m.value)
  | fromServer (.removeItem id) => uint64Size id
  | fromServer (.announceFeatures text) | fromClient (.announceFeatures text)
  | fromClient (.subscribe text) => delimitedSize text.length

/-- An item that is added has an id and a uri; `tweak_pickle_server_add_item` refuses others. -/
def Named : Message VariantString PVariant → Prop
  | fromServer (.addItem m) => m.id ≠ 0 ∧ 0 < m.uri.length
  | _ => True

instance : (m : Message VariantString PVariant) → Decidable m.Named
  | fromServer (.addItem _) => inferInstanceAs (Decidable (_ ∧ _))
  | fromServer (.changeItem _) | fromServer (.removeItem _) | fromServer (.announceFeatures _)
  | fromClient _ => .isTrue trivial

/-- No value has one of the two types that the tables confuse. -/
def Unconfused (m : Message VariantString PVariant) : Prop :=
  ∀ v ∈ m.values, v.type ≠ .num .sint8 ∧ v.type ≠ .num .uint64

/-- The messages that arrive as they were sent: they are sent at all, with types that are not confused,
and nanopb can write down how long they are. -/
structure Deliverable (m : Message VariantString PVariant) : Prop where
  named : m.Named
  types : m.Unconfused
  size : m.requestSize < 2 ^ 32

end Message

theorem length_pbEncodeVarint (n : Nat) : (pbEncodeVarint n).length = varintSize 10 n :=
  length_varintBytes 10 n

private theorem varintSize_le (fuel n : Nat) : varintSize fuel n ≤ fuel := by
  induction fuel generalizing n with
  | zero => rfl
  | succ fuel ih =>
    have hrest := ih (n / 128)
    rw [varintSize]
    split <;> omega

variable {tag : Nat}

theorem length_pbEncodeTag {wireType : Nat} (hwire : wireType < 8) (htag : tag < 16) :
    (pbEncodeTag wireType tag).length = 1 := by
  rw [pbEncodeTag, length_pbEncodeVarint, varintSize, if_pos (by omega)]

private theorem length_encodeUint64 (htag : tag < 16) (value : BitVec 64) :
    (encodeUint64 tag value).length = uint64Size value := by
  rw [encodeUint64, uint64Size]
  split
  · rfl
  · rw [List.length_append, length_pbEncodeTag (by decide) htag, length_pbEncodeVarint]

private theorem length_encodeDelimited (htag : tag < 16) (data : Bytes) :
    (encodeDelimited tag data).length = delimitedSize data.length := by
  rw [encodeDelimited, List.length_append, length_pbEncodeTag (by decide) htag, pbEncodeString,
    List.length_append, length_pbEncodeVarint, delimitedSize, Nat.add_assoc]

variable {s : VariantString} {t : CString}

theorem length_stringBytes (h : Strings.Implements s t) : (stringBytes s).length = s.length := by
  rw [stringBytes_eq h, h.length]

private theorem length_encodePbValue_eq {value : PbValue} (tag : ValueTag)
    (hwhich : value.whichValues = some tag) (htag : tag.number < 16) :
    (encodePbValue value).length = 1 + (encodeMember value tag).2.length := by
  rw [encodePbValue, hwhich]
  show (pbEncodeTag (encodeMember value tag).1 tag.number ++ (encodeMember value tag).2).length = _
  rw [List.length_append, length_pbEncodeTag (encodeMember_wireType_lt value tag) htag]

/-- A signed number is widened, and sent as it was. -/
theorem toInt_widened {w : Nat} (h : w ≤ 32) (value : BitVec w) :
    (((value.signExtend 32).setWidth 64).setWidth 32).toInt = value.toInt := by
  rw [setWidth_of_wider (by decide), BitVec.toInt_signExtend_of_le h]

private theorem toNat_widened {w : Nat} (h : w ≤ 32) (value : BitVec w) :
    ((value.setWidth 64).setWidth 32).toNat = value.toNat := by
  have hlt : value.toNat < 2 ^ 32 := Nat.lt_of_lt_of_le value.isLt (Nat.pow_le_pow_right (by decide) h)
  rw [BitVec.setWidth_setWidth_of_le _ (by decide), BitVec.toNat_setWidth, Nat.mod_eq_of_lt hlt]

/-- The size of a number that is sent as a varint, by the member it is sent in. -/
theorem length_varintMember {value : PbValue} (tag : ValueTag)
    (hwhich : value.whichValues = some tag) (htag : tag.number < 16) {m n : Nat}
    (hmember : (encodeMember value tag).2 = pbEncodeVarint m) (hsame : m = n) :
    (encodePbValue value).length = 1 + varintSize 10 n := by
  rw [length_encodePbValue_eq tag hwhich htag, hmember, length_pbEncodeVarint, hsame]

private theorem length_encodePbValue {v : PVariant} (h : Plain v) :
    (encodePbValue (tweakPicklePbVariantToValue v)).length = valueSize v := by
  rcases h with hscalar | ⟨s, t, rfl, ht⟩
  · cases v with
    | null | string s | vector t b => exact hscalar.elim
    | bool b => cases b <;> rfl
    | num t value =>
      cases t with
      | float =>
        refine (length_encodePbValue_eq (.scalar .float) rfl (by decide)).trans ?_
        exact congrArg (1 + ·) (length_leBytes 4 _)
      | double =>
        refine (length_encodePbValue_eq (.scalar .double) rfl (by decide)).trans ?_
        exact congrArg (1 + ·) (length_leBytes 8 _)
      | sint8 =>
        exact length_varintMember (.scalar .sint32) rfl (by decide) rfl
          (congrArg zigzag (toInt_widened (by decide) _))
      | sint16 =>
        exact length_varintMember (.scalar .sint16) rfl (by decide) rfl
          (congrArg zigzag (toInt_widened (by decide) _))
      | sint32 =>
        exact length_varintMember (.scalar .sint32) rfl (by decide) rfl
          (congrArg (fun x : BitVec 32 => zigzag x.toInt) (setWidth_of_wider (by decide) _))
      | sint64 => exact length_varintMember (.scalar .sint64) rfl (by decide) rfl rfl
      | uint8 =>
        exact length_varintMember (.scalar .uint8) rfl (by decide) rfl
          (toNat_widened (by decide) _)
      | uint16 =>
        exact length_varintMember (.scalar .uint16) rfl (by decide) rfl
          (toNat_widened (by decide) _)
      | uint32 =>
        exact length_varintMember (.scalar .uint32) rfl (by decide) rfl
          (toNat_widened (by decide) _)
      | uint64 => exact length_varintMember (.scalar .uint64) rfl (by decide) rfl rfl
  · refine (length_encodePbValue_eq .string rfl (by decide)).trans ?_
    show 1 + (pbEncodeString (pbEncodeString (stringBytes s))).length = _
    rw [pbEncodeString, pbEncodeString, List.length_append, length_pbEncodeVarint,
      List.length_append, length_pbEncodeVarint, length_stringBytes ht, valueSize, delimitedSize,
      Nat.add_assoc]

/-! ## Fields -/

section Fields

variable {σ : Type} {fields : σ → Nat → Option (FieldDecoder σ)} {s t u : σ} {tag : Nat}
  {bytes : Bytes}

/-- A `uint64`, written or left out. -/
theorem parses_uint64 {set : BitVec 64 → σ} {value : BitVec 64} (htag : 0 < tag ∧ tag < 16)
    (hknown : fields s tag = some (uint64Field set)) (hzero : set 0 = s)
    (hrest : Parses fields (set value) bytes u) :
    Parses fields s (encodeUint64 tag value ++ bytes) u := by
  rw [encodeUint64]
  split
  · next hvalue =>
      rw [hvalue, hzero] at hrest
      exact hrest
  · refine .field (by decide) ⟨htag.1, by omega⟩ hknown (fun rest => ?_) hrest
    simp only [uint64Field, ne_eq, not_true_eq_false, if_false, pbDecodeVarint_encode value.isLt,
      Option.map_some, BitVec.ofNat_toNat, BitVec.setWidth_eq]

variable {data : Bytes}

/-- A length-delimited field, by what its decoder makes of the data. -/
theorem parses_delimited {decode : FieldDecoder σ} (htag : 0 < tag ∧ tag < 16)
    (hknown : fields s tag = some decode)
    (hdecode : ∀ rest, decode wtString (pbEncodeString data ++ rest) = some (t, rest))
    (hrest : Parses fields t bytes u) : Parses fields s (encodeDelimited tag data ++ bytes) u :=
  .field (by decide) ⟨htag.1, by omega⟩ hknown hdecode hrest

theorem stringField_encode (lib : CLibrary) (string : VariantString) (set : VariantString → σ)
    (hsize : data.length < 2 ^ 32) (rest : Bytes) :
    stringField lib string set wtString (pbEncodeString data ++ rest) =
      some (set (tweakPicklePbDecodeString lib string data), rest) := by
  show ((pbMakeStringSubstream (pbEncodeString data ++ rest)).map _) = _
  rw [pbMakeStringSubstream_encode hsize, Option.map_some]

theorem valueField_encode {libs : Nat → CLibrary} {value value' : ValueState}
    (set : ValueState → σ) (hsize : data.length < 2 ^ 32)
    (hparses : Parses (valueFields libs) value data value') (rest : Bytes) :
    valueField libs value set wtString (pbEncodeString data ++ rest) = some (set value', rest) := by
  simp only [valueField, ne_eq, not_true_eq_false, if_false, pbMakeStringSubstream_encode hsize,
    hparses.decode, Option.map_some]

end Fields

/-- The storage begins with the stream and its terminator, in either kind of storage. -/
theorem storage_tweakPicklePbDecodeString (lib : CLibrary) (stream : Bytes) :
    ∃ rest, (tweakPicklePbDecodeString lib .empty stream).storage = stream ++ [0] ++ rest := by
  have hterminated : (stream ++ [0]).length = stream.length + 1 := by
    rw [List.length_append, List.length_singleton]
  rw [tweakPicklePbDecodeString, VariantString.storage, tweakVariantIsSmallString]
  by_cases hsmall : stream.length + 1 + 1 ≤ inlineStringSize
  · have hroom : (stream ++ [0]).length ≤ VariantString.empty.smallBuffer.length := by
      rw [hterminated]
      exact Nat.le_trans (by omega) hsmall
    rw [if_pos hsmall, if_pos (decide_eq_true (Nat.le_refl _)), blit_zero hroom]
    exact ⟨_, rfl⟩
  · have hroom : (stream ++ [0]).length ≤
        (List.replicate (stream.length + 1 + 1) (0 : UInt8)).length := by
      rw [hterminated, List.length_replicate]
      omega
    rw [if_neg hsmall, if_neg (by rw [decide_eq_true_iff]; exact hsmall), Option.getD_some,
      blit_zero hroom]
    exact ⟨_, rfl⟩

/-- A text is read back, although the length of the object counts its terminator. -/
theorem cStr_tweakPicklePbDecodeString (lib : CLibrary) (h : Strings.Implements s t) :
    tweakVariantStringCStr (tweakPicklePbDecodeString lib .empty (stringBytes s)) = some t := by
  obtain ⟨rest, hrest⟩ := storage_tweakPicklePbDecodeString lib t.val
  rw [stringBytes_eq h, VariantString.cStr_eq, hrest, List.append_assoc]
  exact cText_append t rest

/-! ## Requests -/

/-- The parts of a delimited field are not longer than the field. -/
theorem length_le_delimited (tag : Nat) (data : Bytes) :
    data.length ≤ (encodeDelimited tag data).length := by
  rw [encodeDelimited, pbEncodeString, List.length_append, List.length_append]
  omega

theorem Plain.type_ne_null {v : PVariant} (h : Plain v) : v.type ≠ .null := by
  rcases h with hscalar | ⟨s, t, rfl, _⟩
  · cases v with
    | null | string s | vector t b => exact hscalar.elim
    | bool b | num t value => exact fun h => nomatch h
  · exact fun h => nomatch h

/-- What the fields of an `add_item` request are decoded to. -/
theorem decodeServerAddItemRequest_encode (libs : Nat → Nat → CLibrary)
    {m : AddItem VariantString PVariant}
    (hplain : (Message.fromServer (.addItem m)).Plain)
    (hsize : (encodeAddItem m).length < 2 ^ 32) :
    ∃ m', decodeServerAddItemRequest libs (encodeAddItem m) = some m' ∧
      m'.map tweakVariantStringCStr view =
        m.map tweakVariantStringCStr (fun v => view (arrivesAs v)) := by
  obtain ⟨htexts, hvalues⟩ := hplain
  have hcurrent := hvalues m.currentValue (by simp [Message.values])
  have hdefault := hvalues m.defaultValue (by simp [Message.values])
  obtain ⟨uri, huri⟩ := htexts m.uri (by simp [Message.texts])
  obtain ⟨description, hdescription⟩ := htexts m.description (by simp [Message.texts])
  obtain ⟨meta', hmeta⟩ := htexts m.meta (by simp [Message.texts])
  have hencode : encodeAddItem m = encodeUint64 1 m.id ++
      (tweakPicklePbEncodeString 2 m.uri ++ (encodeValue 3 m.currentValue ++
      (tweakPicklePbEncodeString 4 m.description ++ (tweakPicklePbEncodeString 5 m.meta ++
      (encodeValue 6 m.defaultValue ++ []))))) := by
    rw [encodeAddItem, if_neg hdefault.type_ne_null, List.append_nil]
    simp only [List.append_assoc]
  have h2 := length_le_delimited 2 (stringBytes m.uri)
  have h3 := length_le_delimited 3 (encodePbValue (tweakPicklePbVariantToValue m.currentValue))
  have h4 := length_le_delimited 4 (stringBytes m.description)
  have h5 := length_le_delimited 5 (stringBytes m.meta)
  have h6 := length_le_delimited 6 (encodePbValue (tweakPicklePbVariantToValue m.defaultValue))
  rw [hencode] at hsize ⊢
  simp only [List.length_append, tweakPicklePbEncodeString, encodeValue] at hsize
  obtain ⟨current, hcurrent, hcurrentView⟩ := parses_value (libs 3) hcurrent (by omega)
  obtain ⟨default, hdefault, hdefaultView⟩ := parses_value (libs 6) hdefault (by omega)
  refine ⟨AddItem.map (·) ValueState.result
    ⟨m.id, tweakPicklePbDecodeString (libs 2 0) .empty (stringBytes m.uri), current,
      tweakPicklePbDecodeString (libs 4 0) .empty (stringBytes m.description),
      tweakPicklePbDecodeString (libs 5 0) .empty (stringBytes m.meta), default⟩, ?_, ?_⟩
  · rw [decodeServerAddItemRequest, Option.map_eq_some_iff]
    refine ⟨_, Parses.decode ?_, rfl⟩
    refine parses_uint64 (by decide) rfl ?_ ?_
    · rfl
    apply parses_delimited (by decide) rfl (stringField_encode _ _ _ (by omega))
    apply parses_delimited (by decide) rfl (valueField_encode _ (by omega) hcurrent)
    apply parses_delimited (by decide) rfl (stringField_encode _ _ _ (by omega))
    apply parses_delimited (by decide) rfl (stringField_encode _ _ _ (by omega))
    apply parses_delimited (by decide) rfl (valueField_encode _ (by omega) hdefault)
    exact .nil _
  · simp only [AddItem.map, cStr_tweakPicklePbDecodeString _ huri, huri.text,
      cStr_tweakPicklePbDecodeString _ hdescription, hdescription.text,
      cStr_tweakPicklePbDecodeString _ hmeta, hmeta.text, hcurrentView, hdefaultView]

/-- A change is decoded, with its value as it arrives. -/
theorem decodeChangeItemRequest_encode (libs : Nat → Nat → CLibrary) {m : ChangeItem PVariant}
    (hplain : Plain m.value) (hsize : (encodeChangeItem m).length < 2 ^ 32) :
    ∃ m', decodeChangeItemRequest libs (encodeChangeItem m) = some m' ∧
      m'.map view = m.map (fun v => view (arrivesAs v)) := by
  have h2 := length_le_delimited 2 (encodePbValue (tweakPicklePbVariantToValue m.value))
  have hencode : encodeChangeItem m = encodeUint64 1 m.id ++ (encodeValue 2 m.value ++ []) := by
    rw [List.append_nil, encodeChangeItem]
  rw [hencode] at hsize ⊢
  simp only [List.length_append, encodeValue] at hsize
  obtain ⟨value, hvalue, hview⟩ := parses_value (libs 2) hplain (by omega)
  refine ⟨ChangeItem.map ValueState.result ⟨m.id, value⟩, ?_, ?_⟩
  · rw [decodeChangeItemRequest, Option.map_eq_some_iff]
    refine ⟨_, Parses.decode ?_, rfl⟩
    refine parses_uint64 (by decide) rfl ?_ ?_
    · rfl
    apply parses_delimited (by decide) rfl (valueField_encode _ (by omega) hvalue)
    exact .nil _
  · simp only [ChangeItem.map, hview]

private theorem decodeRemoveItemRequest_encode (id : BitVec 64) :
    pbDecode removeItemFields 0 (encodeUint64 1 id) = some id := by
  have hparses : Parses removeItemFields 0 (encodeUint64 1 id ++ []) id := by
    refine parses_uint64 (by decide) rfl ?_ ?_
    · rfl
    exact .nil _
  rw [List.append_nil] at hparses
  exact hparses.decode

private theorem decodeTextRequest_encode (libs : Nat → Nat → CLibrary) (h : Strings.Implements s t)
    (hsize : (tweakPicklePbEncodeString 1 s).length < 2 ^ 32) :
    ∃ s', decodeTextRequest libs (tweakPicklePbEncodeString 1 s) = some s' ∧
      tweakVariantStringCStr s' = tweakVariantStringCStr s := by
  have h1 := length_le_delimited 1 (stringBytes s)
  have hparses : Parses (textFields libs) .empty (tweakPicklePbEncodeString 1 s ++ [])
      (tweakPicklePbDecodeString (libs 1 0) .empty (stringBytes s)) := by
    rw [tweakPicklePbEncodeString] at hsize ⊢
    apply parses_delimited (by decide) rfl (stringField_encode _ _ _ (by omega))
    exact .nil _
  rw [List.append_nil] at hparses
  exact ⟨_, hparses.decode, (cStr_tweakPicklePbDecodeString _ h).trans h.text.symm⟩

/-! ## Datagrams -/

section Datagrams

variable {M : Type} {tags tag : Nat} {decode : Bytes → Nat → Option M} {request : Bytes}

/-- The listener takes the request out of the datagram and decodes it. -/
theorem listener_request {message : M} (htag : 0 < tag ∧ tag ≤ tags) (htags : tags < 16)
    (hsize : request.length < 2 ^ 32) (hdecode : decode request tag = some message) :
    (pbDecode (requestField tags decode) none (encodeDelimited tag request)).join =
      some message := by
  have hparses : Parses (requestField tags decode) none (encodeDelimited tag request ++ [])
      (some message) := by
    have hknown : requestField tags decode none tag = some _ := if_neg (by omega)
    apply parses_delimited ⟨htag.1, by omega⟩ hknown
    · intro rest
      simp only [ne_eq, not_true_eq_false, Option.isSome_none, Bool.false_eq_true, or_self, if_false,
        pbMakeStringSubstream_encode hsize, hdecode, Option.map_some]
      rfl
    · exact .nil _
  rw [List.append_nil] at hparses
  rw [hparses.decode]
  rfl

/-- A request of 4 GiB is sent but not received. -/
theorem listener_request_large (htag : 0 < tag ∧ tag ≤ tags) (htags : tags < 16)
    (hlarge : 2 ^ 32 ≤ request.length) (hfits : request.length < 2 ^ 63) :
    (pbDecode (requestField tags decode) none (encodeDelimited tag request)).join = none := by
  have hknown : requestField tags decode none tag = some _ := if_neg (by omega)
  have hlength : (encodeDelimited tag request).length ≠ 0 := by
    have := length_le_delimited tag request
    omega
  have hsub := pbMakeStringSubstream_encode_large hlarge hfits []
  obtain ⟨fuel, hfuel⟩ := Nat.exists_eq_add_one_of_ne_zero hlength
  rw [List.append_nil] at hsub
  rw [pbDecode, hfuel, encodeDelimited,
    pbDecodeLoop_field (by decide) ⟨htag.1, by omega⟩ hknown]
  simp only [ne_eq, not_true_eq_false, Option.isSome_none, Bool.false_eq_true, or_self, if_false,
    hsub]
  rfl

end Datagrams

/-! ## Messages -/

/-- The types of the values that do not arrive as they were sent. -/
theorem view_arrivesAs_iff (v : PVariant) :
    view (arrivesAs v) = view v ↔ v.type ≠ .num .sint8 ∧ v.type ≠ .num .uint64 := by
  cases v with
  | null | bool b | string s | vector t b => simp [arrivesAs, view, VariantOf.type]
  | num t value =>
    cases t with
    | sint8 | uint64 =>
      refine iff_of_false (fun h => ?_) (by simp [VariantOf.type])
      have htype := congrArg VariantOf.type h
      cases htype
    | _ => simp [arrivesAs, view, VariantOf.type]

private theorem tweakPickleSendMessage_eq_some {request bytes : Bytes}
    (h : tweakPickleSendMessage tag request = some bytes) :
    bytes = encodeDelimited tag request ∧ request.length < 2 ^ 63 := by
  simp only [tweakPickleSendMessage] at h
  split at h
  · next hfits =>
      cases h
      exact ⟨rfl, Nat.lt_of_le_of_lt (length_le_delimited tag request) hfits⟩
  · cases h

/-- There is memory for what nanopb can read. -/
theorem tweakPickleSendMessage_of_lt (htag : tag < 16) {request : Bytes}
    (h : request.length < 2 ^ 32) :
    tweakPickleSendMessage tag request = some (encodeDelimited tag request) := by
  have hvarint := varintSize_le 10 request.length
  rw [tweakPickleSendMessage]
  refine if_pos ?_
  rw [length_encodeDelimited htag, delimitedSize]
  omega

namespace Message

/-- The member of the oneof that is sent, and the request in it. -/
def request : Message VariantString PVariant → Nat × Bytes
  | fromServer (.addItem m) => (1, encodeAddItem m)
  | fromServer (.changeItem m) => (2, encodeChangeItem m)
  | fromServer (.removeItem id) => (3, encodeUint64 1 id)
  | fromServer (.announceFeatures features) => (4, tweakPicklePbEncodeString 1 features)
  | fromClient (.subscribe uriPatterns) => (1, tweakPicklePbEncodeString 1 uriPatterns)
  | fromClient (.changeItem m) => (2, encodeChangeItem m)
  | fromClient (.announceFeatures features) => (3, tweakPicklePbEncodeString 1 features)

variable {m : Message VariantString PVariant}

/-- The functions that send a request of scalars and strings refuse nothing but a bad item. -/
theorem encode_eq (h : m.Plain) :
    m.encode = if m.Named then tweakPickleSendMessage m.request.1 m.request.2 else none := by
  obtain ⟨htexts, hvalues⟩ := h
  cases m with
  | fromServer m =>
    cases m with
    | addItem m =>
      have hvalue := (hvalues m.currentValue (by simp [values])).type_ne_null
      obtain ⟨t, ht⟩ := htexts m.uri (by simp [texts])
      have hempty : tweakVariantStringIsEmpty m.uri = true ↔ m.uri.length = 0 := by
        rw [tweakVariantStringIsEmpty, ht.text, ht.length, decide_eq_true_iff, Option.some.injEq]
        refine ⟨?_, fun h => Subtype.ext (List.length_eq_zero_iff.mp h)⟩
        rintro rfl
        rfl
      simp only [encode, ServerMessage.encode, if_neg hvalue, hempty]
      by_cases hid : m.id = 0
      · rw [if_pos hid, if_neg]
        exact fun h => h.1 hid
      · by_cases huri : m.uri.length = 0
        · rw [if_neg hid, if_pos huri, if_neg]
          exact fun h => Nat.ne_of_gt h.2 huri
        · rw [if_neg hid, if_neg huri, if_pos]
          · rfl
          · exact ⟨hid, Nat.pos_of_ne_zero huri⟩
    | changeItem m =>
      have hvalue := (hvalues m.value (by simp [values])).type_ne_null
      rw [encode, ServerMessage.encode, if_neg hvalue]
      rfl
    | removeItem id | announceFeatures features => rfl
  | fromClient m =>
    cases m with
    | changeItem m =>
      have hvalue := (hvalues m.value (by simp [values])).type_ne_null
      rw [encode, ClientMessage.encode, if_neg hvalue]
      rfl
    | subscribe uriPatterns | announceFeatures features => rfl

/-- What a datagram consists of. -/
theorem encode_eq_some {bytes : Bytes} (hplain : m.Plain) (h : m.encode = some bytes) :
    m.Named ∧ bytes = encodeDelimited m.request.1 m.request.2 ∧ m.request.2.length < 2 ^ 63 := by
  rw [encode_eq hplain] at h
  split at h
  · next hnamed => exact ⟨hnamed, tweakPickleSendMessage_eq_some h⟩
  · cases h

private theorem length_request (h : m.Plain) : m.request.2.length = m.requestSize := by
  obtain ⟨htexts, hvalues⟩ := h
  have htext (s : VariantString) (tag : Nat) (htag : tag < 16) (hs : s ∈ m.texts) :
      (tweakPicklePbEncodeString tag s).length = delimitedSize s.length := by
    obtain ⟨t, ht⟩ := htexts s hs
    rw [tweakPicklePbEncodeString, length_encodeDelimited htag, length_stringBytes ht]
  have hvalue (v : PVariant) (tag : Nat) (htag : tag < 16) (hv : v ∈ m.values) :
      (encodeValue tag v).length = delimitedSize (valueSize v) := by
    rw [encodeValue, length_encodeDelimited htag, length_encodePbValue (hvalues v hv)]
  have hid (id : BitVec 64) : (encodeUint64 1 id).length = uint64Size id :=
    length_encodeUint64 (by decide) id
  cases m with
  | fromServer m =>
    cases m with
    | addItem m =>
      have hdefault := (hvalues m.defaultValue (by simp [values])).type_ne_null
      simp only [request, requestSize, encodeAddItem, if_neg hdefault, List.length_append, hid]
      rw [htext m.uri 2 (by decide) (by simp [texts]),
        hvalue m.currentValue 3 (by decide) (by simp [values]),
        htext m.description 4 (by decide) (by simp [texts]),
        htext m.meta 5 (by decide) (by simp [texts]),
        hvalue m.defaultValue 6 (by decide) (by simp [values])]
    | changeItem m =>
      simp only [request, requestSize, encodeChangeItem, List.length_append, hid]
      rw [hvalue m.value 2 (by decide) (by simp [values])]
    | removeItem id => exact hid id
    | announceFeatures features => exact htext features 1 (by decide) (by simp [texts])
  | fromClient m =>
    cases m with
    | subscribe uriPatterns => exact htext uriPatterns 1 (by decide) (by simp [texts])
    | changeItem m =>
      simp only [request, requestSize, encodeChangeItem, List.length_append, hid]
      rw [hvalue m.value 2 (by decide) (by simp [values])]
    | announceFeatures features => exact htext features 1 (by decide) (by simp [texts])

/-- Two readings of the values of a message agree if they agree on each. -/
theorem map_eq_map_iff {S S' V V' : Type} {f : S → S'} {g g' : V → V'} (m : Message S V) :
    m.map f g = m.map f g' ↔ ∀ v ∈ m.values, g v = g' v := by
  cases m with
  | fromServer m => cases m <;> simp [map, ServerMessage.map, AddItem.map, ChangeItem.map, values]
  | fromClient m => cases m <;> simp [map, ClientMessage.map, ChangeItem.map, values]

theorem request_tag (m : ServerMessage VariantString PVariant) :
    0 < (fromServer m).request.1 ∧ (fromServer m).request.1 ≤ 4 := by
  cases m <;> simp [request]

theorem request_tag_client (m : ClientMessage VariantString PVariant) :
    0 < (fromClient m).request.1 ∧ (fromClient m).request.1 ≤ 3 := by
  cases m <;> simp [request]

private theorem receive_large (libs : Nat → Nat → CLibrary) (hlarge : 2 ^ 32 ≤ m.request.2.length)
    (hfits : m.request.2.length < 2 ^ 63) :
    m.receive libs (encodeDelimited m.request.1 m.request.2) = none := by
  cases m with
  | fromServer m =>
    rw [receive, clientReceiveListener,
      listener_request_large (request_tag m) (by decide) hlarge hfits, Option.map_none]
  | fromClient m =>
    rw [receive, serverReceiveListener,
      listener_request_large (request_tag_client m) (by decide) hlarge hfits, Option.map_none]

/-- The peer decodes the request to a message with the same id and texts, and the values as they
arrive. -/
theorem receive_arrives (libs : Nat → Nat → CLibrary) (hplain : m.Plain)
    (hsize : m.request.2.length < 2 ^ 32) :
    ∃ m', m.receive libs (encodeDelimited m.request.1 m.request.2) = some m' ∧
      m'.view = m.map tweakVariantStringCStr fun v => Pickle.view (arrivesAs v) := by
  cases m with -- the listener hands the request to its decoder
  | fromServer m =>
    suffices hrequest : ∃ m', decodeServerRequest libs (fromServer m).request.2
        (fromServer m).request.1 = some m' ∧ m'.map tweakVariantStringCStr Pickle.view =
          m.map tweakVariantStringCStr fun v => Pickle.view (arrivesAs v) by
      obtain ⟨m', hdecode, hview⟩ := hrequest
      refine ⟨fromServer m', ?_, congrArg fromServer hview⟩
      rw [receive, clientReceiveListener,
        listener_request (request_tag m) (by decide) hsize hdecode, Option.map_some]
    cases m with
    | addItem m =>
      obtain ⟨m', hdecode, hview⟩ := decodeServerAddItemRequest_encode libs hplain hsize
      exact ⟨.addItem m', congrArg (Option.map ServerMessage.addItem) hdecode,
        congrArg ServerMessage.addItem hview⟩
    | changeItem m =>
      obtain ⟨m', hdecode, hview⟩ :=
        decodeChangeItemRequest_encode libs (hplain.2 m.value (by simp [values])) hsize
      exact ⟨.changeItem m', congrArg (Option.map ServerMessage.changeItem) hdecode,
        congrArg ServerMessage.changeItem hview⟩
    | removeItem id =>
      exact ⟨.removeItem id, congrArg (Option.map ServerMessage.removeItem)
        (decodeRemoveItemRequest_encode id), rfl⟩
    | announceFeatures features =>
      obtain ⟨t, ht⟩ := hplain.1 features (by simp [texts])
      obtain ⟨s', hdecode, hview⟩ := decodeTextRequest_encode libs ht hsize
      exact ⟨.announceFeatures s', congrArg (Option.map ServerMessage.announceFeatures) hdecode,
        congrArg ServerMessage.announceFeatures hview⟩
  | fromClient m =>
    suffices hrequest : ∃ m', decodeClientRequest libs (fromClient m).request.2
        (fromClient m).request.1 = some m' ∧ m'.map tweakVariantStringCStr Pickle.view =
          m.map tweakVariantStringCStr fun v => Pickle.view (arrivesAs v) by
      obtain ⟨m', hdecode, hview⟩ := hrequest
      refine ⟨fromClient m', ?_, congrArg fromClient hview⟩
      rw [receive, serverReceiveListener,
        listener_request (request_tag_client m) (by decide) hsize hdecode, Option.map_some]
    cases m with
    | subscribe uriPatterns =>
      obtain ⟨t, ht⟩ := hplain.1 uriPatterns (by simp [texts])
      obtain ⟨s', hdecode, hview⟩ := decodeTextRequest_encode libs ht hsize
      exact ⟨.subscribe s', congrArg (Option.map ClientMessage.subscribe) hdecode,
        congrArg ClientMessage.subscribe hview⟩
    | changeItem m =>
      obtain ⟨m', hdecode, hview⟩ :=
        decodeChangeItemRequest_encode libs (hplain.2 m.value (by simp [values])) hsize
      exact ⟨.changeItem m', congrArg (Option.map ClientMessage.changeItem) hdecode,
        congrArg ClientMessage.changeItem hview⟩
    | announceFeatures features =>
      obtain ⟨t, ht⟩ := hplain.1 features (by simp [texts])
      obtain ⟨s', hdecode, hview⟩ := decodeTextRequest_encode libs ht hsize
      exact ⟨.announceFeatures s', congrArg (Option.map ClientMessage.announceFeatures) hdecode,
        congrArg ClientMessage.announceFeatures hview⟩

theorem request_tag_le (m : Message VariantString PVariant) : 0 < m.request.1 ∧ m.request.1 ≤ 4 := by
  cases m with
  | fromServer m => exact request_tag m
  | fromClient m =>
    obtain ⟨hpos, hle⟩ := request_tag_client m
    exact ⟨hpos, by omega⟩

/-- The request is decoded to the message that was sent. -/
def Decodes (libs : Nat → Nat → CLibrary) (m : Message VariantString PVariant) (bytes : Bytes) : Prop :=
  ∃ m', m.receive libs bytes = some m' ∧ m'.view = m.view

/-- The request arrives as it was sent, unless types are confused. -/
theorem decodes_iff (libs : Nat → Nat → CLibrary) (hplain : m.Plain)
    (hsize : m.request.2.length < 2 ^ 32) :
    m.Decodes libs (encodeDelimited m.request.1 m.request.2) ↔ m.Unconfused := by
  obtain ⟨m', hreceive, hview⟩ := receive_arrives libs hplain hsize
  have htypes : m.map tweakVariantStringCStr (fun v => Pickle.view (arrivesAs v)) = m.view ↔
      m.Unconfused := by
    rw [view, map_eq_map_iff]
    exact forall₂_congr fun v _ => view_arrivesAs_iff v
  rw [Decodes, hreceive, ← htypes, ← hview]
  simp only [Option.some.injEq, exists_eq_left']

/-- Exactly the deliverable messages are sent and arrive with the same id, texts and values, of the
same type and with the same bits or text. -/
theorem receive_view_iff (libs : Nat → Nat → CLibrary) (m : Message VariantString PVariant)
    (hplain : m.Plain) :
    (∃ bytes m', m.encode = some bytes ∧ m.receive libs bytes = some m' ∧ m'.view = m.view) ↔
      m.Deliverable := by
  have hlength := length_request hplain
  constructor
  · rintro ⟨bytes, m', hsend, hreceive, hview⟩
    obtain ⟨hnamed, rfl, hfits⟩ := encode_eq_some hplain hsend
    -- a request that is too large is refused by the reader
    have hsize : m.request.2.length < 2 ^ 32 := by
      by_contra hlarge
      rw [receive_large libs (Nat.le_of_not_lt hlarge) hfits] at hreceive
      cases hreceive
    exact ⟨hnamed, (decodes_iff libs hplain hsize).mp ⟨m', hreceive, hview⟩, hlength ▸ hsize⟩
  · rintro ⟨hnamed, htypes, hsize⟩
    rw [← hlength] at hsize
    obtain ⟨m', hreceive, hview⟩ := (decodes_iff libs hplain hsize).mpr htypes
    refine ⟨_, m', ?_, hreceive, hview⟩
    rw [encode_eq hplain, if_pos hnamed]
    exact tweakPickleSendMessage_of_lt (Nat.lt_of_le_of_lt m.request_tag_le.2 (by decide)) hsize

def lettersString (n : Nat) : VariantString :=
  tweakAssignString Strings.zeroLibrary .empty (some (Strings.letters n))

private theorem implements_lettersString {n : Nat} (h : n < 2 ^ 32) :
    Strings.Implements (lettersString n) (Strings.letters n) := by
  have hgrow : Strings.GrowthFits VariantString.empty.init.capacity (Strings.letters n).val.length := by
    intro _
    rw [sizeModulus, Strings.letters, List.length_replicate]
    omega
  have hstores : Stores (lettersString n) (Strings.letters n) := stores_assign Stores.empty hgrow
  exact hstores.implements

/-- An item with a text for each string, a number and a string value. -/
def mixedItem : Message VariantString PVariant :=
  fromServer (.addItem ⟨300, lettersString 3, .num .sint16 (-2), lettersString 0, lettersString 1,
    .string (lettersString 2)⟩)

theorem receive_view_iff_mixedItem :
    ∃ bytes m', mixedItem.encode = some bytes ∧
      mixedItem.receive (fun _ _ => Strings.zeroLibrary) bytes = some m' ∧
      m'.view = mixedItem.view := by
  have hplain : mixedItem.Plain := by
    constructor
    · intro s hs
      simp only [texts, mixedItem, List.mem_cons, List.not_mem_nil, or_false] at hs
      rcases hs with rfl | rfl | rfl
      all_goals exact ⟨_, implements_lettersString (by decide)⟩
    · intro v hv
      simp only [values, mixedItem, List.mem_cons, List.not_mem_nil, or_false] at hv
      rcases hv with rfl | rfl
      · exact .inl trivial
      · exact .inr ⟨_, _, rfl, implements_lettersString (by decide)⟩
  refine (receive_view_iff (fun _ _ => Strings.zeroLibrary) mixedItem hplain).mpr
    ⟨by decide, fun v hv => ?_, by decide⟩
  simp only [values, mixedItem, List.mem_cons, List.not_mem_nil, or_false] at hv
  rcases hv with rfl | rfl
  all_goals exact ⟨by decide, by decide⟩

/-- A `sint8` arrives as a `sint32`, and a `uint64` as the low half of it. -/
theorem receive_confuses_types :
    (∃ bytes, (fromServer (.changeItem ⟨1, .num .sint8 (-5)⟩)).encode = some bytes ∧
      receive (fun _ _ => Strings.zeroLibrary) (fromServer (.changeItem ⟨1, .num .sint8 (-5)⟩))
        bytes = some (fromServer (.changeItem ⟨1, .num .sint32 (-5)⟩))) ∧
    ∃ bytes, (fromClient (.changeItem ⟨1, .num .uint64 (2 ^ 32 + 7)⟩)).encode = some bytes ∧
      receive (fun _ _ => Strings.zeroLibrary) (fromClient (.changeItem ⟨1, .num .uint64 (2 ^ 32 + 7)⟩))
        bytes = some (fromClient (.changeItem ⟨1, .num .uint32 7⟩)) :=
  ⟨⟨_, rfl, rfl⟩, ⟨_, rfl, rfl⟩⟩

end Message

end TweakTool.Pickle
