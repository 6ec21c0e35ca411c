import TweakTool.Pickle.Value

/-! # Messages on the wire

The requests of `tweakpickle_server_pb.c` and `tweakpickle_client_pb.c`: what an endpoint writes into
a datagram, and what its peer reads from it. A datagram is a `server_node_message` or a
`client_node_message`, a oneof whose members are the requests. The listeners give the oneof a
callback, which decodes the member that was received.

The encoder is nanopb's walk over the fields of a message, in the order of their tags; a `uint64`
that is 0 is left out. -/

namespace TweakTool.Pickle

open TweakTool.Lib TweakTool.Common

/-! ## Requests -/

/-- `tweak_pickle_add_item`, over a type `S` of texts and a type `V` of values. -/
structure AddItem (S V : Type) where
  id : BitVec 64
  uri : S
  currentValue : V
  description : S
  «meta» : S
  defaultValue : V

structure ChangeItem (V : Type) where
  id : BitVec 64
  value : V

inductive ServerMessage (S V : Type) where
  | addItem (addItem : AddItem S V)
  | changeItem (changeItem : ChangeItem V)
  | removeItem (id : BitVec 64)
  | announceFeatures (features : S)

inductive ClientMessage (S V : Type) where
  | subscribe (uriPatterns : S)
  | changeItem (changeItem : ChangeItem V)
  | announceFeatures (features : S)

def AddItem.map {S S' V V' : Type} (f : S → S') (g : V → V') (m : AddItem S V) : AddItem S' V' where
  id := m.id
  uri := f m.uri
  currentValue := g m.currentValue
  description := f m.description
  «meta» := f m.meta
  defaultValue := g m.defaultValue

def ChangeItem.map {V V' : Type} (g : V → V') (m : ChangeItem V) : ChangeItem V' where
  id := m.id
  value := g m.value

def ServerMessage.map {S S' V V' : Type} (f : S → S') (g : V → V') :
    ServerMessage S V → ServerMessage S' V'
  | .addItem m => .addItem (m.map f g)
  | .changeItem m => .changeItem (m.map g)
  | .removeItem id => .removeItem id
  | .announceFeatures features => .announceFeatures (f features)

def ClientMessage.map {S S' V V' : Type} (f : S → S') (g : V → V') :
    ClientMessage S V → ClientMessage S' V'
  | .subscribe uriPatterns => .subscribe (f uriPatterns)
  | .changeItem m => .changeItem (m.map g)
  | .announceFeatures features => .announceFeatures (f features)

/-! ## Encoding -/

def encodeUint64 (tag : Nat) (value : BitVec 64) : Bytes :=
  if value = 0 then [] else pbEncodeTag wtVarint tag ++ pbEncodeVarint value.toNat

def encodeDelimited (tag : Nat) (data : Bytes) : Bytes :=
  pbEncodeTag wtString tag ++ pbEncodeString data

def tweakPicklePbEncodeString (tag : Nat) (s : VariantString) : Bytes :=
  encodeDelimited tag (stringBytes s)

def encodeValue (tag : Nat) (v : PVariant) : Bytes :=
  encodeDelimited tag (encodePbValue (tweakPicklePbVariantToValue v))

def encodeAddItem (m : AddItem VariantString PVariant) : Bytes :=
  encodeUint64 1 m.id ++ tweakPicklePbEncodeString 2 m.uri ++ encodeValue 3 m.currentValue ++
    tweakPicklePbEncodeString 4 m.description ++ tweakPicklePbEncodeString 5 m.meta ++
    if m.defaultValue.type = .null then [] else encodeValue 6 m.defaultValue

def encodeChangeItem (m : ChangeItem PVariant) : Bytes :=
  encodeUint64 1 m.id ++ encodeValue 2 m.value

/-- `tweak_pickle_send_message`: the datagram, if there is memory for it. -/
def tweakPickleSendMessage (tag : Nat) (request : Bytes) : Option Bytes :=
  let datagram := encodeDelimited tag request
  if datagram.length < 2 ^ 63 then some datagram else none

def tweakVariantStringIsEmpty (s : VariantString) : Bool := tweakVariantStringCStr s = some .empty

/-- The functions `tweak_pickle_server_*` that send a request. No datagram is sent for a bad
parameter. -/
def ServerMessage.encode : ServerMessage VariantString PVariant → Option Bytes
  | .addItem m =>
    if m.id = 0 then none
    else if tweakVariantStringIsEmpty m.uri then none
    else if m.currentValue.type = .null then none
    else tweakPickleSendMessage 1 (encodeAddItem m)
  | .changeItem m =>
    if m.value.type = .null then none else tweakPickleSendMessage 2 (encodeChangeItem m)
  | .removeItem id => tweakPickleSendMessage 3 (encodeUint64 1 id)
  | .announceFeatures features => tweakPickleSendMessage 4 (tweakPicklePbEncodeString 1 features)

/-- The functions `tweak_pickle_client_*` that send a request. -/
def ClientMessage.encode : ClientMessage VariantString PVariant → Option Bytes
  | .subscribe uriPatterns => tweakPickleSendMessage 1 (tweakPicklePbEncodeString 1 uriPatterns)
  | .changeItem m =>
    if m.value.type = .null then none else tweakPickleSendMessage 2 (encodeChangeItem m)
  | .announceFeatures features => tweakPickleSendMessage 3 (tweakPicklePbEncodeString 1 features)

/-! ## Decoding -/

variable {σ : Type}

/-- The decoder of a `uint64`. -/
def uint64Field (set : BitVec 64 → σ) : FieldDecoder σ := fun wireType bytes =>
  if wireType ≠ wtVarint then none
  else (pbDecodeVarint bytes).map fun (value, rest) => (set (BitVec.ofNat 64 value), rest)

/-- `tweak_pickle_pb_decode_string`, which reads the stream into the storage that
`tweak_pickle_pb_reserve_string` made. The length of the result counts the terminator. -/
def tweakPicklePbDecodeString (lib : CLibrary) (string : VariantString) (stream : Bytes) :
    VariantString :=
  let size := stream.length + 1
  let desiredCapacity := size + 1
  if desiredCapacity ≤ inlineStringSize then
    { length := size
      capacity := inlineStringSize
      smallBuffer := blit string.smallBuffer 0 (stream ++ [0])
      largeBuffer := none }
  else
    { length := size
      capacity := desiredCapacity
      smallBuffer := lib.pointer.val
      largeBuffer := some (blit (List.replicate desiredCapacity 0) 0 (stream ++ [0])) }

/-- The varint of `read_raw_value`, of at most `max` bytes. -/
def readRawVarint : (max : Nat) → Bytes → Option (Bytes × Bytes)
  | 0, _ | _, [] => none
  | max + 1, byte :: bytes =>
    if byte.toNat < 128 then some ([byte], bytes)
    else (readRawVarint max bytes).map fun (raw, rest) => (byte :: raw, rest)

/-- The substream that `decode_callback_field` gives to a callback. -/
def callbackStream (wireType : WireType) (bytes : Bytes) : Option (Bytes × Bytes) :=
  match wireType with
  | 2 => pbMakeStringSubstream bytes
  | 0 => readRawVarint 10 bytes
  | 1 => pbRead 8 bytes
  | 5 => pbRead 4 bytes
  | _ => none

/-- The decoder of a field with `tweak_pickle_pb_make_string_decode_callback`. -/
def stringField (lib : CLibrary) (string : VariantString) (set : VariantString → σ) :
    FieldDecoder σ := fun wireType bytes =>
  (callbackStream wireType bytes).map fun (stream, rest) =>
    (set (tweakPicklePbDecodeString lib string stream), rest)

/-- The decoder of a submessage, which starts from what is there. -/
def valueField (libs : Nat → CLibrary) (value : ValueState) (set : ValueState → σ) :
    FieldDecoder σ := fun wireType bytes =>
  if wireType ≠ wtString then none
  else
    match pbMakeStringSubstream bytes with
    | none => none
    | some (stream, rest) =>
      (pbDecode (valueFields libs) value stream).map fun value => (set value, rest)

section Fields

-- what the library does for the field with a given tag
variable (libs : Nat → Nat → CLibrary)

/-- `tweak_pb_add_item_fields`, with the callbacks of `decode_server_add_item_request`. -/
def addItemFields (s : AddItem VariantString ValueState) :
    Nat → Option (FieldDecoder (AddItem VariantString ValueState))
  | 1 => some (uint64Field fun id => { s with id := id })
  | 2 => some (stringField (libs 2 0) s.uri fun uri => { s with uri := uri })
  | 3 => some (valueField (libs 3) s.currentValue fun value => { s with currentValue := value })
  | 4 => some (stringField (libs 4 0) s.description fun text => { s with description := text })
  | 5 => some (stringField (libs 5 0) s.meta fun text => { s with «meta» := text })
  | 6 => some (valueField (libs 6) s.defaultValue fun value => { s with defaultValue := value })
  | _ => none

def AddItem.init : AddItem VariantString ValueState := ⟨0, .empty, .init, .empty, .empty, .init⟩

def decodeServerAddItemRequest (stream : Bytes) : Option (AddItem VariantString PVariant) :=
  (pbDecode (addItemFields libs) .init stream).map (·.map (·) ValueState.result)

def changeItemFields (s : ChangeItem ValueState) :
    Nat → Option (FieldDecoder (ChangeItem ValueState))
  | 1 => some (uint64Field fun id => { s with id := id })
  | 2 => some (valueField (libs 2) s.value fun value => { s with value := value })
  | _ => none

/-- `decode_server_change_item_request` and `decode_client_change_item_request`. -/
def decodeChangeItemRequest (stream : Bytes) : Option (ChangeItem PVariant) :=
  (pbDecode (changeItemFields libs) ⟨0, .init⟩ stream).map (·.map ValueState.result)

def removeItemFields (_ : BitVec 64) : Nat → Option (FieldDecoder (BitVec 64))
  | 1 => some (uint64Field fun id => id)
  | _ => none

/-- The fields of `announce_features` and `subscribe`. -/
def textFields (s : VariantString) : Nat → Option (FieldDecoder VariantString)
  | 1 => some (stringField (libs 1 0) s fun text => text)
  | _ => none

/-- `decode_announce_features_request` and `decode_client_subscribe_request`. -/
def decodeTextRequest (stream : Bytes) : Option VariantString :=
  pbDecode (textFields libs) .empty stream

def decodeServerRequest (stream : Bytes) :
    Nat → Option (ServerMessage VariantString PVariant)
  | 1 => (decodeServerAddItemRequest libs stream).map .addItem
  | 2 => (decodeChangeItemRequest libs stream).map .changeItem
  | 3 => (pbDecode removeItemFields 0 stream).map .removeItem
  | 4 => (decodeTextRequest libs stream).map .announceFeatures
  | _ => none

def decodeClientRequest (stream : Bytes) :
    Nat → Option (ClientMessage VariantString PVariant)
  | 1 => (decodeTextRequest libs stream).map .subscribe
  | 2 => (decodeChangeItemRequest libs stream).map .changeItem
  | 3 => (decodeTextRequest libs stream).map .announceFeatures
  | _ => none

end Fields

/-- The oneof of a node message with the tags up to `tags`. Datagrams are made with one member; one
that has a second, which would be decoded over the first, is not modelled and refused here. -/
def requestField {M : Type} (tags : Nat) (decode : Bytes → Nat → Option M) (s : Option M)
    (tag : Nat) : Option (FieldDecoder (Option M)) :=
  if tag = 0 ∨ tags < tag then none
  else some fun wireType bytes =>
    if wireType ≠ wtString ∨ s.isSome then none
    else
      match pbMakeStringSubstream bytes with
      | none => none
      | some (stream, rest) => (decode stream tag).map fun message => (some message, rest)

/-- `client_receive_listener`: the message that is handed to the listener of the client. -/
def clientReceiveListener (libs : Nat → Nat → CLibrary) (buffer : Bytes) :
    Option (ServerMessage VariantString PVariant) :=
  (pbDecode (requestField 4 (decodeServerRequest libs)) none buffer).join

def serverReceiveListener (libs : Nat → Nat → CLibrary) (buffer : Bytes) :
    Option (ClientMessage VariantString PVariant) :=
  (pbDecode (requestField 3 (decodeClientRequest libs)) none buffer).join

end TweakTool.Pickle
