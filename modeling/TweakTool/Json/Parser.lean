import TweakTool.Common.Variant
import TweakTool.Lib.Bytes
import TweakTool.Lib.Run

/-! # The JSON parser

`json_suckless.h` and `tweakjson.c`: a flat loop over the characters of a text, with the set of
characters that it expects next, a flag that says whether the next string is a key, and the stack of
open arrays and objects; it calls back into a builder of document trees.

The loop asks for characters at several places. Here each of these places is a `Mode`, and a step of
the parser (`feed`) takes one character. -/

namespace TweakTool.Json

open TweakTool.Lib

/-! ## Documents -/

inductive JsonType where
  | array | object | string | bool | null | number
  deriving DecidableEq

/-- `tweak_json_node`, with the spelling of values as their data. -/
inductive Node where
  | null
  | bool (data : Text)
  | number (data : Text)
  | string (data : Text)
  | array (items : List Node)
  | object (fields : List (Text × Node))

/-- What the standard leaves open. -/
structure Platform where
  signed : Bool -- whether `char` is signed
  address : Nat → Text -- what `%p` prints for the node that was created after so many others

def createNewNode (type : JsonType) (string : Text) : Node :=
  match type with
  | .null => .null
  | .array => .array []
  | .object => .object []
  | .string => .string string
  | .bool => .bool string
  | .number => .number string

/-- The name of a member that another one already has. -/
def duplicateName (platform : Platform) (child : Nat) : Text :=
  (text "duplicate_name_" ++ platform.address child).take 63

/-- `add_element_to_array` and `add_element_to_object`; nothing else has children. -/
def addElement (name duplicate : Text) (child : Node) : Node → Node
  | .array items => .array (items ++ [child])
  | .object fields =>
    .object (fields ++ [(if fields.any (·.1 = name) then duplicate else name, child)])
  | node => node

/-- Change the node that is so many last children below another one. -/
def modifyBelow (f : Node → Node) : Nat → Node → Node
  | 0, node => f node
  | depth + 1, .array items => .array (items.modifyLast (modifyBelow f depth))
  | depth + 1, .object fields =>
    .object (fields.modifyLast fun field => (field.1, modifyBelow f depth field.2))
  | _ + 1, node => node

/-- `json_parse_context`; allocations succeed, so that `was_error` is never set. -/
structure Context where
  document : Option Node
  created : Nat -- the number of nodes that were created

/-- `enter_callback`. A cookie points to the last node that was made at its depth, which is the last
child of the one before. -/
def enterCallback (platform : Platform) (context : Context) (depth : Nat) (name : Text)
    (type : JsonType) (str : Text) : Context :=
  let child := createNewNode type str
  let document :=
    match depth with
    | 0 => some child
    | depth + 1 =>
      let duplicate := duplicateName platform context.created
      context.document.map (modifyBelow (addElement name duplicate child) depth)
  ⟨document, context.created + 1⟩

/-! ## Strings -/

/-- `GETNEXT()` as an `int`: the end is `END_MARKER`. -/
def Platform.getnext (platform : Platform) (c : UInt8) : Int :=
  if c = 0 then -1
  else if platform.signed ∧ 128 ≤ c.toNat then c.toNat - 256
  else c.toNat

def codepointtoutf8 (r : Nat) : Text :=
  if r = 0 then []
  else if r ≤ 0x7F then [UInt8.ofNat r]
  else if r ≤ 0x07FF then
    [UInt8.ofNat (0xC0 ||| (r &&& 0x0007C0) >>> 6), UInt8.ofNat (0x80 ||| (r &&& 0x00003F))]
  else if r ≤ 0xFFFF then
    [UInt8.ofNat (0xE0 ||| (r &&& 0x00F000) >>> 12), UInt8.ofNat (0x80 ||| (r &&& 0x000FC0) >>> 6),
      UInt8.ofNat (0x80 ||| (r &&& 0x00003F))]
  else
    [UInt8.ofNat (0xF0 ||| (r &&& 0x1C0000) >>> 18), UInt8.ofNat (0x80 ||| (r &&& 0x03F000) >>> 12),
      UInt8.ofNat (0x80 ||| (r &&& 0x000FC0) >>> 6), UInt8.ofNat (0x80 ||| (r &&& 0x00003F))]

def isxdigit (c : UInt8) : Bool :=
  (ascii '0' ≤ c ∧ c ≤ ascii '9') ∨ (ascii 'a' ≤ c ∧ c ≤ ascii 'f') ∨
    (ascii 'A' ≤ c ∧ c ≤ ascii 'F')

def hexdigit (c : UInt8) : Nat :=
  if ascii '0' ≤ c ∧ c ≤ ascii '9' then c.toNat - (ascii '0').toNat
  else if ascii 'a' ≤ c ∧ c ≤ ascii 'f' then 10 + (c.toNat - (ascii 'a').toNat)
  else if ascii 'A' ≤ c ∧ c ≤ ascii 'F' then 10 + (c.toNat - (ascii 'A').toNat)
  else 0

/-- Where the loop over the characters of a string asks for the next one. -/
inductive Scan where
  | plain -- at its head, with `escape` unset
  | escape -- at its head, with `escape` set
  | hex (i cp : Nat) -- in the loop over the hexadecimal digits of `cp`
  | high (hi : Nat) -- after a high surrogate
  | highEscape (hi : Nat) -- after a high surrogate and a backslash
  | low (hi i lo : Nat) -- in the loop over the hexadecimal digits of `lo`

/-- What becomes of a string with one more character. -/
inductive Scanned where
  | invalid
  | next (scan : Scan) (str : Text)
  | closed (str : Text)

/-- The characters after a backslash, from `escchr` on. -/
def escchr (c : UInt8) (str : Text) : Scanned :=
  if c = ascii '"' ∨ c = ascii '\\' ∨ c = ascii '/' then .next .plain (str ++ [c])
  else if c = ascii 'b' then .next .plain (str ++ [8])
  else if c = ascii 'f' then .next .plain (str ++ [12])
  else if c = ascii 'n' then .next .plain (str ++ [10])
  else if c = ascii 'r' then .next .plain (str ++ [13])
  else if c = ascii 't' then .next .plain (str ++ [9])
  else if c = ascii 'u' then .next (.hex 12 0) str
  else .invalid

/-- The other characters, from `chr` on. -/
def chr (platform : Platform) (c : UInt8) (str : Text) : Scanned :=
  if platform.getnext c < 0x20 then .invalid
  else if c = ascii '\\' then .next .escape str
  else if c = ascii '"' then .closed str
  else .next .plain (str ++ [c])

/-- After the digits of `cp`. -/
def codePoint (cp : Nat) (str : Text) : Scanned :=
  if 0xd800 ≤ cp ∧ cp ≤ 0xdbff then .next (.high cp) str
  else .next .plain (str ++ codepointtoutf8 cp)

/-- After the digits of `lo`. -/
def surrogatePair (hi lo : Nat) (str : Text) : Scanned :=
  if 0xdc00 ≤ lo ∧ lo ≤ 0xdfff then
    .next .plain (str ++ codepointtoutf8 ((hi <<< 10) + lo - 56613888))
  else .next .plain (str ++ codepointtoutf8 hi ++ codepointtoutf8 lo)

def scanString (platform : Platform) (c : UInt8) (str : Text) : Scan → Scanned
  | .plain => chr platform c str
  | .escape => if platform.getnext c < 0x20 then .invalid else escchr c str
  | .hex i cp =>
    if ¬ isxdigit c then .invalid
    else if i ≠ 0 then .next (.hex (i - 4) (cp ||| hexdigit c <<< i)) str
    else codePoint (cp ||| hexdigit c <<< i) str
  | .high hi =>
    if c ≠ ascii '\\' then chr platform c (str ++ codepointtoutf8 hi)
    else .next (.highEscape hi) str
  | .highEscape hi =>
    if c ≠ ascii 'u' then escchr c (str ++ codepointtoutf8 hi)
    else .next (.low hi 12 0) str
  | .low hi i lo =>
    if ¬ isxdigit c then .invalid
    else if i ≠ 0 then .next (.low hi (i - 4) (lo ||| hexdigit c <<< i)) str
    else surrogatePair hi (lo ||| hexdigit c <<< i) str

/-! ## The loop -/

inductive Expect where
  | value | string | stop | objectString | objectKey | arrayValue

def Expect.chars : Expect → Text
  | .value => text "\x7b[\"-0123456789tfn"
  | .string => text "\""
  | .stop => text "\x7d],"
  | .objectString => text "\"\x7d"
  | .objectKey => text ":"
  | .arrayValue => text "\x7b[\"-0123456789tfn]"

def numberChars : Text := text "0123456789eE+-."

/-- Where the loop asks for the next character. -/
inductive Mode where
  | main
  | string (scan : Scan) (str : Text)
  /-- In `true`, `false` or `null`, with the letters that have to come. -/
  | literal (letters : Text) (type : JsonType) (str : Text)
  | number (pri : Text)
  | ended -- `END_MARKER` was seen

/-- What is used of a `json_node`. -/
structure Level where
  type : JsonType
  name : Text

structure Parser where
  mode : Mode
  parents : List Level -- `nodes[depth - 1]`, …, `nodes[0]`
  name : Text -- `nodes[depth].name`
  iskey : Bool
  expect : Expect
  context : Context

namespace Parser

def init : Parser := ⟨.main, [], [], false, .value, ⟨none, 0⟩⟩

/-- `enter_cb` for `nodes[depth]`. -/
def enter (platform : Platform) (s : Parser) (type : JsonType) (str : Text) : Parser :=
  { s with context := enterCallback platform s.context s.parents.length s.name type str }

/-- A value that is no container is complete. -/
def leaf (platform : Platform) (s : Parser) (type : JsonType) (str : Text) : Parser :=
  { s.enter platform type str with mode := .main, expect := .stop }

def closeString (platform : Platform) (s : Parser) (str : Text) : Parser :=
  if s.iskey then { s with mode := .main, name := str, expect := .objectKey }
  else s.leaf platform .string str

def scanned (platform : Platform) (s : Parser) : Scanned → Option Parser
  | .invalid => none
  | .next scan str => some { s with mode := .string scan str }
  | .closed str => some (s.closeString platform str)

def maxNodeDepth : Nat := 64

def openNode (platform : Platform) (s : Parser) (type : JsonType) (iskey : Bool) (expect : Expect) :
    Option Parser :=
  if maxNodeDepth ≤ s.parents.length + 1 then none
  else
    some { s.enter platform type [] with
      parents := ⟨type, s.name⟩ :: s.parents, name := [], iskey := iskey, expect := expect }

def closeNode (s : Parser) (type : JsonType) : Option Parser :=
  match s.parents with
  | [] => none
  | parent :: parents =>
    if parent.type = type then
      some { s with parents := parents, name := parent.name, expect := .stop }
    else none

def comma (s : Parser) : Option Parser :=
  match s.parents with
  | [] => none
  | parent :: _ =>
    if parent.type = .object then some { s with iskey := true, expect := .string }
    else some { s with expect := .value }

/-- The `switch` over an expected character. -/
def switch (platform : Platform) (s : Parser) (c : UInt8) : Option Parser :=
  if c = ascii ':' then some { s with mode := .main, iskey := false, expect := .value }
  else if c = ascii '"' then some { s with mode := .string .plain [] }
  else if c = ascii '[' then { s with mode := .main }.openNode platform .array s.iskey .arrayValue
  else if c = ascii '{' then { s with mode := .main }.openNode platform .object true .objectString
  else if c = ascii ']' then { s with mode := .main }.closeNode .array
  else if c = ascii '}' then { s with mode := .main }.closeNode .object
  else if c = ascii ',' then { s with mode := .main }.comma
  else if c = ascii 't' then
    some { s with mode := .literal (text "rue") .bool (text "true") }
  else if c = ascii 'f' then
    some { s with mode := .literal (text "alse") .bool (text "false") }
  else if c = ascii 'n' then
    some { s with mode := .literal (text "ull") .null (text "null") }
  else some { s with mode := .number [c] }

/-- The body of the loop, from `handlechr` on. -/
def handlechr (platform : Platform) (s : Parser) (c : UInt8) : Option Parser :=
  if platform.getnext c = -1 then some { s with mode := .ended }
  else if c = ascii ' ' ∨ c = ascii '\t' ∨ c = ascii '\n' ∨ c = ascii '\r' then
    some { s with mode := .main }
  else if c ∉ s.expect.chars then none
  else s.switch platform c

/-- The number before a character that does not belong to it. -/
def flush (platform : Platform) (s : Parser) : Parser :=
  match s.mode with
  | .number pri => s.leaf platform .number pri
  | _ => s

def feed (platform : Platform) (s : Parser) (c : UInt8) : Option Parser :=
  match s.mode with
  | .main => s.handlechr platform c
  | .string scan str => s.scanned platform (scanString platform c str scan)
  | .literal letters type str =>
    match letters with
    | [] => none
    | letter :: letters =>
      if c ≠ letter then none
      else if letters = [] then some (s.leaf platform type str)
      else some { s with mode := .literal letters type str }
  | .number pri =>
    -- `pri` has 128 bytes
    if platform.getnext c = -1 ∨ c ∉ numberChars ∨ 128 ≤ pri.length + 1 then
      (s.flush platform).handlechr platform c
    else some { s with mode := .number (pri ++ [c]) }
  | .ended => some s

/-- `END_MARKER` in each of the modes. -/
def finish (platform : Platform) (s : Parser) : Option Context :=
  match s.mode with
  | .string _ _ | .literal _ _ _ => none
  | .main | .number _ | .ended =>
    if s.parents = [] then some (s.flush platform).context else none

end Parser

/-- `none` for an error. -/
def parsejson (platform : Platform) (text : Text) : Option Context :=
  (run (Parser.feed platform) .init text).bind (Parser.finish platform)

/-- `tweak_json_parse`; `none` for `NULL`. -/
def tweakJsonParse (platform : Platform) (text : Text) : Option Node :=
  (parsejson platform text).bind Context.document

/-! ## Access -/

namespace Node

def type : Node → Nat
  | .null => 1
  | .array _ => 2
  | .object _ => 4
  | .string _ => 8
  | .bool _ => 16
  | .number _ => 32

end Node

def typeArray : Nat := 2
def typeObject : Nat := 4
def typeString : Nat := 8
def typeBool : Nat := 16
def typeNumber : Nat := 32
def typeValue : Nat := typeString ||| typeBool ||| typeNumber
def typeAny : Nat := 1 ||| typeArray ||| typeObject ||| typeValue

def tweakJsonGetType : Option Node → Nat
  | some node => node.type
  | none => 0

def masked (node : Node) (expectedTypeMask : Nat) : Option Node :=
  if node.type &&& expectedTypeMask ≠ 0 then some node else none

theorem masked_string (data : Text) {mask : Nat} (h : typeString &&& mask ≠ 0) :
    masked (.string data) mask = some (.string data) := if_pos h

theorem masked_number (data : Text) {mask : Nat} (h : typeNumber &&& mask ≠ 0) :
    masked (.number data) mask = some (.number data) := if_pos h

theorem masked_object (fields : List (Text × Node)) {mask : Nat} (h : typeObject &&& mask ≠ 0) :
    masked (.object fields) mask = some (.object fields) := if_pos h

theorem masked_typeAny (node : Node) : masked node typeAny = some node := by
  cases node <;> simp [masked, Node.type, typeAny, typeValue, typeArray, typeObject, typeString,
    typeBool, typeNumber]

def tweakJsonGetArraySize : Option Node → Option Nat
  | some (.array items) => some items.length
  | _ => none

def tweakJsonGetArrayItem (node : Option Node) (index : Nat) (expectedTypeMask : Nat) :
    Option Node :=
  match node with
  | some (.array items) => items[index]?.bind (masked · expectedTypeMask)
  | _ => none

def tweakJsonGetObjectField (node : Option Node) (field : Text) (expectedTypeMask : Nat) :
    Option Node :=
  match node with
  | some (.object fields) => (fields.lookup field).bind (masked · expectedTypeMask)
  | _ => none

def tweakJsonNodeAsCStr : Option Node → Option Text
  | some (.bool data) | some (.number data) | some (.string data) => some data
  | _ => none

end TweakTool.Json
