import TweakTool.Common.Convert
import TweakTool.Common.String
import TweakTool.Json.Lengths

/-! # Variants as JSON

`tweakvariant.c`: `tweak_variant_to_json` and the strings that it builds on the way. What is written
for a string is meant for `tweak_json_parse`. -/

namespace TweakTool.Common

open TweakTool.Lib TweakTool.Json

/-! ## Texts as C strings -/

/-- A text as a C function reads it, up to the first terminator. -/
def cString (t : Text) : CString :=
  ⟨t.takeWhile (· ≠ 0), fun h => by simpa using List.mem_takeWhile_imp h⟩

theorem cString_val {t : Text} (h : (0 : UInt8) ∉ t) : (cString t).val = t := by
  refine List.takeWhile_eq_self_iff.mpr fun c hc => ?_
  rw [decide_eq_true_eq]
  rintro rfl
  exact h hc

/-- What a pointer to the text of an object is read as; every object has one. -/
def contents (s : VariantString) : CString := (tweakVariantStringCStr s).getD .empty

/-! ## The texts -/

/-- `iscntrl` in the C locale. -/
def iscntrl (c : UInt8) : Bool := c < 32 ∨ c = 127

def hexChar (d : Nat) : UInt8 := if d < 10 then digitChar d else UInt8.ofNat (87 + d)

/-- `\\u%04x` for a character. -/
def unicodeEscape (c : UInt8) : Text :=
  text "\\u00" ++ [hexChar (c.toNat / 16), hexChar (c.toNat % 16)]

/-- What `json_escape_string` appends for a character. -/
def escapeChar (lib : CLibrary) (c : UInt8) : CString :=
  if c = ascii '"' then cString (text "\\\"")
  else if c = ascii '\\' then cString (text "\\\\")
  else if c = 8 then cString (text "\\b")
  else if c = 12 then cString (text "\\f")
  else if c = 10 then cString (text "\\n")
  else if c = 13 then cString (text "\\r")
  else if c = 9 then cString (text "\\t")
  else if iscntrl c then contents (tweakStringFormat lib .empty (cString (unicodeEscape c)))
  else cString [c]

def jsonEscapeString (lib : CLibrary) (arg : VariantString) : VariantString :=
  (contents arg).val.foldl (fun result c => tweakStringAppend lib result (escapeChar lib c)) .empty

def suffix : NumType → Text
  | .sint8 => text "sint8"
  | .sint16 => text "sint16"
  | .sint32 => text "sint32"
  | .sint64 => text "sint64"
  | .uint8 => text "uint8"
  | .uint16 => text "uint16"
  | .uint32 => text "uint32"
  | .uint64 => text "uint64"
  | .float => text "float"
  | .double => text "double"

/-- `bool_to_json`, `sint8_to_json`, …, `double_to_json`. -/
def scalarToJson (lib : CLibrary) (name value : Text) : VariantString :=
  tweakStringFormat lib .empty (cString (text "\x7b\"" ++ name ++ text "\": " ++ value ++ text "\x7d"))

/-- `sint8_vector_to_json`, …, `double_vector_to_json`. -/
def vectorToJson (lib : CLibrary) (name items : Text) : VariantString :=
  tweakStringFormat lib .empty (cString (text "\x7b\"vector\": \x7b\"item_type\": \"" ++ name ++
    text "\", \"items\": " ++ items ++ text "\x7d\x7d"))

/-- `{"string": "%s"}`. -/
def stringFormat (value : Text) : Text :=
  text "\x7b\"string\": \"" ++ (value ++ text "\"\x7d")

def stringToJson (lib : CLibrary) (arg : VariantString) : VariantString :=
  tweakStringFormat lib .empty (cString (stringFormat (contents (jsonEscapeString lib arg)).val))

def tweakVariantToJson (lib : CLibrary) (floats : FloatLibrary) :
    VariantOf VariantString (List UInt8) → VariantString
  | .null => tweakAssignString lib .empty (cString (text "null"))
  | .bool b => scalarToJson lib (text "bool") (boolToString b)
  | .num t bits => scalarToJson lib (suffix t) (scalarToString floats t bits)
  | .string s => stringToJson lib s
  | .vector t bytes => vectorToJson lib (suffix t) (vectorToString floats t (vectorItems t bytes))

/-! ## What is written for a character -/

/-- The item of a JSON string that stands for the character. -/
def escapeItem (c : UInt8) : Item :=
  if c = ascii '"' then .escape (ascii '"')
  else if c = ascii '\\' then .escape (ascii '\\')
  else if c = 8 then .escape (ascii 'b')
  else if c = 12 then .escape (ascii 'f')
  else if c = 10 then .escape (ascii 'n')
  else if c = 13 then .escape (ascii 'r')
  else if c = 9 then .escape (ascii 't')
  else if iscntrl c then
    .unicode (ascii '0') (ascii '0') (hexChar (c.toNat / 16)) (hexChar (c.toNat % 16))
  else .plain c

def controls : List UInt8 := (List.range 32).map UInt8.ofNat ++ [127]

variable {c : UInt8}

theorem mem_controls (h : iscntrl c) : c ∈ controls := by
  rw [controls, List.mem_append]
  rcases of_decide_eq_true h with h | rfl
  · refine Or.inl (List.mem_map.mpr ⟨c.toNat, ?_, UInt8.ofNat_toNat⟩)
    exact List.mem_range.mpr (UInt8.lt_iff_toNat_lt.mp h)
  · exact Or.inr List.mem_cons_self

/-- A character that is written as it is. -/
theorem escapeItem_cases (c : UInt8) : c ∈ controls ∨ c = ascii '"' ∨ c = ascii '\\' ∨
    escapeItem c = .plain c ∧ 0x20 ≤ c ∧ c ≠ ascii '"' ∧ c ≠ ascii '\\' := by
  by_cases hcontrol : iscntrl c
  · exact Or.inl (mem_controls hcontrol)
  · by_cases hquote : c = ascii '"'
    · exact Or.inr (Or.inl hquote)
    · by_cases hbackslash : c = ascii '\\'
      · exact Or.inr (Or.inr (Or.inl hbackslash))
      · have hle : 0x20 ≤ c := by
          simp only [iscntrl, decide_eq_true_eq, not_or, UInt8.not_lt] at hcontrol
          exact hcontrol.1
        have hne : c ≠ 8 ∧ c ≠ 12 ∧ c ≠ 10 ∧ c ≠ 13 ∧ c ≠ 9 := by
          refine ⟨?_, ?_, ?_, ?_, ?_⟩ <;> rintro rfl <;> exact absurd hle (by decide)
        refine Or.inr (Or.inr (Or.inr ⟨?_, hle, hquote, hbackslash⟩))
        simp only [escapeItem, if_neg hquote, if_neg hbackslash, hne, if_false, if_neg hcontrol]

/-- What is written for a character means that character. -/
theorem escapeItem_spec (hc : c ≠ 0) : (escapeItem c).Valid ∧
    (escapeItem c).meaning = [c] ∧ (escapeItem c).isHigh = false ∧
    (escapeItem c).spelling.length ≤ 6 := by
  have hall : ∀ d ∈ controls ++ [ascii '"', ascii '\\'], d ≠ 0 → (escapeItem d).Valid ∧
      (escapeItem d).meaning = [d] ∧ (escapeItem d).isHigh = false ∧
      (escapeItem d).spelling.length ≤ 6 := by
    decide
  rcases escapeItem_cases c with h | rfl | rfl | ⟨h, hvalid⟩
  · exact hall c (List.mem_append_left _ h) hc
  · exact hall _ (by decide) hc
  · exact hall _ (by decide) hc
  · rw [h]
    exact ⟨hvalid, rfl, rfl, by simp [Item.spelling]⟩

theorem mem_spelling_escapeItem {d : UInt8} (hd : d ∈ (escapeItem c).spelling) :
    d = c ∨ d ≠ 0 ∧ d < 128 := by
  have hall : ∀ c ∈ controls ++ [ascii '"', ascii '\\'], ∀ d ∈ (escapeItem c).spelling,
      d ≠ 0 ∧ d < 128 := by
    decide
  rcases escapeItem_cases c with h | rfl | rfl | ⟨h, -⟩
  · exact Or.inr (hall c (List.mem_append_left _ h) d hd)
  · exact Or.inr (hall _ (by decide) d hd)
  · exact Or.inr (hall _ (by decide) d hd)
  · rw [h] at hd
    exact Or.inl (List.mem_singleton.mp hd)

theorem zero_notMem_spelling (hc : c ≠ 0) : (0 : UInt8) ∉ (escapeItem c).spelling := by
  intro h
  rcases mem_spelling_escapeItem h with h | h
  · exact hc h.symm
  · exact h.1 rfl

variable {t : CString}

theorem contents_of_stores {s : VariantString} (h : Stores s t) : contents s = t := by
  rw [contents, h.implements.text]
  rfl

private theorem escapeChar_val (lib : CLibrary) (hc : c ≠ 0) :
    (escapeChar lib c).val = (escapeItem c).spelling := by
  rw [escapeItem, escapeChar]
  split_ifs with hquote hbackslash hb hf hn hr ht hcontrol
  · rfl
  · rfl
  · rfl
  · rfl
  · rfl
  · rfl
  · rfl
  · have hall : ∀ d ∈ controls, (0 : UInt8) ∉ unicodeEscape d := by decide
    have hval := cString_val (hall c (mem_controls hcontrol))
    rw [contents_of_stores (stores_format _ (by rw [hval]; exact (by decide : 6 < intMax))), hval]
    rfl
  · exact cString_val (by simpa using hc.symm)

/-! ## What is written for a string -/

/-- The characters between the quotation marks. -/
def escaped (s : Text) : Text := (s.map escapeItem).flatMap Item.spelling

theorem zero_notMem_escaped (s : CString) : (0 : UInt8) ∉ escaped s.val := by
  rw [escaped, List.mem_flatMap]
  rintro ⟨_, hitem, h⟩
  obtain ⟨c, hc, rfl⟩ := List.mem_map.mp hitem
  refine zero_notMem_spelling ?_ h
  rintro rfl
  exact s.property hc

variable {lib : CLibrary}

/-- Appending text after text stores all of it, as long as memory lasts. -/
theorem stores_appendAll {pieces : UInt8 → CString} {cs : Text} {s : VariantString}
    {total : CString} (hs : Stores s t)
    (htotal : total.val = t.val ++ cs.flatMap fun c => (pieces c).val)
    (hmemory : (total.val.length + 1) * 3 < sizeModulus) :
    Stores (cs.foldl (fun result c => tweakStringAppend lib result (pieces c)) s) total := by
  induction cs generalizing s t with
  | nil =>
    rw [List.flatMap_nil, List.append_nil] at htotal
    rwa [show total = t from Subtype.ext htotal]
  | cons c cs ih =>
    rw [List.flatMap_cons, ← List.append_assoc] at htotal
    refine ih (stores_append hs ?_) htotal
    intro _
    have hlength := congrArg List.length htotal
    rw [List.length_append, List.length_append] at hlength
    rw [hs.length]
    omega

private theorem stores_jsonEscapeString {arg : VariantString} {s : CString} (harg : Stores arg s)
    (hmemory : ((escaped s.val).length + 1) * 3 < sizeModulus) :
    Stores (jsonEscapeString lib arg) ⟨escaped s.val, zero_notMem_escaped s⟩ := by
  rw [jsonEscapeString, contents_of_stores harg]
  refine stores_appendAll Stores.empty ?_ hmemory
  show (s.val.map escapeItem).flatMap Item.spelling = s.val.flatMap fun c => (escapeChar lib c).val
  rw [List.flatMap_map]
  refine List.flatMap_congr fun c hc => (escapeChar_val lib ?_).symm
  rintro rfl
  exact s.property hc

theorem zero_notMem_stringFormat (s : CString) : (0 : UInt8) ∉ stringFormat (escaped s.val) := by
  rw [stringFormat, List.mem_append, List.mem_append]
  rintro (h | h | h)
  · exact absurd h (by decide)
  · exact zero_notMem_escaped s h
  · exact absurd h (by decide)

/-- The string is escaped, then formatted. -/
theorem stringToJson_eq {arg : VariantString} {s : CString} (harg : Stores arg s)
    (hmemory : ((escaped s.val).length + 1) * 3 < sizeModulus) :
    stringToJson lib arg = tweakStringFormat lib .empty
      ⟨stringFormat (escaped s.val), zero_notMem_stringFormat s⟩ := by
  rw [stringToJson, contents_of_stores (stores_jsonEscapeString harg hmemory)]
  congr 1
  exact Subtype.ext (cString_val (zero_notMem_stringFormat s))

/-! ## Reading it back -/

section Readable

variable {platform : Platform} {s : Text}

/-- The object with the string. -/
def stringObject (s : Text) : Value :=
  .node .object (.cons (some ((text "string").map .plain)) (.leaf (.string (s.map escapeItem))) .nil)

theorem valid_escapeItems (hs : (0 : UInt8) ∉ s) : ∀ item ∈ s.map escapeItem, item.Valid := by
  intro item hitem
  obtain ⟨c, hc, rfl⟩ := List.mem_map.mp hitem
  refine (escapeItem_spec ?_).1
  rintro rfl
  exact hs hc

private theorem spells_stringFormat (hs : (0 : UInt8) ∉ s) :
    Spells (stringFormat (escaped s)) (stringObject s) := by
  have htext : stringFormat (escaped s) = text "\x7b\"string\":" ++
      (ascii ' ' :: (quoted (s.map escapeItem) ++ text "\x7d")) := by
    simp only [stringFormat, escaped, quoted, List.cons_append, List.append_assoc]
    rfl
  have hname : ∀ item ∈ (text "string").map Item.plain, item.Valid := by decide
  have hvalue : Spaced [.leaf (.string (s.map escapeItem)), .closing .object]
      (quoted (s.map escapeItem) ++ text "\x7d") :=
    .token (.leaf (.string (s.map escapeItem))) (valid_escapeItems hs) trivial <|
    .token (.closing .object) trivial trivial <| .nil rfl
  rw [htext]
  exact .token (.opening .object) trivial trivial <|
    .token (.leaf (.string ((text "string").map .plain))) hname trivial <|
    .token .colon trivial trivial <| hvalue.space rfl

private theorem unescape_escapeItems (hs : (0 : UInt8) ∉ s) : unescape (s.map escapeItem) = s := by
  have hspec : ∀ c ∈ s, c ≠ 0 := by
    rintro _ hc rfl
    exact hs hc
  have hhigh : ∀ item ∈ s.map escapeItem, item.isHigh = false := by
    intro item hitem
    obtain ⟨c, hc, rfl⟩ := List.mem_map.mp hitem
    exact (escapeItem_spec (hspec c hc)).2.2.1
  rw [unescape_of_not_high hhigh, List.flatMap_map,
    List.flatMap_congr fun c hc => (escapeItem_spec (hspec c hc)).2.1]
  exact List.flatMap_singleton' s

/-- The parser does not take an escaped text to be at its end. -/
theorem reads_escaped (hs : (0 : UInt8) ∉ s) (hascii : platform.signed → ∀ c ∈ s, c < 128) :
    ∀ d ∈ escaped s, platform.Reads d := by
  intro d hd
  obtain ⟨item, hitem, hd⟩ := List.mem_flatMap.mp hd
  obtain ⟨c, hc, rfl⟩ := List.mem_map.mp hitem
  rcases mem_spelling_escapeItem hd with rfl | h
  · refine ⟨?_, fun hsigned => hascii hsigned d hc⟩
    rintro rfl
    exact hs hc
  · exact reads_of_lt h

/-- If no character counts as negative, the object is read. -/
theorem tweakJsonParse_stringFormat (hs : (0 : UInt8) ∉ s)
    (hascii : platform.signed → ∀ c ∈ s, c < 128) :
    tweakJsonParse platform (stringFormat (escaped s)) =
      some (.object [(text "string", .string s)]) := by
  have hname : ∀ d ∈ ((text "string").map Item.plain).flatMap Item.spelling, d ≠ 0 ∧ d < 128 := by
    decide
  have hreads : ∀ c ∈ stringFormat (escaped s), platform.Reads c := by
    refine Spaced.reads (spells_stringFormat hs) fun items hitems => ?_
    have hitems : items = (text "string").map .plain ∨ items = s.map escapeItem := by
      simpa [stringObject, Value.tokens, Entries.tokens, labelTokens] using hitems
    rcases hitems with rfl | rfl
    · exact fun d hd => reads_of_lt (hname d hd)
    · exact reads_escaped hs hascii
  refine (tweakJsonParse_eq_some_iff hreads).mpr ⟨_, spells_stringFormat hs, ?_, ?_, ?_, ?_⟩
  · exact ⟨fun _ => rfl, trivial, trivial⟩
  · exact ⟨by rintro ⟨⟩, rfl, trivial⟩
  · exact (by decide : 1 < 64)
  · simp only [stringObject, Value.toNode, Entries.addTo, Kind.type, createNewNode, Leaf.type,
      Leaf.data, unescape_escapeItems hs, labelName]
    rfl

variable {c : UInt8}

/-- A prefix of characters that can be read, up to one that cannot. -/
theorem exists_first_negative (hc : c ∈ s) (hneg : 128 ≤ c) :
    ∃ s₁ d s₂, s = s₁ ++ d :: s₂ ∧ (∀ e ∈ s₁, e < 128) ∧ 128 ≤ d := by
  induction s with
  | nil => cases hc
  | cons e s ih =>
    by_cases he : e < 128
    · have hc' : c ∈ s := by
        rcases List.mem_cons.mp hc with rfl | hc'
        · exact absurd hneg (UInt8.not_le.mpr he)
        · exact hc'
      obtain ⟨s₁, d, s₂, rfl, hs₁, hd⟩ := ih hc'
      exact ⟨e :: s₁, d, s₂, rfl, List.forall_mem_cons.mpr ⟨he, hs₁⟩, hd⟩
    · exact ⟨[], e, s, rfl, by simp, UInt8.not_lt.mp he⟩

private theorem escapeItem_of_negative (h : 128 ≤ c) : escapeItem c = .plain c := by
  have hall : ∀ d ∈ controls ++ [ascii '"', ascii '\\'], ¬ 128 ≤ d := by decide
  rcases escapeItem_cases c with hc | rfl | rfl | ⟨hc, -⟩
  · exact absurd h (hall c (List.mem_append_left _ hc))
  · exact absurd h (by decide)
  · exact absurd h (by decide)
  · exact hc

/-- A negative character is taken for a control character. -/
theorem feed_negative {address : Nat → Text} {parser : Parser} {str : Text} (hc : 128 ≤ c) :
    Parser.feed ⟨true, address⟩ (parser.scanning .plain str) c = none := by
  have hcontrol : Platform.getnext ⟨true, address⟩ c < 0x20 := by
    have hle := UInt8.le_iff_toNat_le.mp hc
    have hlt := c.toNat_lt
    have hzero : c ≠ 0 := by
      rintro rfl
      exact absurd hc (by decide)
    rw [Platform.getnext, if_neg hzero, if_pos ⟨rfl, hle⟩]
    omega
  simp only [Parser.feed, scanString, chr, if_pos hcontrol, Parser.scanned]

/-- The parser where the value of the member starts. -/
def afterName : Parser where
  mode := .main
  parents := [⟨.object, []⟩]
  name := text "string"
  iskey := false
  expect := .value
  context := ⟨some (.object []), 1⟩

/-- With signed characters, one that counts as negative makes the text unreadable. -/
theorem tweakJsonParse_stringFormat_negative (hs : (0 : UInt8) ∉ s) (hsigned : platform.signed)
    (hc : c ∈ s) (hneg : 128 ≤ c) : tweakJsonParse platform (stringFormat (escaped s)) = none := by
  obtain ⟨signed, address⟩ := platform
  obtain rfl : signed = true := hsigned
  obtain ⟨s₁, d, s₂, rfl, hs₁, hd⟩ := exists_first_negative hc hneg
  have hzero : (0 : UInt8) ∉ s₁ := fun h => hs (List.mem_append_left _ h)
  have htext : stringFormat (escaped (s₁ ++ d :: s₂)) = text "\x7b\"string\": \"" ++
      ((s₁.map escapeItem).flatMap Item.spelling ++ d :: (escaped s₂ ++ text "\"\x7d")) := by
    simp [stringFormat, escaped, escapeItem_of_negative hd, Item.spelling]
  have hname : run (Parser.feed ⟨true, address⟩) .init (text "\x7b\"string\": \"") =
      some (afterName.scanning .plain []) := rfl
  have hhigh : ∀ item ∈ s₁.map escapeItem, item.isHigh = false := by
    intro item hitem
    obtain ⟨e, he, rfl⟩ := List.mem_map.mp hitem
    refine (escapeItem_spec ?_).2.2.1
    rintro rfl
    exact hzero he
  have hparse : parsejson ⟨true, address⟩ (stringFormat (escaped (s₁ ++ d :: s₂))) = none := by
    show Parser.outcome ⟨true, address⟩ .init (stringFormat (escaped (s₁ ++ d :: s₂))) = none
    rw [htext, Parser.outcome_append_of hname, Parser.outcome_items_append (valid_escapeItems hzero)
      (reads_escaped hzero fun _ => hs₁) hhigh, Parser.outcome_cons, feed_negative hd]
    rfl
  rw [tweakJsonParse, hparse]
  rfl

end Readable

/-- The JSON text is read back as an object whose member `string` is the string. -/
def ReadsBack (platform : Platform) (json : VariantString) (s : Text) : Prop :=
  ∃ t, tweakVariantStringCStr json = some t ∧
    tweakJsonGetType (tweakJsonParse platform t.val) = typeObject ∧
    tweakJsonGetObjectField (tweakJsonParse platform t.val) (text "string") typeAny =
      some (.string s)

private theorem length_escaped_le {s : Text} (hs : (0 : UInt8) ∉ s) :
    (escaped s).length ≤ 6 * s.length := by
  induction s with
  | nil => simp [escaped]
  | cons c s ih =>
    rw [List.mem_cons, not_or] at hs
    have hrest := ih hs.2
    have hitem := (escapeItem_spec (Ne.symm hs.1)).2.2.2
    rw [escaped] at hrest ⊢
    rw [List.map_cons, List.flatMap_cons, List.length_append, List.length_cons]
    omega

/-- The text of a format that failed is short. -/
theorem length_of_format_failed {text : CString} (hlong : intMax ≤ text.val.length)
    (h : tweakVariantStringCStr (tweakStringFormat lib .empty text) = some t) :
    t.val.length < inlineStringSize := by
  rw [tweakStringFormat, if_pos hlong] at h
  obtain ⟨rest, hrest⟩ := eq_append_of_cText (h : cText lib.failed.val = some t)
  have hlength := congrArg List.length hrest
  rw [lib.failed.property, List.length_append, List.length_cons] at hlength
  omega

private theorem not_readsBack_failed {platform : Platform} {json : CString} {s : Text}
    (hlong : intMax ≤ json.val.length) (hs : 8 * inlineStringSize < s.length) :
    ¬ ReadsBack platform (tweakStringFormat lib .empty json) s := by
  rintro ⟨t, ht, htype, hfield⟩
  have hshort := length_of_format_failed hlong ht
  cases hparse : tweakJsonParse platform t.val with
  | none =>
    rw [hparse] at hfield
    cases hfield
  | some document =>
    rw [hparse] at hfield
    cases document with
    | object fields =>
      obtain ⟨node, hlookup, hmasked⟩ := Option.bind_eq_some_iff.mp hfield
      obtain rfl : node = .string s := by
        rw [masked] at hmasked
        split at hmasked
        · exact Option.some.inj hmasked
        · cases hmasked
      obtain ⟨before, after, rfl, -⟩ := List.lookup_eq_some_iff.mp hlookup
      have hle := length_member_le hparse (List.mem_append_right _ List.mem_cons_self)
      omega
    | null => cases hfield
    | bool data => cases hfield
    | number data => cases hfield
    | string data => cases hfield
    | array items => cases hfield

section Format

variable {platform : Platform} {lib : CLibrary} {s : CString}

theorem cStr_format (lib : CLibrary) (hlength : (stringFormat (escaped s.val)).length < intMax) :
    tweakVariantStringCStr (tweakStringFormat lib .empty
        ⟨stringFormat (escaped s.val), zero_notMem_stringFormat s⟩) =
      some ⟨stringFormat (escaped s.val), zero_notMem_stringFormat s⟩ :=
  Stores.implements (stores_format _ hlength) |>.text

private theorem readsBack_format (hlength : (stringFormat (escaped s.val)).length < intMax)
    (hascii : platform.signed → ∀ c ∈ s.val, c < 128) :
    ReadsBack platform (tweakStringFormat lib .empty
      ⟨stringFormat (escaped s.val), zero_notMem_stringFormat s⟩) s.val := by
  refine ⟨_, cStr_format lib hlength, ?_⟩
  rw [tweakJsonParse_stringFormat s.property hascii]
  exact ⟨rfl, by rw [tweakJsonGetObjectField, List.lookup_cons_self, Option.bind_some,
    masked_typeAny]⟩

/-- A negative `char` ends the text for the parser. -/
theorem not_readsBack_negative (hlength : (stringFormat (escaped s.val)).length < intMax)
    (hsigned : platform.signed) {c : UInt8} (hc : c ∈ s.val) (hneg : 128 ≤ c) :
    ¬ ReadsBack platform (tweakStringFormat lib .empty
      ⟨stringFormat (escaped s.val), zero_notMem_stringFormat s⟩) s.val := by
  rintro ⟨t, ht, htype, -⟩
  obtain rfl := Option.some.inj ((cStr_format lib hlength).symm.trans ht)
  rw [tweakJsonParse_stringFormat_negative s.property hsigned hc hneg] at htype
  cases htype

private theorem not_readsBack_long (hlength : ¬ (stringFormat (escaped s.val)).length < intMax) :
    ¬ ReadsBack platform (tweakStringFormat lib .empty
      ⟨stringFormat (escaped s.val), zero_notMem_stringFormat s⟩) s.val := by
  refine not_readsBack_failed (Nat.not_lt.mp hlength) ?_
  have hle := length_escaped_le s.property
  have hformat : (stringFormat (escaped s.val)).length = (escaped s.val).length + 14 := by
    rw [stringFormat, List.length_append, List.length_append]
    show 12 + ((escaped s.val).length + 2) = _
    omega
  rw [hformat, intMax] at hlength
  rw [inlineStringSize]
  omega

end Format

/-- A string is read back from its JSON text if and only if none of its characters counts as
negative and the size of the text, with its terminator, is an `int`. -/
theorem tweakVariantToJson_reads_back (platform : Platform) (lib : CLibrary) (floats : FloatLibrary)
    {arg : VariantString} {s : CString} (harg : Stores arg s)
    (hmemory : ((escaped s.val).length + 1) * 3 < sizeModulus) :
    ReadsBack platform (tweakVariantToJson lib floats (.string arg)) s.val ↔
      (platform.signed → ∀ c ∈ s.val, c < 128) ∧ (stringFormat (escaped s.val)).length < intMax := by
  rw [tweakVariantToJson, stringToJson_eq harg hmemory]
  by_cases hlength : (stringFormat (escaped s.val)).length < intMax
  · by_cases hascii : platform.signed → ∀ c ∈ s.val, c < 128
    · exact iff_of_true (readsBack_format hlength hascii) ⟨hascii, hlength⟩
    · refine iff_of_false ?_ fun h => hascii h.1
      simp only [Classical.not_imp, not_forall, UInt8.not_lt] at hascii
      obtain ⟨hsigned, c, hc, hneg⟩ := hascii
      exact not_readsBack_negative hlength hsigned hc hneg
  · exact iff_of_false (not_readsBack_long hlength) fun h => hlength h.2

/-- The letter `é` in Latin-1 and a new line, with unsigned characters. -/
theorem tweakVariantToJson_reads_back_unsigned :
    ReadsBack ⟨false, fun _ => []⟩ (tweakVariantToJson Strings.zeroLibrary .unused
      (.string (tweakStringFormat Strings.zeroLibrary .empty (cString [0xE9, 10])))) [0xE9, 10] :=
  (tweakVariantToJson_reads_back _ _ _ (stores_format _ (by decide)) (by decide)).mpr
    ⟨by rintro ⟨⟩, by decide⟩

/-- The same letter with signed characters. -/
theorem not_readsBack_signed :
    ¬ ReadsBack ⟨true, fun _ => []⟩ (tweakVariantToJson Strings.zeroLibrary .unused
      (.string (tweakStringFormat Strings.zeroLibrary .empty (cString [0xE9])))) [0xE9] := by
  have hstores : Stores (tweakStringFormat Strings.zeroLibrary .empty (cString [0xE9])) (cString [0xE9]) :=
    stores_format _ (by decide)
  rw [tweakVariantToJson, stringToJson_eq hstores (by decide)]
  exact not_readsBack_negative (s := cString [0xE9]) (c := 0xE9) (by decide) rfl (by decide) (by decide)

end TweakTool.Common
