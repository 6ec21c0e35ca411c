import TweakTool.Json.Reading

/-! # The dialect

Which texts `tweak_json_parse` should accept, what its documents should show, and how far it does. -/

namespace TweakTool.Json

open TweakTool.Lib

variable {platform : Platform}

/-! ## Trees -/

/-- What the characters of a string stand for, where they need no code points. -/
def meaning (items : List Item) : Text := items.flatMap Item.meaning

mutual

/-- The node has the shape of the value. -/
def Value.Shows : Value → Node → Prop
  | .leaf .null, node => node = .null
  | .leaf (.bool value), node => node = .bool (boolSpelling value)
  | .leaf (.number spelling), node => node = .number spelling
  | .leaf (.string items), node => node = .string (meaning items)
  | .node .array entries, node => ∃ items, node = .array items ∧ entries.ShowsItems items
  | .node .object entries, node =>
    tweakJsonGetType (some node) = typeObject ∧ entries.ShowsFields node []

/-- The elements in order. -/
def Entries.ShowsItems : Entries → List Node → Prop
  | .nil, items => items = []
  | .cons _ value rest, items => ∃ item items', items = item :: items' ∧ value.Shows item ∧
    rest.ShowsItems items'

/-- Under the name of a member, the value of the first member with that name is found; and nothing
under another name, unless two members have the same one. -/
def Entries.ShowsFields (node : Node) (seen : List Text) : Entries → Prop
  -- a second member with a name gets one that is made up, and is found under that
  | .nil => seen.Nodup → ∀ name ∉ seen, tweakJsonGetObjectField (some node) name typeAny = none
  | .cons label value rest =>
    let name := meaning (label.getD [])
    (name ∉ seen → ∃ field, tweakJsonGetObjectField (some node) name typeAny = some field ∧
      value.Shows field) ∧ rest.ShowsFields node (name :: seen)

end

/-- There are no `\u` escapes in the text. -/
def NoUnicode (tokens : List Token) : Prop :=
  ∀ items, Token.leaf (.string items) ∈ tokens → ∀ item ∈ items, item.isUnicode = false

def Entries.names : Entries → List Text
  | .nil => []
  | .cons label _ rest => labelName label :: rest.names

/-- The names that are made up for members whose own name is in use. -/
def Entries.madeUp (platform : Platform) (created : Nat) (seen : List Text) : Entries → List Text
  | .nil => []
  | .cons label value rest =>
    let rest' := rest.madeUp platform (created + value.size) (labelName label :: seen)
    if labelName label ∈ seen then duplicateName platform created :: rest' else rest'

mutual

/-- No member of an object has a name that is made up for another one. -/
def Value.Genuine (platform : Platform) (created : Nat) : Value → Prop
  | .leaf _ => True
  | .node kind entries => entries.Genuine platform (created + 1) ∧
    (kind = .object → ∀ name ∈ entries.names, name ∉ entries.madeUp platform (created + 1) [])

def Entries.Genuine (platform : Platform) (created : Nat) : Entries → Prop
  | .nil => True
  | .cons _ value rest => value.Genuine platform created ∧
    rest.Genuine platform (created + value.size)

end

variable {tokens tokens' : List Token}

theorem NoUnicode.left (h : NoUnicode (tokens ++ tokens')) :
    NoUnicode tokens := fun items hitems => h items (List.mem_append_left _ hitems)

theorem NoUnicode.right (h : NoUnicode (tokens ++ tokens')) :
    NoUnicode tokens' := fun items hitems => h items (List.mem_append_right _ hitems)

theorem labelName_eq_meaning {label : Option (List Item)} (h : NoUnicode (labelTokens label)) :
    labelName label = meaning (label.getD []) := by
  cases label with
  | none => rfl
  | some items => exact unescape_of_not_unicode (h items (by simp [labelTokens]))

private theorem NoUnicode.tail {token : Token} (h : NoUnicode (token :: tokens)) :
    NoUnicode tokens := fun items hitems => h items (List.mem_cons_of_mem _ hitems)

/-- The names that are in use: those of the members so far, and some that were made up if these were
not distinct. -/
structure Uses (made : List Text) (fields : List (Text × Node)) (seen : List Text) : Prop where
  used : ∀ name ∉ made, (fields.any (·.1 = name) ↔ name ∈ seen)
  distinct : seen.Nodup → ∀ name, fields.any (·.1 = name) → name ∈ seen

section Fields

variable {made : List Text} {fields : List (Text × Node)} {seen : List Text} {name : Text}

private theorem Uses.add (h : Uses made fields seen) (hname : name ∉ made) {duplicate : Text}
    (hduplicate : name ∈ seen → duplicate ∈ made) (child : Node) :
    Uses made (fields ++ [(if fields.any (·.1 = name) then duplicate else name, child)])
      (name :: seen) := by
  constructor
  · intro other hother
    rw [List.any_append, Bool.or_eq_true, h.used other hother, List.mem_cons, List.any_cons,
      List.any_nil, Bool.or_false, decide_eq_true_eq]
    by_cases hused : fields.any (·.1 = name)
    · have hseen := (h.used name hname).mp hused
      rw [if_pos hused]
      constructor
      · rintro (hother' | rfl)
        · exact Or.inr hother'
        · exact absurd (hduplicate hseen) hother
      · rintro (rfl | hother')
        · exact Or.inl hseen
        · exact Or.inl hother'
    · rw [if_neg hused, eq_comm, or_comm]
  · intro hnodup other hother
    obtain ⟨hfresh, hseen⟩ := List.nodup_cons.mp hnodup
    have hunused : ¬ fields.any (·.1 = name) := fun hused => hfresh (h.distinct hseen name hused)
    rw [if_neg hunused, List.any_append, Bool.or_eq_true, List.any_cons, List.any_nil, Bool.or_false,
      decide_eq_true_eq] at hother
    rcases hother with hother | rfl
    · exact List.mem_cons_of_mem _ (h.distinct hseen other hother)
    · exact List.mem_cons_self

/-- A name that is not in use is not found. -/
theorem lookup_eq_none (h : ¬ fields.any (·.1 = name)) : fields.lookup name = none := by
  rw [List.lookup_eq_none_iff]
  intro field hfield
  simp only [List.any_eq_true, decide_eq_true_eq, not_exists, not_and] at h
  exact bne_iff_ne.mpr fun heq => h field hfield heq.symm

/-- A name that is not in use is found again. -/
theorem Uses.lookup_add (h : Uses made fields seen) (hname : name ∉ made) (hseen : name ∉ seen)
    (duplicate : Text) (child : Node) (more : List (Text × Node)) :
    (fields ++ (if fields.any (·.1 = name) then duplicate else name, child) :: more).lookup name =
      some child := by
  have hfresh : ¬ fields.any (·.1 = name) := fun hused => hseen ((h.used name hname).mp hused)
  rw [if_neg hfresh, List.lookup_append, lookup_eq_none hfresh, Option.none_or, List.lookup_cons_self]

end Fields

mutual

private theorem Value.shows_toNode : ∀ (value : Value) (created : Nat), NoUnicode value.tokens →
    value.Genuine platform created → value.Shows (value.toNode platform created)
  | .leaf .null, _, _, _ => rfl
  | .leaf (.bool _), _, _, _ => rfl
  | .leaf (.number _), _, _, _ => rfl
  | .leaf (.string items), _, hplain, _ => by
    have hitems := unescape_of_not_unicode (hplain items (by simp [Value.tokens]))
    simp only [Value.Shows, Value.toNode, createNewNode, Leaf.type, Leaf.data, hitems, meaning]
  | .node .array entries, created, hplain, hgenuine => by
    rw [Value.tokens] at hplain
    obtain ⟨items, hnode, hitems⟩ :=
      entries.showsItems_addTo [] [] (created + 1) hplain.tail.left hgenuine.1
    exact ⟨items, hnode, hitems⟩
  | .node .object entries, created, hplain, hgenuine => by
    rw [Value.tokens] at hplain
    obtain ⟨fields, hnode, hfields⟩ := entries.showsFields_addTo [] [] [] (created + 1)
      hplain.tail.left hgenuine.1 (fun _ h => h) (hgenuine.2 rfl) ⟨by simp, by simp⟩
    rw [Value.Shows, Value.toNode, Kind.type, createNewNode, hnode]
    exact ⟨rfl, hfields⟩

/-- The elements of an array are shown in their order. -/
theorem Entries.showsItems_addTo (before : List Token) : ∀ (entries : Entries) (items : List Node)
    (created : Nat), NoUnicode (entries.tokens before) →
    entries.Genuine platform created →
    ∃ more, entries.addTo platform created (.array items) = .array (items ++ more) ∧
      entries.ShowsItems more
  | .nil, items, created, _, _ => ⟨[], by rw [Entries.addTo, List.append_nil], rfl⟩
  | .cons label value rest, items, created, hplain, hgenuine => by
    rw [Entries.tokens] at hplain
    obtain ⟨more, hnode, hmore⟩ := rest.showsItems_addTo [.comma]
      (items ++ [value.toNode platform created]) (created + value.size)
      hplain.right.right.right hgenuine.2
    refine ⟨value.toNode platform created :: more, ?_, _, more, rfl,
      value.shows_toNode created hplain.right.right.left hgenuine.1, hmore⟩
    rw [Entries.addTo, addElement, hnode, List.append_assoc, List.singleton_append]

/-- The members of an object are shown under their names. -/
theorem Entries.showsFields_addTo {made : List Text} (before : List Token) :
    ∀ (entries : Entries) (fields : List (Text × Node)) (seen : List Text) (created : Nat),
    NoUnicode (entries.tokens before) → entries.Genuine platform created →
    (∀ name ∈ entries.madeUp platform created seen, name ∈ made) →
    (∀ name ∈ entries.names, name ∉ made) → Uses made fields seen →
    ∃ more, entries.addTo platform created (.object fields) = .object (fields ++ more) ∧
      entries.ShowsFields (.object (fields ++ more)) seen
  | .nil, fields, seen, created, _, _, _, _, huses => by
    refine ⟨[], by rw [Entries.addTo, List.append_nil], fun hnodup name hname => ?_⟩
    have hunused : ¬ fields.any (·.1 = name) := fun hused => hname (huses.distinct hnodup name hused)
    rw [tweakJsonGetObjectField, List.append_nil, lookup_eq_none hunused, Option.bind_none]
  | .cons label value rest, fields, seen, created, hplain, hgenuine, hmade, hnames, huses => by
    rw [Entries.tokens] at hplain
    rw [Entries.madeUp] at hmade
    have hname := labelName_eq_meaning hplain.right.left
    have hfree : labelName label ∉ made := hnames _ List.mem_cons_self
    have hduplicate : labelName label ∈ seen → duplicateName platform created ∈ made := by
      intro hseen
      rw [if_pos hseen] at hmade
      exact hmade _ List.mem_cons_self
    have hmade' : ∀ name ∈ rest.madeUp platform (created + value.size) (labelName label :: seen),
        name ∈ made := by
      intro name hrest
      split at hmade
      · exact hmade name (List.mem_cons_of_mem _ hrest)
      · exact hmade name hrest
    obtain ⟨more, hnode, hmore⟩ := rest.showsFields_addTo [.comma] _ _ (created + value.size)
      hplain.right.right.right hgenuine.2 hmade' (fun name h => hnames name (List.mem_cons_of_mem _ h))
      (huses.add hfree hduplicate (value.toNode platform created))
    rw [List.append_assoc, List.singleton_append] at hnode hmore
    refine ⟨_, by rw [Entries.addTo, addElement, hnode], ?_⟩
    rw [Entries.ShowsFields, ← hname]
    refine ⟨fun hseen => ⟨value.toNode platform created, ?_,
      value.shows_toNode created hplain.right.right.left hgenuine.1⟩, hmore⟩
    rw [tweakJsonGetObjectField, huses.lookup_add hfree hseen, Option.bind_some, masked_typeAny]

end

/-! ## Which texts are accepted -/

/-- The text is one value of RFC 8259, apart from the form of numbers, that is not nested too deep. -/
structure Documented (t : Text) (value : Value) : Prop where
  spells : Spells t value
  rfc : value.Rfc
  depth : value.depth < 64

/-- The parser accepts the text exactly if it should, and then returns the right tree. -/
structure Conforms (platform : Platform) (t : Text) : Prop where
  accepts : (∃ document, tweakJsonParse platform t = some document) ↔ ∃ value, Documented t value
  shows : ∀ {value document}, Documented t value → NoUnicode value.tokens →
    tweakJsonParse platform t = some document → value.Shows document

/-- If no element of an array has a label, then no string among them follows an empty object with no
colon in between. If there are labels, then this does not account for them. -/
def KeyedAsRfc (t : Text) : Prop :=
  ∀ value, Spells t value → value.Formed → value.depth < 64 → (value.Keyed false ↔ value.Rfc)

/-- No member of an object has a name that is made up for another one. -/
def NamesGenuine (platform : Platform) (t : Text) : Prop :=
  ∀ value, Spells t value → value.Genuine platform 0

def Ascii (t : Text) : Prop := ∀ c ∈ t, c ≠ 0 ∧ c < 128

instance (t : Text) : Decidable (Ascii t) := inferInstanceAs (Decidable (∀ c ∈ t, _))

variable {t : Text}

private theorem Ascii.reads (h : Ascii t) : ∀ c ∈ t, platform.Reads c :=
  fun c hc => reads_of_lt (h c hc)

mutual

variable {ok ok' : Kind → Option (List Item) → Prop}

private theorem Value.Labels.imp (himp : ∀ kind label, ok kind label → ok' kind label) :
    ∀ {value : Value}, value.Labels ok → value.Labels ok'
  | .leaf _, _ => trivial
  | .node _ _, h => Entries.Labels.imp himp h

theorem Entries.Labels.imp {kind : Kind} (himp : ∀ kind label, ok kind label → ok' kind label) :
    ∀ {entries : Entries}, entries.Labels ok kind → entries.Labels ok' kind
  | .nil, _ => trivial
  | .cons _ _ _, h => ⟨himp _ _ h.1, Value.Labels.imp himp h.2.1, Entries.Labels.imp himp h.2.2⟩

end

variable {value : Value}

private theorem Value.Rfc.formed (h : value.Rfc) : value.Formed :=
  Value.Labels.imp (fun _ _ h => h.mpr) h

/-- The parser accepts exactly the texts it should, if and only if no string after an empty object
gets in the way. -/
theorem accepts_iff_keyedAsRfc (hascii : Ascii t) :
    ((∃ document, tweakJsonParse platform t = some document) ↔ ∃ value, Documented t value) ↔
      KeyedAsRfc t := by
  constructor
  · intro h value hspells hformed hdepth
    constructor
    · intro hkeyed
      obtain ⟨value', hvalue'⟩ := h.mp ⟨_, (tweakJsonParse_eq_some_iff hascii.reads).mpr
        ⟨value, hspells, hformed, hkeyed, hdepth, rfl⟩⟩
      rw [hspells.unique hvalue'.spells]
      exact hvalue'.rfc
    · intro hrfc
      obtain ⟨document, hparse⟩ := h.mpr ⟨value, hspells, hrfc, hdepth⟩
      obtain ⟨value', hspells', -, hkeyed', -, -⟩ := (tweakJsonParse_eq_some_iff hascii.reads).mp hparse
      rw [hspells.unique hspells']
      exact hkeyed'
  · intro h
    constructor
    · rintro ⟨document, hparse⟩
      obtain ⟨value, hspells, hformed, hkeyed, hdepth, -⟩ :=
        (tweakJsonParse_eq_some_iff hascii.reads).mp hparse
      exact ⟨value, hspells, (h value hspells hformed hdepth).mp hkeyed, hdepth⟩
    · rintro ⟨value, hspells, hrfc, hdepth⟩
      have hkeyed := (h value hspells hrfc.formed hdepth).mpr hrfc
      exact ⟨_, (tweakJsonParse_eq_some_iff hascii.reads).mpr
        ⟨value, hspells, hrfc.formed, hkeyed, hdepth, rfl⟩⟩

/-- The tree shows the value that the text spells. -/
theorem shows_of_genuine (hascii : Ascii t) (hgenuine : NamesGenuine platform t) {document : Node}
    (hvalue : Documented t value) (hplain : NoUnicode value.tokens)
    (hparse : tweakJsonParse platform t = some document) : value.Shows document := by
  obtain ⟨value', hspells, -, -, -, rfl⟩ := (tweakJsonParse_eq_some_iff hascii.reads).mp hparse
  obtain rfl := hvalue.spells.unique hspells
  exact value.shows_toNode 0 hplain (hgenuine value hspells)

/-- For texts whose names are genuine, the parser does what it should exactly if no string after an
empty object gets in the way. -/
theorem tweakJsonParse_conforms {t : Text} (hascii : Ascii t) :
    (Conforms platform t → KeyedAsRfc t) ∧
      (KeyedAsRfc t ∧ NamesGenuine platform t → Conforms platform t) := by
  constructor
  · intro h
    exact (accepts_iff_keyedAsRfc hascii).mp h.accepts
  · rintro ⟨hkeyed, hgenuine⟩
    exact ⟨(accepts_iff_keyedAsRfc hascii).mpr hkeyed, shows_of_genuine hascii hgenuine⟩

/-- An array of an empty object and another element. -/
def afterEmptyObject (l : Leaf) : Value :=
  .node .array (.cons none (.node .object .nil) (.cons none (.leaf l) .nil))

theorem documented_afterEmptyObject {l : Leaf} (hvalid : l.Valid)
    (hends : Token.Ends (.leaf l) (text "]")) :
    Documented (text "[\x7b\x7d," ++ (l.spelling ++ text "]")) (afterEmptyObject l) where
  spells :=
    .token (.opening .array) trivial trivial <| .token (.opening .object) trivial trivial <|
    .token (.closing .object) trivial trivial <| .token .comma trivial trivial <|
    .token (.leaf l) hvalid hends <| .token (.closing .array) trivial trivial <| .nil rfl
  rfc := ⟨by decide, trivial, by decide, trivial, trivial⟩
  depth := (by decide : 2 < 64)

/-- `[{},true]`. -/
theorem tweakJsonParse_conforms_true : Conforms ⟨true, fun _ => []⟩ (text "[\x7b\x7d,true]") := by
  have hdocumented : Documented (text "[\x7b\x7d,true]") (afterEmptyObject (.bool true)) :=
    @documented_afterEmptyObject (.bool true) trivial trivial
  refine (tweakJsonParse_conforms (by decide)).2 ⟨?_, ?_⟩
  · intro value hspells hformed hdepth
    rw [← hdocumented.spells.unique hspells]
    refine iff_of_true ?_ hdocumented.rfc
    exact ⟨by decide, trivial, by decide, trivial, trivial⟩
  · intro value hspells
    rw [← hdocumented.spells.unique hspells]
    exact ⟨⟨⟨trivial, by rintro -; exact List.forall_mem_nil _⟩, trivial, trivial⟩, by rintro ⟨⟩⟩

/-- `[{},"a"]` is not accepted. -/
theorem tweakJsonParse_string_after_empty_object :
    ¬ Conforms ⟨true, fun _ => []⟩ (text "[\x7b\x7d,\"a\"]") := by
  intro h
  have hdocumented : Documented (text "[\x7b\x7d,\"a\"]")
      (afterEmptyObject (.string [.plain (ascii 'a')])) :=
    @documented_afterEmptyObject (.string [.plain (ascii 'a')]) (by simp [Leaf.Valid, Item.Valid])
      trivial
  obtain ⟨document, hparse⟩ := h.accepts.mpr ⟨_, hdocumented⟩
  have hnone : tweakJsonParse ⟨true, fun _ => []⟩ (text "[\x7b\x7d,\"a\"]") = none := by rfl
  rw [hnone] at hparse
  cases hparse

end TweakTool.Json
