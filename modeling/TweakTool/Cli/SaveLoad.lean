import TweakTool.Cli.Saving
import TweakTool.Json.Lengths

/-! # Saving and loading

A saved script is meant to bring all items back to the values they had. It is a text for a reader that
splits lines into tokens, drops comments and takes quotes and backslashes for its own, and `save` writes
uris and strings into it as they are. -/

namespace TweakTool.Cli

open TweakTool.Lib TweakTool.Common TweakTool.App
open TweakTool.Json (tweakJsonParse numberChars Leaf)

/-! ## The property -/

/-- `bool`, integers, vectors of integers and strings. The size of a vector is a `size_t`. -/
inductive Storable : Variant → Prop
  | bool (b : Bool) : Storable (.bool b)
  | num {t : NumType} (bits : BitVec t.width) : t.isInteger → Storable (.num t bits)
  | vector {t : NumType} (items : List (BitVec t.width)) : t.isInteger →
    (vectorBytes items).length < sizeModulus → Storable (.vector t (vectorBytes items))
  | string (s : Text) : Storable (.string s)

/-- A connected client with such items and default metadata. -/
structure Saved (env : Environment) (c : Client) : Prop where
  connected : c.connected = true
  bijective : c.modelImpl.Bijective
  storable : ∀ id item, c.find? id = some item → Storable item.currentValue
  currentMetadata : ∀ id item, c.find? id = some item →
    DefaultMetadata env item.currentValue item.meta
  defaultMetadata : ∀ id item, c.find? id = some item →
    DefaultMetadata env item.defaultValue item.meta ∧ item.defaultValue.bufferSize < sizeModulus
  strtod : env.floats.strtod [] = none -- there is no number in an empty text

def itemIds (c : Client) : List TweakId := c.modelImpl.model.entries.map Prod.fst

/-- A script is saved; and when it is loaded into a client with the same items, whatever values of the
same types and sizes they have, with no item selected, it executes what it should and all items have
the values of the save again. -/
def Restores (env : Environment) (outside : Outside) (c : Client)
    (Executes : List Executed → Prop) : Prop :=
  ∃ script, generateScript env c = some script ∧
    ∀ values start, Holds c values start →
      ∃ s log, runScript env outside ⟨start, tweakInvalidId, false⟩ script = some (s, log) ∧
        Executes log ∧ ∀ id item, c.find? id = some item →
          (s.client.find? id).map (·.currentValue) = some item.currentValue

def OneSetEach (c : Client) (log : List Executed) : Prop :=
  log.Perm ((itemIds c).map .set)

def Executed.item? : Executed → Option TweakId
  | .set id => some id
  | .other => none

/-- One successful `set` for each item, among other commands. -/
def OneSetEachAmong (c : Client) (log : List Executed) : Prop :=
  (log.filterMap Executed.item?).Perm (itemIds c)

/-! ## What is not changed on the way -/

/-- The lines of a text after the first one are empty or comments. -/
def Quiet (t : Text) : Prop := ∀ line ∈ moreLines newline t, Blank line

/-- Words, with a single space between one and the next. -/
def Worded (t : Text) : Prop := ∃ words, (∀ w ∈ words, Word w) ∧ t = mergeTokens words (text " ")

/-- The text of a value is read as it was written. -/
def ValueSurvives (env : Environment) : Variant → Prop
  | .string s => Worded s ∧ ascii '#' ∉ s ∧ newline ∉ s.dropLast ∧
    ∀ data, tweakJsonParse env.platform s ≠ some (.string data)
  | .vector _ bytes => bytes ≠ [] ∨ env.mallocZero = true
  | _ => True

structure Survives (env : Environment) (item : Item) : Prop where
  uri : Word item.uri ∧ ascii '#' ∉ item.uri ∧ item.uri.head? ≠ some (ascii '[')
  /-- A line break can only be guarded by a backslash, and ends the command. -/
  lineBreak : newline ∈ item.uri → item.uri = [backslash, newline] ∧ item.currentValue = .string []
  value : ValueSurvives env item.currentValue
  description : Quiet item.description
  metadata : Quiet item.meta
  defaultValue : Quiet (tweakVariantToString env.floats item.defaultValue)

/-! ## The texts of numbers -/

section Printed

variable {env : Environment}

def printedChars : Text := numberChars ++ text "[],"

/-- What the printing functions write is a word. -/
theorem word_of_printed {w : Text} (hne : w ≠ []) (h : ∀ c ∈ w, c ∈ printedChars) : Word w := by
  have hplain : ∀ c ∈ printedChars, c ∉ separators ∧ c ≠ backslash := by decide
  cases w with
  | nil => exact absurd rfl hne
  | cons c rest =>
    obtain ⟨hc, hrest⟩ := List.forall_mem_cons.mp h
    rw [Word, if_neg (hplain c hc).2]
    refine ⟨(hplain c hc).1, fun hmem => (hplain _ (hrest _ hmem)).2 rfl, ?_⟩
    intro d hd
    exact (hplain d (hrest d hd)).1

/-- A number is not empty. -/
theorem printed_scalarToString (floats : FloatLibrary) {t : NumType} (ht : t.isInteger)
    (bits : BitVec t.width) :
    scalarToString floats t bits ≠ [] ∧ ∀ c ∈ scalarToString floats t bits, c ∈ printedChars := by
  obtain ⟨⟨c, hc, -⟩, hall, -⟩ := valid_scalarToString floats ht bits
  refine ⟨?_, fun d hd => List.mem_append_left _ (hall d hd)⟩
  intro hnil
  rw [hnil] at hc
  cases hc

/-- The tokens of a printed array, of which the first begins with `opening`. -/
def arrayWords (opening : Text) : List Text → List Text
  | [] => [opening ++ text "]"]
  | [item] => [opening ++ item ++ text "]"]
  | item :: next :: items => (opening ++ item ++ text ",") :: arrayWords [] (next :: items)

private theorem mergeTokens_arrayWords (opening : Text) (items : List Text) :
    mergeTokens (arrayWords opening items) (text " ") =
      opening ++ (text ", ").intercalate items ++ text "]" := by
  induction items generalizing opening with
  | nil => simp [arrayWords, mergeTokens]
  | cons item items ih =>
    cases items with
    | nil => simp [arrayWords, mergeTokens]
    | cons next items =>
      have hne : arrayWords [] (next :: items) ≠ [] := by
        cases items <;> simp [arrayWords]
      have hih := ih []
      obtain ⟨w, ws, hws⟩ := List.exists_cons_of_ne_nil hne
      rw [arrayWords, mergeTokens, hws, List.intercalate_cons_cons, ← hws]
      rw [mergeTokens] at hih
      rw [hih, List.intercalate_cons_cons]
      simp

private theorem printed_arrayWords {opening : Text} {items : List Text}
    (hopening : ∀ c ∈ opening, c ∈ printedChars)
    (hitems : ∀ item ∈ items, ∀ c ∈ item, c ∈ printedChars) :
    ∀ w ∈ arrayWords opening items, w ≠ [] ∧ ∀ c ∈ w, c ∈ printedChars := by
  have hbracket : ∀ c ∈ text "]", c ∈ printedChars := by decide
  have hcomma : ∀ c ∈ text ",", c ∈ printedChars := by decide
  induction items generalizing opening with
  | nil =>
    simp only [arrayWords, List.forall_mem_singleton, List.forall_mem_append]
    exact ⟨by simp, hopening, hbracket⟩
  | cons item items ih =>
    obtain ⟨hitem, hitems⟩ := List.forall_mem_cons.mp hitems
    cases items with
    | nil =>
      simp only [arrayWords, List.forall_mem_singleton, List.forall_mem_append]
      exact ⟨by simp, ⟨hopening, hitem⟩, hbracket⟩
    | cons next items =>
      rw [arrayWords, List.forall_mem_cons, List.forall_mem_append, List.forall_mem_append]
      exact ⟨⟨by simp, ⟨hopening, hitem⟩, hcomma⟩, ih (by simp) hitems⟩

/-- Texts of values other than strings are words, and have neither comments nor line breaks. -/
theorem worded_toString {v : Variant} (hv : Storable v) (hstring : ∀ s, v ≠ .string s) :
    Worded (tweakVariantToString env.floats v) ∧
      ∀ c ∈ tweakVariantToString env.floats v, c ≠ ascii '#' ∧ c ≠ newline := by
  have hplain : ∀ c ∈ printedChars, c ≠ ascii '#' ∧ c ≠ newline := by decide
  cases hv with
  | bool b =>
    cases b
    · exact ⟨⟨[text "false"], by decide, rfl⟩, (by decide : ∀ c ∈ text "false", _)⟩
    · exact ⟨⟨[text "true"], by decide, rfl⟩, (by decide : ∀ c ∈ text "true", _)⟩
  | num bits ht =>
    obtain ⟨hne, hall⟩ := printed_scalarToString env.floats ht bits
    refine ⟨⟨[_], List.forall_mem_singleton.mpr (word_of_printed hne hall), ?_⟩,
      fun c hc => hplain c (hall c hc)⟩
    simp [mergeTokens, tweakVariantToString]
  | string s => exact absurd rfl (hstring s)
  | @vector t items ht hsize =>
    have hitems : ∀ item ∈ items.map (scalarToString env.floats t), ∀ c ∈ item, c ∈ printedChars := by
      intro item hitem
      obtain ⟨bits, -, rfl⟩ := List.mem_map.mp hitem
      exact (printed_scalarToString env.floats ht bits).2
    have hwords := printed_arrayWords (by decide : ∀ c ∈ text "[", c ∈ printedChars) hitems
    have htext : tweakVariantToString env.floats (.vector t (vectorBytes items)) =
        mergeTokens (arrayWords (text "[") (items.map (scalarToString env.floats t))) (text " ") := by
      rw [tweakVariantToString, vectorItems_vectorBytes, vectorToString_eq, mergeTokens_arrayWords]
    refine ⟨⟨_, fun w hw => word_of_printed (hwords w hw).1 (hwords w hw).2, htext⟩, ?_⟩
    intro c hc
    rw [htext] at hc
    rcases mem_mergeTokens hc with hc | ⟨w, hw, hc⟩
    · rw [List.mem_singleton.mp hc]
      decide
    · exact hplain c ((hwords w hw).2 c hc)

end Printed

/-! ## Commands that survive -/

section Surviving

variable {env : Environment} {item : Item}

theorem not_hash_iff {t : Text} : t.takeWhile (· ≠ ascii '#') = t ↔ ascii '#' ∉ t := by
  rw [List.takeWhile_eq_self_iff]
  constructor
  · intro h hmem
    simpa using h _ hmem
  · intro h c hc
    rw [decide_eq_true_eq]
    intro heq
    exact h (heq ▸ hc)

/-- A line break can only end a text that is read in one line. -/
theorem setArguments_eq {uri value : Text} (huri : newline ∉ uri) (hvalue : newline ∉ value.dropLast) :
    (∃ tail, (∀ c ∈ tail, c = newline) ∧
      setArguments uri value = uri ++ (text " " ++ (value ++ tail))) ∧
    Quiet (uri ++ text " " ++ value) := by
  have hspace : newline ∉ text " " := by decide
  by_cases hmem : newline ∈ value
  · have hvalue' : value = value.dropLast ++ [newline] := by
      obtain ⟨c, hc⟩ : ∃ c, value = value.dropLast ++ [c] :=
        ⟨_, (List.dropLast_append_getLast (List.ne_nil_of_mem hmem)).symm⟩
      rw [hc, List.mem_append, List.mem_singleton] at hmem
      rcases hmem with hmem | rfl
      · exact absurd hmem hvalue
      · exact hc
    have hline : newline ∉ uri ++ text " " ++ value.dropLast := by
      simp only [List.mem_append, not_or]
      exact ⟨⟨huri, hspace⟩, hvalue⟩
    have htext : uri ++ text " " ++ value = (uri ++ text " " ++ value.dropLast) ++ newline :: [] := by
      rw [List.append_assoc (uri ++ text " "), ← hvalue']
    constructor
    · refine ⟨[], by simp, ?_⟩
      rw [setArguments, htext, firstLine_line hline, List.append_nil, List.append_assoc,
        List.append_assoc, ← hvalue']
    · rw [Quiet, htext, moreLines_line hline]
      decide
  · have hline : newline ∉ uri ++ text " " ++ value := by
      simp only [List.mem_append, not_or]
      exact ⟨⟨huri, hspace⟩, hmem⟩
    constructor
    · refine ⟨[newline], by simp, ?_⟩
      rw [setArguments, firstLine_of_not_mem hline, List.append_assoc, List.append_assoc]
    · rw [Quiet, moreLines_of_not_mem hline]
      simp

/-- The text has words only, no `#`, and a line break at most at its end. -/
theorem text_survives (hstorable : Storable item.currentValue)
    (h : ValueSurvives env item.currentValue) :
    Worded (tweakVariantToString env.floats item.currentValue) ∧
      ascii '#' ∉ tweakVariantToString env.floats item.currentValue ∧
      newline ∉ (tweakVariantToString env.floats item.currentValue).dropLast := by
  cases hvalue : item.currentValue with
  | string s =>
    rw [hvalue] at h
    exact ⟨h.1, h.2.1, h.2.2.1⟩
  | null | bool b | num t bits | vector t bytes =>
    obtain ⟨hworded, hplain⟩ := @worded_toString env _ hstorable (by simp [hvalue])
    rw [hvalue] at hworded hplain
    exact ⟨hworded, fun hmem => (hplain _ hmem).1 rfl,
      fun hmem => (hplain _ (List.dropLast_subset _ hmem)).2 rfl⟩

/-- A command of words has these words as its tokens. -/
theorem tokens_of_worded (huri : Word item.uri) (hhash : ascii '#' ∉ item.uri)
    (hbreak : newline ∉ item.uri)
    (htext : Worded (tweakVariantToString env.floats item.currentValue))
    (hhashText : ascii '#' ∉ tweakVariantToString env.floats item.currentValue)
    (hbreakText : newline ∉ (tweakVariantToString env.floats item.currentValue).dropLast) :
    ∃ args, itemTokens env item = item.uri :: args ∧
      mergeTokens args (text " ") = tweakVariantToString env.floats item.currentValue := by
  obtain ⟨words, hwords, htext⟩ := htext
  obtain ⟨⟨tail, htail, harguments⟩, -⟩ := setArguments_eq hbreak hbreakText
  refine ⟨words, ?_, htext.symm⟩
  have hseps : ∀ c ∈ tail, c ∈ separators := by
    intro c hc
    rw [htail c hc]
    decide
  have hclean : ascii '#' ∉ item.uri ++ (text " " ++
      (tweakVariantToString env.floats item.currentValue ++ tail)) := by
    have hnewline : ascii '#' ∉ tail := fun hc => absurd (htail _ hc) (by decide)
    have hspace : ascii '#' ∉ text " " := by decide
    simp only [List.mem_append, not_or]
    exact ⟨hhash, hspace, hhashText, hnewline⟩
  have hspace : ∀ c ∈ text " ", c ∈ separators := by decide
  have hsplits := Splits.cons (by simp : ∀ c ∈ ([] : Text), c ∈ separators)
    (huri.token (by rintro c ⟨⟩; decide)) ((splits_mergeTokens hwords hseps).gap hspace)
  rw [itemTokens, harguments, not_hash_iff.mpr hclean, htext]
  exact hsplits.tokenize_words (List.forall_mem_cons.mpr ⟨huri, hwords⟩)

/-- The command names the item and has the text of its value. -/
theorem Survives.tokens (hstorable : Storable item.currentValue) (h : Survives env item) :
    ∃ args, itemTokens env item = item.uri :: args ∧
      mergeTokens args (text " ") = tweakVariantToString env.floats item.currentValue := by
  by_cases hmem : newline ∈ item.uri
  · obtain ⟨huri, hvalue⟩ := h.lineBreak hmem
    refine ⟨[], ?_, ?_⟩
    · rw [itemTokens, huri, hvalue]
      show tokenize backslash separators ((setArguments [backslash, newline] []).takeWhile _) = _
      decide
    · rw [hvalue]
      rfl
  · obtain ⟨hworded, hhash, hbreak⟩ := text_survives hstorable h.value
    exact tokens_of_worded h.uri.1 h.uri.2.1 hmem hworded hhash hbreak

/-- A string is assigned what a JSON string stands for, or the text itself. -/
theorem assigns_string_iff {s valueStr data : Text} (hvalue : item.currentValue = .string s)
    (hmeta : DefaultMetadata env item.currentValue item.meta) :
    Assigns env item valueStr (.string data) ↔
      tweakJsonParse env.platform valueStr = some (.string data) ∨
        (∀ data', tweakJsonParse env.platform valueStr ≠ some (.string data')) ∧ data = valueStr := by
  have hread : metadataAwareVariantFromString env valueStr item.currentValue.type
      (tweakVariantGetItemCount item.currentValue) item.meta =
      some (parseString env.platform valueStr) := by
    rw [metadataAwareVariantFromString_scalar (by simp [hvalue, VariantOf.type])
      (by simp [hvalue, VariantOf.type]) hmeta]
    simp only [hvalue]
    rfl
  have hcompatible : checkValueCompatibility item.currentValue (.string data) = true := by
    rw [hvalue]
    rfl
  have hassigns : Assigns env item valueStr (.string data) ↔
      (parseString env.platform valueStr).2 = .string data := by
    constructor
    · intro h
      obtain ⟨result, hsome, -⟩ := h.read
      rw [hread, Option.some.injEq] at hsome
      rw [hsome]
    · intro h
      refine ⟨⟨(parseString env.platform valueStr).1, ?_, ?_, ?_⟩, hcompatible⟩
      · rw [hread, ← h]
      · rw [parseString]
        split <;> simp
      · simp [metadataAwareVariantToString]
  rw [hassigns, parseString]
  split -- a JSON string, or the text itself
  · next data' hparse => simp [hparse]
  · next hparse =>
    simp only [VariantOf.string.injEq]
    constructor
    · intro h
      exact .inr ⟨hparse, h.symm⟩
    · rintro (h | ⟨-, h⟩)
      · exact absurd h (hparse data)
      · exact h.symm

/-- A printed vector is assigned, unless it is empty and there is no memory for that. -/
theorem assigns_vector_iff {t : NumType} {items : List (BitVec t.width)} (ht : t.isInteger)
    (hsize : (vectorBytes items).length < sizeModulus)
    (hvalue : item.currentValue = .vector t (vectorBytes items))
    (hmeta : DefaultMetadata env item.currentValue item.meta) :
    Assigns env item (vectorToString env.floats t items) item.currentValue ↔
      vectorBytes items ≠ [] ∨ env.mallocZero = true := by
  have hcount : tweakVariantGetItemCount item.currentValue = items.length := by
    rw [hvalue, ← vectorItems_vectorBytes items, length_vectorItems, vectorItems_vectorBytes]
    rfl
  have hlength : items.length < sizeModulus := by
    rw [← vectorItems_vectorBytes items, length_vectorItems]
    exact Nat.lt_of_le_of_lt (Nat.div_le_self _ _) hsize
  have hnil : vectorBytes items = [] ↔ items = [] := by
    constructor
    · intro h
      rw [← vectorItems_vectorBytes items, h]
      simp [vectorItems]
    · rintro rfl
      rfl
  rw [DefaultMetadata, hcount, hvalue] at hmeta
  have hread := metadataAwareVariantFromString_vector ht hlength hmeta
  rw [← hvalue] at hread
  have hcompatible : checkValueCompatibility item.currentValue item.currentValue = true := by
    rw [checkValueCompatibility_iff, hvalue]
    exact ⟨.refl _, by simp [VariantOf.type]⟩
  have htype : item.currentValue.type = .vector t := by rw [hvalue]; rfl
  by_cases hempty : items = [] ∧ env.mallocZero = false -- `malloc(0)` returns no pointer
  · rw [if_pos hempty] at hread
    refine iff_of_false ?_ ?_
    · intro h
      obtain ⟨result, hsome, hresult, -⟩ := h.read
      rw [htype, hcount, hread] at hsome
      exact hresult (Prod.mk.inj (Option.some.inj hsome)).1.symm
    · rw [hnil.mpr hempty.1, hempty.2]
      simp
  · rw [if_neg hempty] at hread
    refine iff_of_true ⟨⟨.success, ?_, by simp, by simp⟩, hcompatible⟩ ?_
    · rw [htype, hcount, hread]
    · by_cases hne : vectorBytes items = []
      · exact .inr (by simpa [hnil.mp hne] using hempty)
      · exact .inl hne

/-- `bool` and integers are read back. -/
theorem assigns_scalar (hvalue : IntegerValue item.currentValue)
    (hvector : ∀ t, item.currentValue.type ≠ .vector t)
    (hmeta : DefaultMetadata env item.currentValue item.meta) :
    Assigns env item (tweakVariantToString env.floats item.currentValue) item.currentValue := by
  have hnull : item.currentValue.type ≠ .null := by
    generalize item.currentValue = v at hvalue
    cases hvalue <;> simp [VariantOf.type]
  refine ⟨⟨.success, ?_, by simp, by simp⟩, checkValueCompatibility_iff.mpr ⟨.refl _, hnull⟩⟩
  rw [metadataAwareVariantFromString_scalar hnull hvector hmeta,
    (tweakVariantFromString_toString env.platform env.floats hvalue).1]

private theorem ValueSurvives.assigns (hstorable : Storable item.currentValue)
    (hmeta : DefaultMetadata env item.currentValue item.meta)
    (h : ValueSurvives env item.currentValue) :
    Assigns env item (tweakVariantToString env.floats item.currentValue) item.currentValue := by
  cases hvalue : item.currentValue with
  | null =>
    rw [hvalue] at hstorable
    cases hstorable
  | bool b =>
    rw [← hvalue]
    exact assigns_scalar (hvalue ▸ .bool b) (by simp [hvalue, VariantOf.type]) hmeta
  | num t bits =>
    have ht : t.isInteger := by
      rw [hvalue] at hstorable
      cases hstorable
      assumption
    rw [← hvalue]
    exact assigns_scalar (hvalue ▸ .num bits ht) (by simp [hvalue, VariantOf.type]) hmeta
  | string s =>
    rw [hvalue] at h
    exact (assigns_string_iff hvalue hmeta).mpr (.inr ⟨h.2.2.2, rfl⟩)
  | vector t bytes =>
    rw [hvalue] at hstorable h
    cases hstorable with
    | vector items ht hsize =>
      rw [tweakVariantToString, vectorItems_vectorBytes, ← hvalue]
      exact (assigns_vector_iff ht hsize hvalue hmeta).mpr h

end Surviving

/-! ## The script -/

section Script

variable {env : Environment} {outside : Outside} {c : Client} {item : Item}

/-- What is written for an item with default metadata. -/
def itemScript (env : Environment) (item : Item) : Text :=
  itemText item.uri item.description item.meta (tweakVariantToString env.floats item.defaultValue)
    (tweakVariantToString env.floats item.currentValue)

def itemLines (env : Environment) (item : Item) : List Text :=
  linesBefore item.uri item.description item.meta (tweakVariantToString env.floats item.defaultValue) ++
    itemLine env item ::
      moreLines newline (item.uri ++ text " " ++ tweakVariantToString env.floats item.currentValue)

/-- The lines of the script, item by item. -/
theorem lines_itemScripts (items : List Item) :
    lines newline (items.flatMap (itemScript env)) = items.flatMap (itemLines env) := by
  induction items with
  | nil => rfl
  | cons item items ih =>
    rw [List.flatMap_cons, List.flatMap_cons, itemScript, lines_itemText, ih, itemLines]
    exact (List.append_assoc _ (itemLine env item :: _) _).symm

/-- `==` is equality on values that can be stored. -/
theorem storable_discrete {v : Variant} (h : Storable v) : VariantType.Discrete v.type := by
  intro t ht
  cases h <;> cases ht
  assumption

theorem storable_bufferSize {v : Variant} (h : Storable v) : v.bufferSize < sizeModulus := by
  cases h with
  | vector items ht hsize => exact hsize
  | bool | num | string => exact Nat.two_pow_pos 64

variable {id : TweakId}

private theorem Saved.findId (h : Saved env c) (hitem : c.find? id = some item) :
    c.modelImpl.tweakAppFindId item.uri = id := by
  rw [ModelImpl.tweakAppFindId, tweakModelUriToTweakIdIndexLookup, h.bijective.find?_uri hitem]
  rfl

private theorem Saved.generateItem (h : Saved env c) (hitem : c.find? id = some item) :
    generateItem env c item.uri = some (itemScript env item) := by
  have hid := h.findId hitem
  have hvalid : id ≠ tweakInvalidId := (h.bijective.ids id item hitem).2
  have hcurrent := metadataAwareVariantToString_default (storable_bufferSize (h.storable id item hitem))
    (h.currentMetadata id item hitem)
  have hdefault := metadataAwareVariantToString_default (h.defaultMetadata id item hitem).2
    (h.defaultMetadata id item hitem).1
  simp only [Cli.generateItem, hid, if_neg hvalid, hitem, hcurrent, hdefault]
  rfl

/-- The script has a part for each item, in some order. -/
theorem Saved.generateScript (h : Saved env c) :
    ∃ items : List Item, items.Perm (c.modelImpl.model.entries.map Prod.snd) ∧
      generateScript env c = some (items.flatMap (itemScript env)) := by
  let find := fun uri => c.find? (c.modelImpl.tweakAppFindId uri)
  have hfind : ∀ entry ∈ c.modelImpl.model.entries, find entry.2.uri = some entry.2 ∧
      Cli.generateItem env c entry.2.uri = some (itemScript env entry.2) := by
    rintro ⟨id, item⟩ hmem
    have hitem : c.find? id = some item := Table.mem_entries_iff.mp hmem
    refine ⟨?_, h.generateItem hitem⟩
    show c.find? (c.modelImpl.tweakAppFindId item.uri) = _
    rw [h.findId hitem]
    exact hitem
  have hperm : (createSortedTweakUrisList c).Perm (c.modelImpl.model.entries.map (·.2.uri)) :=
    List.perm_insertionSort _ _
  refine ⟨(createSortedTweakUrisList c).filterMap find, ?_, ?_⟩
  · refine (hperm.filterMap find).trans (List.Perm.of_eq ?_)
    rw [List.filterMap_map, ← List.filterMap_eq_map]
    exact List.filterMap_congr fun entry hentry => (hfind entry hentry).1
  · have huris : ∀ uri ∈ createSortedTweakUrisList c, ∃ item, find uri = some item ∧
        Cli.generateItem env c uri = some (itemScript env item) := by
      intro uri huri
      obtain ⟨entry, hentry, rfl⟩ := List.mem_map.mp (hperm.mem_iff.mp huri)
      exact ⟨entry.2, hfind entry hentry⟩
    rw [Cli.generateScript]
    generalize createSortedTweakUrisList c = uris at huris
    induction uris with
    | nil => rfl
    | cons uri uris ih =>
      obtain ⟨⟨item, hitem, htext⟩, huris⟩ := List.forall_mem_cons.mp huris
      rw [List.mapM_cons, htext, List.filterMap_cons_some hitem, List.flatMap_cons]
      obtain ⟨texts, htexts, hflat⟩ := Option.map_eq_some_iff.mp (ih huris)
      rw [← hflat, htexts]
      rfl

/-- Nothing spills over from the texts of an item. -/
def QuietItem (env : Environment) (item : Item) : Prop :=
  (Quiet item.uri ∧ Quiet item.description ∧ Quiet item.meta ∧
    Quiet (tweakVariantToString env.floats item.defaultValue)) ∧
  Quiet (item.uri ++ text " " ++ tweakVariantToString env.floats item.currentValue)

/-- The lines of an item that are commands: its own, and what spills over. -/
theorem filter_itemLines (item : Item) :
    (itemLines env item).filter (¬ Blank ·) =
      (linesBefore item.uri item.description item.meta
        (tweakVariantToString env.floats item.defaultValue)).filter (¬ Blank ·) ++
      itemLine env item :: (moreLines newline (item.uri ++ text " " ++
        tweakVariantToString env.floats item.currentValue)).filter (¬ Blank ·) := by
  rw [itemLines, List.filter_append, List.filter_cons_of_pos]
  exact decide_eq_true (not_blank_set _)

/-- There is no command in the lines. -/
theorem filter_blank_eq_nil {ls : List Text} :
    ls.filter (¬ Blank ·) = [] ↔ ∀ line ∈ ls, Blank line := by
  rw [List.filter_eq_nil_iff]
  simp

private theorem quietItem_iff :
    QuietItem env item ↔ ((itemLines env item).filter (¬ Blank ·)).length ≤ 1 := by
  rw [QuietItem, filter_itemLines, List.length_append, List.length_cons]
  have hbefore : (Quiet item.uri ∧ Quiet item.description ∧ Quiet item.meta ∧
      Quiet (tweakVariantToString env.floats item.defaultValue)) ↔
      ((linesBefore item.uri item.description item.meta
        (tweakVariantToString env.floats item.defaultValue)).filter (¬ Blank ·)).length = 0 := by
    rw [List.length_eq_zero_iff, filter_blank_eq_nil, forall_linesBefore]
    rfl
  have hafter : Quiet (item.uri ++ text " " ++ tweakVariantToString env.floats item.currentValue) ↔
      ((moreLines newline (item.uri ++ text " " ++
        tweakVariantToString env.floats item.currentValue)).filter (¬ Blank ·)).length = 0 := by
    rw [List.length_eq_zero_iff, filter_blank_eq_nil]
    rfl
  rw [hbefore, hafter]
  omega

/-- The commands of a script are those of its items. -/
theorem filter_itemScripts {items : List Item} (h : ∀ item ∈ items, QuietItem env item) :
    (items.flatMap (itemLines env)).filter (¬ Blank ·) = items.map (itemLine env) := by
  induction items with
  | nil => rfl
  | cons item items ih =>
    obtain ⟨hitem, hitems⟩ := List.forall_mem_cons.mp h
    have hbefore := filter_blank_eq_nil.mpr (forall_linesBefore.mpr hitem.1)
    have hafter := filter_blank_eq_nil.mpr hitem.2
    rw [List.flatMap_cons, List.filter_append, ih hitems, filter_itemLines, hbefore, hafter]
    rfl

/-- The script is run as the commands of its items. -/
theorem runScript_itemScripts {s : Session} (hexit : s.exit = false) {items : List Item}
    (h : ∀ item ∈ items, QuietItem env item) :
    runScript env outside s (items.flatMap (itemScript env)) =
      runLines env outside s (items.map (itemLine env)) := by
  have hlines : lines (ascii '\n') (items.flatMap (itemScript env)) = items.flatMap (itemLines env) :=
    lines_itemScripts items
  rw [runScript, hlines, runLines_filter hexit, filter_itemScripts h]

theorem Saved.allDiscrete (h : Saved env c) : AllDiscrete c :=
  fun id item hitem => storable_discrete (h.storable id item hitem)

/-- All items of the client, in some order. -/
abbrev Lists (items : List Item) (c : Client) : Prop :=
  items.Perm (c.modelImpl.model.entries.map Prod.snd)

variable {items : List Item}

private theorem Lists.mem (hitems : Lists items c) (hitem : c.find? id = some item) :
    item ∈ items :=
  hitems.mem_iff.mpr (List.mem_map.mpr ⟨(id, item), Table.mem_entries_iff.mpr hitem, rfl⟩)

private theorem Saved.find? (h : Saved env c) (hitems : Lists items c) (hitem : item ∈ items) :
    c.find? item.id = some item := by
  obtain ⟨⟨id, item⟩, hmem, rfl⟩ := List.mem_map.mp (hitems.mem_iff.mp hitem)
  have hfound := Table.mem_entries_iff.mp hmem
  rw [(h.bijective.ids id item hfound).1]
  exact hfound

private theorem Saved.perm_ids (h : Saved env c) (hitems : Lists items c) :
    (items.map (·.id)).Perm (itemIds c) := by
  refine (hitems.map _).trans (List.Perm.of_eq ?_)
  rw [List.map_map, itemIds]
  apply List.map_congr_left
  rintro ⟨id, item⟩ hmem
  exact (h.bijective.ids id item (Table.mem_entries_iff.mp hmem)).1

end Script

/-! ## Texts that survive are enough -/

section Sufficient

variable {env : Environment} {outside : Outside} {c : Client} {item : Item}

private theorem Survives.quiet (hstorable : Storable item.currentValue) (h : Survives env item) :
    QuietItem env item := by
  by_cases hmem : newline ∈ item.uri
  · obtain ⟨huri, hvalue⟩ := h.lineBreak hmem
    refine ⟨⟨?_, h.description, h.metadata, h.defaultValue⟩, ?_⟩
    · rw [huri, Quiet]
      decide
    · rw [huri, hvalue]
      show ∀ line ∈ moreLines newline ([backslash, newline] ++ text " " ++ []), Blank line
      decide
  · refine ⟨⟨?_, h.description, h.metadata, h.defaultValue⟩, ?_⟩
    · rw [Quiet, moreLines_of_not_mem hmem]
      simp
    · exact (setArguments_eq hmem (text_survives hstorable h.value).2.2).2

private theorem Survives.sets (hsaved : Saved env c) (hitem : c.find? item.id = some item)
    (h : Survives env item) : Sets env c item item.currentValue := by
  have hstorable := hsaved.storable item.id item hitem
  obtain ⟨args, htokens, htext⟩ := h.tokens hstorable
  refine ⟨hitem, (hsaved.bijective.ids _ item hitem).2, hsaved.findId hitem, h.uri.2.2, args, htokens,
    ?_⟩
  rw [htext]
  exact h.value.assigns hstorable (hsaved.currentMetadata item.id item hitem)

private theorem restores_of_survives (hsaved : Saved env c)
    (h : ∀ id item, c.find? id = some item → Survives env item) :
    Restores env outside c (OneSetEach c) := by
  obtain ⟨items, hperm, hscript⟩ := hsaved.generateScript
  have hfind := fun item (hitem : item ∈ items) => hsaved.find? hperm hitem
  have hids := hsaved.perm_ids hperm
  have hnodup : (items.map (·.id)).Nodup := hids.nodup_iff.mpr c.modelImpl.model.nodup
  refine ⟨_, hscript, ?_⟩
  intro values start hstart
  have hquiet : ∀ item ∈ items, QuietItem env item := fun item hitem =>
    (h _ item (hfind item hitem)).quiet (hsaved.storable _ item (hfind item hitem))
  have hsets : ∀ item ∈ items, Sets env c item item.currentValue := fun item hitem =>
    (h _ item (hfind item hitem)).sets hsaved (hfind item hitem)
  obtain ⟨s, values', hrun, hholds, hvalues, -⟩ :=
    run_of_sets outside ⟨start, tweakInvalidId, false⟩ hsaved.allDiscrete hsets hnodup hstart rfl
  refine ⟨s, _, (runScript_itemScripts rfl hquiet).trans hrun, ?_, ?_⟩
  · have := hids.map Executed.set
    rwa [List.map_map] at this
  · intro id item hitem
    have hid := (hsaved.bijective.ids id item hitem).1
    rw [hholds.find? hitem, Option.map_some, ← hid, hvalues item (Lists.mem hperm hitem)]

end Sufficient

/-! ## Uris have to survive -/

section FirstToken

variable {uri value : Text}

/-- The arguments of a command begin with the uri, as far as it stands in the first line. -/
theorem arguments_cases (hhash : ascii '#' ∉ uri) :
    (newline ∉ uri ∧ (setArguments uri value).takeWhile (· ≠ ascii '#') =
      uri ++ ascii ' ' :: (firstLine newline value ++ [newline]).takeWhile (· ≠ ascii '#')) ∨
    ∃ line rest, newline ∉ line ∧ uri = line ++ newline :: rest ∧
      (setArguments uri value).takeWhile (· ≠ ascii '#') = line ++ [newline] := by
  have hclean : ∀ {t : Text}, ascii '#' ∉ t → ∀ c ∈ t, decide (c ≠ ascii '#') = true := by
    intro t ht c hc
    rw [decide_eq_true_eq]
    intro heq
    exact ht (heq ▸ hc)
  rcases exists_line newline uri with hbreak | ⟨line, rest, hline, rfl⟩
  · refine .inl ⟨hbreak, ?_⟩
    have hfirst : setArguments uri value =
        uri ++ (ascii ' ' :: (firstLine newline value ++ [newline])) := by
      have hspace : ∀ c ∈ uri ++ text " ", decide (c ≠ newline) = true := by
        intro c hc
        rw [decide_eq_true_eq]
        rintro rfl
        rcases List.mem_append.mp hc with hc | hc
        · exact hbreak hc
        · exact absurd hc (by decide)
      rw [setArguments, firstLine, List.takeWhile_append_of_pos hspace, List.append_assoc,
        List.append_assoc]
      rfl
    rw [hfirst, List.takeWhile_append_of_pos (hclean hhash), List.takeWhile_cons_of_pos (by decide)]
  · refine .inr ⟨line, rest, hline, rfl, ?_⟩
    have hfirst : setArguments (line ++ newline :: rest) value = line ++ [newline] := by
      rw [setArguments, List.append_assoc, List.append_assoc, List.cons_append,
        firstLine_line hline]
    rw [hfirst, not_hash_iff]
    intro hmem
    rcases List.mem_append.mp hmem with hmem | hmem
    · exact hhash (List.mem_append_left _ hmem)
    · exact absurd hmem (by decide)

/-- The first token of the arguments, as it stands there: a part of the uri, or more than the uri if
that ends with a backslash. -/
theorem first_token {uri value f : Text} {args : List Text} (hstart : ∀ c ∈ uri.head?, c ∉ separators)
    (hne : uri ≠ []) (hhash : ascii '#' ∉ uri)
    (htokens : tokenize backslash separators ((setArguments uri value).takeWhile (· ≠ ascii '#')) =
      f :: args) :
    ∃ token tokens rest, (setArguments uri value).takeWhile (· ≠ ascii '#') = token ++ rest ∧
      Token backslash separators token rest ∧ Splits backslash separators tokens rest ∧
      f = unescapeStr backslash token ∧ args = tokens.map (unescapeStr backslash) ∧
      (token <+: uri ∧ token.getLast? ≠ some backslash ∨
        uri.getLast? = some backslash ∧ ∃ more, token = uri ++ ascii ' ' :: more) := by
  have hcases := @arguments_cases uri value hhash
  generalize (setArguments uri value).takeWhile (· ≠ ascii '#') = line at htokens hcases
  have hhead : ∀ c ∈ line.head?, c ∉ separators := by
    obtain ⟨d, t, rfl⟩ := List.exists_cons_of_ne_nil hne
    have hd : line.head? = some d := by
      rcases hcases with ⟨-, rfl⟩ | ⟨before, rest, -, huri, rfl⟩
      · rfl
      · cases before <;> cases huri <;> rfl
    rw [hd]
    exact hstart
  obtain ⟨tokens, hsplits⟩ := exists_splits backslash separators line
  rw [hsplits.tokenize_eq] at htokens
  cases hsplits with
  | nil => cases htokens
  | @cons gap token rest tokens hgap htoken hsplits =>
    obtain ⟨hf, hargs⟩ := List.cons.inj htokens
    cases gap with
    | cons d gap => exact absurd (hgap d List.mem_cons_self) (hhead d rfl)
    | nil =>
      refine ⟨token, tokens, rest, rfl, htoken, hsplits, hf.symm, hargs.symm, ?_⟩
      rw [List.nil_append] at hcases
      rcases hcases with ⟨-, hline⟩ | ⟨before, more, -, rfl, hline⟩
      · rcases List.append_eq_append_iff.mp hline with ⟨more, huri, hrest⟩ | ⟨more, htoken', hrest⟩
        · -- the token ends inside the uri, or with it
          refine .inl ⟨⟨more, huri.symm⟩, ?_⟩
          cases more with
          | nil => exact (htoken.ends (ascii ' ') (by rw [hrest]; rfl)).2
          | cons d more => exact (htoken.ends d (by rw [hrest]; rfl)).2
        · cases more with
          | nil =>
            refine .inl ⟨⟨[], by rw [htoken', List.append_nil, List.append_nil]⟩, ?_⟩
            exact (htoken.ends (ascii ' ') (by rw [← List.nil_append rest, ← hrest]; rfl)).2
          | cons d more =>
            -- the space after the uri is escaped
            obtain ⟨rfl, -⟩ := List.cons.inj hrest
            have hguarded := htoken.guarded
            rw [htoken', guarded_append, Option.or_none] at hguarded
            exact .inr ⟨hguarded.2.1 (by decide), more, htoken'⟩
      · refine .inl ⟨⟨rest ++ more, ?_⟩, ?_⟩
        · rw [← List.append_assoc, hline, List.append_assoc]
          rfl
        · cases rest with
          | nil =>
            rw [List.append_nil] at hline
            rw [hline, List.getLast?_concat]
            decide
          | cons d rest => exact (htoken.ends d rfl).2

def separatorCount (t : Text) : Nat := t.countP (· ∈ separators)

private theorem separatorCount_longer (uri more : Text) :
    separatorCount uri < separatorCount (unescapeStr backslash (uri ++ ascii ' ' :: more)) := by
  have hspace : ascii ' ' ∈ separators := by decide
  rw [separatorCount, separatorCount, countP_unescapeStr (by decide), List.countP_append,
    List.countP_cons_of_pos (by simpa using hspace)]
  omega

/-- Either the first token is not longer than the uri and does not end with a backslash; or the uri
does, and the token has more separators. -/
theorem first_token_cases {uri value f : Text} {args : List Text}
    (hstart : ∀ c ∈ uri.head?, c ∉ separators) (hne : uri ≠ []) (hhash : ascii '#' ∉ uri)
    (htokens : tokenize backslash separators ((setArguments uri value).takeWhile (· ≠ ascii '#')) =
      f :: args) :
    f.length ≤ uri.length ∧ (uri.length ≤ f.length → f = uri) ∧ f.getLast? ≠ some backslash ∨
      uri.getLast? = some backslash ∧ separatorCount uri < separatorCount f := by
  obtain ⟨token, tokens, rest, -, -, -, rfl, -, hcases⟩ := first_token hstart hne hhash htokens
  have hsub := unescapeStr_sublist backslash token
  rcases hcases with ⟨hstart, hlast⟩ | ⟨hlast, more, rfl⟩
  · refine .inl ⟨Nat.le_trans hsub.length_le hstart.length_le, fun hle => ?_, ?_⟩
    · exact (hsub.trans hstart.sublist).eq_of_length_le hle
    · rwa [getLast?_unescapeStr hlast]
  · refine .inr ⟨hlast, ?_⟩
    have hcount := separatorCount_longer uri more
    omega

/-- A quantity that no element increases is kept by each, if the results are as the elements. -/
theorem eq_of_perm_map {α β : Type} {l : List α} {f g : α → β} (hperm : (l.map f).Perm (l.map g))
    {q : β → Nat} (hle : ∀ x ∈ l, q (f x) ≤ q (g x)) : ∀ x ∈ l, q (f x) = q (g x) := by
  have hsum := (hperm.map q).sum_eq
  rw [List.map_map, List.map_map] at hsum
  intro x hx
  exact Nat.le_antisymm (hle x hx) (forall_le_of_sum_le hle (Nat.le_of_eq hsum.symm) x hx)

/-- If the first tokens of the commands are the uris again, each of them is the uri of its command. -/
theorem uris_survive {α : Type} {l : List α} {uri first : α → Text}
    (hperm : (l.map first).Perm (l.map uri))
    (hcases : ∀ x ∈ l, (first x).length ≤ (uri x).length ∧
        ((uri x).length ≤ (first x).length → first x = uri x) ∧ (first x).getLast? ≠ some backslash ∨
      (uri x).getLast? = some backslash ∧ separatorCount (uri x) < separatorCount (first x)) :
    ∀ x ∈ l, first x = uri x := by
  -- a token that ends with a backslash belongs to a uri that does, and the other way round
  have hmarks := eq_of_perm_map hperm (q := fun t => if t.getLast? = some backslash then 1 else 0) <| by
    intro x hx
    rcases hcases x hx with ⟨-, -, hfirst⟩ | ⟨huri, -⟩
    · simp [hfirst]
    · simp only [huri, if_true]
      split <;> omega
  have hlast : ∀ x ∈ l, (uri x).getLast? = some backslash → (first x).getLast? = some backslash := by
    intro x hx huri
    by_contra hfirst
    have hmark := hmarks x hx
    simp [hfirst, huri] at hmark
  -- such uris would gain separators
  have hcounts := eq_of_perm_map hperm.symm
    (q := fun t => if t.getLast? = some backslash then separatorCount t else 0) <| by
    intro x hx
    by_cases huri : (uri x).getLast? = some backslash
    · rcases hcases x hx with ⟨-, -, hfirst⟩ | ⟨-, hlt⟩
      · exact absurd (hlast x hx huri) hfirst
      · simp only [huri, hlast x hx huri, if_true]
        omega
    · simp [huri]
  have hnone : ∀ x ∈ l, (uri x).getLast? ≠ some backslash := by
    intro x hx huri
    have hcount := hcounts x hx
    simp only [huri, hlast x hx huri, if_true] at hcount
    rcases hcases x hx with ⟨-, -, hfirst⟩ | ⟨-, hlt⟩
    · exact hfirst (hlast x hx huri)
    · omega
  have hlength := eq_of_perm_map hperm (q := List.length) <| by
    intro x hx
    rcases hcases x hx with ⟨hle, -⟩ | ⟨huri, -⟩
    · exact hle
    · exact absurd huri (hnone x hx)
  intro x hx
  rcases hcases x hx with ⟨-, heq, -⟩ | ⟨huri, -⟩
  · exact heq (Nat.le_of_eq (hlength x hx).symm)
  · exact absurd huri (hnone x hx)

end FirstToken

/-! ## Values have to survive -/

section Necessary

variable {env : Environment} {outside : Outside} {c : Client} {item : Item} {args : List Text}

/-- The uri of a command that names its own item is a word. -/
theorem word_of_tokens (htokens : itemTokens env item = item.uri :: args) :
    Word item.uri ∧ ascii '#' ∉ item.uri ∧
      ∃ rest, (setArguments item.uri (tweakVariantToString env.floats item.currentValue)).takeWhile
          (· ≠ ascii '#') = item.uri ++ rest ∧ args = tokenize backslash separators rest := by
  have htoken : item.uri ∈ itemTokens env item := htokens ▸ List.mem_cons_self
  obtain ⟨⟨c, t, huri, hc⟩, hsub⟩ := mem_tokenize htoken
  have hhash : ascii '#' ∉ item.uri := by
    intro hmem
    simpa using List.mem_takeWhile_imp (hsub _ hmem)
  have hne : item.uri ≠ [] := by simp [huri]
  have hstart : ∀ d ∈ item.uri.head?, d ∉ separators := by
    rw [huri]
    rintro d ⟨⟩
    exact hc
  obtain ⟨token, tokens, rest, hline, htoken, hsplits, hunescape, hargs, hcases⟩ :=
    first_token hstart hne hhash htokens
  rcases hcases with ⟨hstart, hlast⟩ | ⟨hlast, more, rfl⟩
  · have hle := (unescapeStr_sublist backslash token).length_le
    rw [← hunescape] at hle
    have heq : token = item.uri := hstart.eq_of_length_le hle
    subst heq
    refine ⟨word_iff.mpr ⟨htoken.start, htoken.guarded, hlast, hunescape.symm⟩, hhash, rest, hline, ?_⟩
    rw [hargs, hsplits.tokenize_eq]
  · -- the token would have more separators than it has
    have hcount := separatorCount_longer item.uri more
    rw [← hunescape] at hcount
    omega

/-- A text that comes back as a string is made of words, in one line, and is no JSON string. -/
theorem string_survives {s : Text} (hvalue : item.currentValue = .string s)
    (hmeta : DefaultMetadata env item.currentValue item.meta)
    (hargs : args = tokenize backslash separators
      (ascii ' ' :: (firstLine newline s ++ [newline]).takeWhile (· ≠ ascii '#')))
    (hassigns : Assigns env item (mergeTokens args (text " ")) item.currentValue) :
    ValueSurvives env item.currentValue := by
  have hassigns' : Assigns env item (mergeTokens args (text " ")) (.string s) := by rwa [← hvalue]
  rw [hvalue]
  -- the arguments are not longer than the line
  have hlength : (mergeTokens args (text " ")).length ≤ (firstLine newline s).length + 1 := by
    obtain ⟨tokens, htokens⟩ := exists_splits backslash separators
      (ascii ' ' :: (firstLine newline s ++ [newline]).takeWhile (· ≠ ascii '#'))
    have hcut := (List.takeWhile_sublist (fun c => decide (c ≠ ascii '#'))
      (l := firstLine newline s ++ [newline])).length_le
    rw [List.length_append, List.length_singleton] at hcut
    rw [hargs, htokens.tokenize_eq]
    by_cases hnil : tokens = []
    · simp [hnil, mergeTokens]
    · have hle := htokens.length_le.2 hnil ⟨_, rfl, by decide⟩
      rw [List.length_cons] at hle
      omega
  have hfirst : (firstLine newline s).length ≤ s.length :=
    (List.takeWhile_sublist _).length_le
  rcases (assigns_string_iff hvalue hmeta).mp hassigns' with hjson | ⟨hjson, hs⟩
  · have := Json.length_document_le hjson
    omega
  · have hhash : ascii '#' ∉ s := by
      rw [hs]
      intro hmem
      rcases mem_mergeTokens hmem with hmem | ⟨w, hw, hmem⟩
      · exact absurd hmem (by decide)
      · rw [hargs] at hw
        rcases List.mem_cons.mp ((mem_tokenize hw).2 _ hmem) with heq | hmem
        · exact absurd heq (by decide)
        · simpa using List.mem_takeWhile_imp hmem
    have hline : (firstLine newline s ++ [newline]).takeWhile (· ≠ ascii '#') =
        firstLine newline s ++ [newline] := by
      rw [not_hash_iff, List.mem_append, not_or]
      exact ⟨fun hmem => hhash ((List.takeWhile_sublist _).subset hmem), by decide⟩
    rw [hline] at hargs
    refine ⟨⟨args, ?_, hs⟩, hhash, ?_, hs ▸ hjson⟩
    · rw [hargs]
      apply word_of_count
      · rw [← List.cons_append, List.getLast?_concat]
        decide
      · have hnone : [newline].count backslash = 0 := by decide
        rw [← hargs, ← hs, List.count_cons_of_ne (by decide), List.count_append, hnone]
        exact (List.takeWhile_sublist _).count_le backslash
    · rcases exists_line newline s with hbreak | ⟨line, rest, hbreak, heq⟩
      · exact fun hmem => hbreak (List.dropLast_subset _ hmem)
      · rw [← hs, heq, firstLine_line hbreak, List.length_append, List.length_cons] at hlength
        have hrest : rest = [] := by
          rw [← List.length_eq_zero_iff]
          omega
        rw [heq, hrest, List.dropLast_concat]
        exact hbreak

variable {uri : Text}

/-- A uri with a line break is a backslash before it. -/
theorem uri_of_newline {line : Text} (hword : Word uri) (huri : uri = line ++ [newline])
    (hline : newline ∉ line) : uri = [backslash, newline] := by
  have hsep : newline ∈ separators := by decide
  cases line with
  | nil =>
    rw [huri] at hword
    exact absurd hsep hword.1
  | cons d line =>
    rw [huri, List.cons_append] at hword
    obtain ⟨-, -, hrest⟩ := hword
    by_cases hd : d = backslash
    · rw [if_pos hd] at hrest
      cases line with
      | nil => rw [huri, hd]; rfl
      | cons e line => exact absurd hsep (hrest.2 newline (by simp))
    · rw [if_neg hd] at hrest
      exact absurd hsep (hrest newline (by simp))

/-- Nothing but a string is read from an empty text. -/
theorem fromString_nil {type : VariantType} (hstring : type ≠ .string)
    (hinteger : VariantType.Discrete type) (hstrtod : env.floats.strtod [] = none) :
    tweakVariantFromString env.platform env.floats [] type = (.fail, .null) := by
  have hfloat : parseFloatingPoint env.floats [] = none := by rw [parseFloatingPoint, hstrtod]
  cases type with
  | null | bool | vector t => rfl
  | string => exact absurd rfl hstring
  | num t =>
    have ht := hinteger t rfl
    cases t with
    | float | double => cases ht
    | sint8 | sint16 | sint32 | sint64 | uint8 | uint16 | uint32 | uint64 =>
      simp only [tweakVariantFromString, parseScalar, parseGenericInt, parseGenericUint,
        parseGenericFloat, hfloat]
      rfl

/-- Only strings are assigned an empty text. -/
theorem string_of_assigns_nil (hstorable : Storable item.currentValue)
    (hmeta : DefaultMetadata env item.currentValue item.meta) (hstrtod : env.floats.strtod [] = none)
    (h : Assigns env item [] item.currentValue) : item.currentValue = .string [] := by
  by_cases hstring : item.currentValue.type = .string
  · cases hvalue : item.currentValue with
    | string s =>
      rw [hvalue] at h
      rcases (assigns_string_iff hvalue hmeta).mp h with hjson | ⟨-, rfl⟩
      · have := Json.length_document_le hjson
        simp at this
      · rfl
    | null | bool b | num t bits | vector t bytes => rw [hvalue] at hstring; cases hstring
  · have hdiscrete := storable_discrete hstorable
    have hread : metadataAwareVariantFromString env [] item.currentValue.type
        (tweakVariantGetItemCount item.currentValue) item.meta = some (.fail, .null) := by
      rw [metadataAwareVariantFromString, fromString_nil hstring hdiscrete hstrtod]
      rfl
    obtain ⟨result, hsome, hresult, -⟩ := h.read
    rw [hread] at hsome
    exact absurd (Prod.mk.inj (Option.some.inj hsome)).1.symm hresult

private theorem survives_of_tokens (hstorable : Storable item.currentValue)
    (hmeta : DefaultMetadata env item.currentValue item.meta) (hstrtod : env.floats.strtod [] = none)
    (hquiet : QuietItem env item) (hexplicit : item.uri.head? ≠ some (ascii '[')) {args : List Text}
    (htokens : itemTokens env item = item.uri :: args)
    (hassigns : Assigns env item (mergeTokens args (text " ")) item.currentValue) :
    Survives env item := by
  obtain ⟨hword, hhash, rest, hline, hargs⟩ := word_of_tokens htokens
  obtain ⟨⟨-, hdescription, hmetadata, hdefault⟩, -⟩ := hquiet
  rcases @arguments_cases item.uri (tweakVariantToString env.floats item.currentValue) hhash with
    ⟨hbreak, hcut⟩ | ⟨line, more, hbreak, huri, hcut⟩
  · -- the value is in one line with its uri
    refine ⟨⟨hword, hhash, hexplicit⟩, fun hmem => absurd hmem hbreak, ?_, hdescription, hmetadata,
      hdefault⟩
    rw [hline, List.append_cancel_left_eq] at hcut
    cases hvalue : item.currentValue with
    | null | bool b | num t bits => trivial
    | string s =>
      rw [hcut, hvalue] at hargs
      rw [← hvalue]
      exact string_survives hvalue hmeta hargs hassigns
    | vector t bytes =>
      -- the elements of a vector are words
      obtain ⟨hworded, hplain⟩ := @worded_toString env _ hstorable (by simp [hvalue])
      obtain ⟨args', htokens', htext⟩ := tokens_of_worded hword hhash hbreak hworded
        (fun hmem => (hplain _ hmem).1 rfl) (fun hmem => (hplain _ (List.dropLast_subset _ hmem)).2 rfl)
      rw [htokens] at htokens'
      obtain ⟨-, rfl⟩ := List.cons.inj htokens'
      rw [htext] at hassigns
      have hstorable' := hstorable
      rw [hvalue] at hstorable'
      cases hstorable' with
      | vector items ht hsize =>
        have htext' : tweakVariantToString env.floats item.currentValue =
            vectorToString env.floats t items := by
          rw [hvalue, tweakVariantToString, vectorItems_vectorBytes]
        rw [htext'] at hassigns
        exact (assigns_vector_iff ht hsize hvalue hmeta).mp hassigns
  · -- the line ends inside of the uri, so nothing is left for the value
    rw [hline, huri, List.append_assoc, List.cons_append, List.append_cancel_left_eq] at hcut
    obtain ⟨rfl, rfl⟩ := List.append_eq_nil_iff.mp (List.cons.inj hcut).2
    have huri' := uri_of_newline hword huri hbreak
    have hnil : args = [] := by rw [hargs]; rfl
    rw [hnil] at hassigns
    have hvalue := string_of_assigns_nil hstorable hmeta hstrtod hassigns
    refine ⟨⟨hword, hhash, hexplicit⟩, fun _ => ⟨huri', hvalue⟩, ?_, hdescription, hmetadata, hdefault⟩
    rw [hvalue]
    refine ⟨⟨[], by simp, rfl⟩, by simp, by simp, ?_⟩
    intro data hdata
    have := Json.length_document_le hdata
    simp at this

def firstToken (env : Environment) (item : Item) : Text := (itemTokens env item).head?.getD []

/-- The command names its item by the first token. -/
theorem Targets.firstToken {id : TweakId} (h : Targets env c item uri args id) :
    firstToken env item = uri := by
  rw [Cli.firstToken, h.tokens]
  rfl

/-- The uri is that of the item which is set. -/
theorem Targets.uri_eq (hsaved : Saved env c) {id : TweakId} {target : Item}
    (h : Targets env c item uri args id) (htarget : c.find? id = some target) :
    target.uri = uri := by
  have hfound := h.found
  rcases hsaved.bijective.findId uri with ⟨k, found, hk, huri, heq⟩ | ⟨-, heq⟩
  · rw [heq] at hfound
    subst hfound
    cases hk.symm.trans htarget
    exact huri
  · rw [heq] at hfound
    exact absurd hfound.symm h.valid

/-- Each command sets an item, not necessarily its own. -/
abbrev AllTarget (env : Environment) (c : Client) : List Item → List Executed → Prop :=
  List.Forall₂ fun item e => ∃ uri args id, Targets env c item uri args id ∧ e = .set id

variable {items : List Item} {log : List Executed}

private theorem log_of_targets (h : AllTarget env c items log) :
    log.filterMap Executed.item? =
      items.map fun item => c.modelImpl.tweakAppFindId (firstToken env item) := by
  induction h with
  | nil => rfl
  | cons hitem hrest ih =>
    obtain ⟨uri, args, id, htargets, rfl⟩ := hitem
    rw [List.map_cons, ← ih, htargets.firstToken, htargets.found]
    rfl

/-- Every command of a script sets some item. -/
theorem exists_targets (h : AllTarget env c items log) :
    ∀ item ∈ items, ∃ uri args id, Targets env c item uri args id := by
  induction h with
  | nil => simp
  | cons hitem hrest ih =>
    obtain ⟨uri, args, id, htargets, -⟩ := hitem
    exact List.forall_mem_cons.mpr ⟨⟨uri, args, id, htargets⟩, ih⟩

/-- If each item is set once, each command sets its own item. -/
theorem firstToken_eq_uri (hsaved : Saved env c) (hperm : Lists items c)
    (htargets : AllTarget env c items log)
    (hlog : (log.filterMap Executed.item?).Perm (itemIds c)) :
    ∀ item ∈ items, firstToken env item = item.uri := by
  have htarget := exists_targets htargets
  have hids : (items.map fun item => c.modelImpl.tweakAppFindId (firstToken env item)).Perm
      (items.map (·.id)) := by
    rw [← log_of_targets htargets]
    exact hlog.trans (hsaved.perm_ids hperm).symm
  -- the ids determine the uris
  have huris : (items.map (firstToken env)).Perm (items.map (·.uri)) := by
    have hmap := hids.map fun id => ((c.find? id).map (·.uri)).getD []
    rw [List.map_map, List.map_map] at hmap
    have hfirst : items.map (firstToken env) = items.map ((fun id => ((c.find? id).map (·.uri)).getD []) ∘
        fun item => c.modelImpl.tweakAppFindId (firstToken env item)) := by
      apply List.map_congr_left
      intro item hitem
      obtain ⟨uri, args, id, h⟩ := htarget item hitem
      obtain ⟨target, value, htarget, -⟩ := h.accepted
      simp [h.firstToken, h.found, htarget, h.uri_eq hsaved htarget]
    have huri : items.map (·.uri) = items.map ((fun id => ((c.find? id).map (·.uri)).getD []) ∘
        fun item => item.id) := by
      apply List.map_congr_left
      intro item hitem
      simp [hsaved.find? hperm hitem]
    rwa [hfirst, huri]
  refine uris_survive huris ?_
  intro item hitem
  -- the uri is the first token of some command
  obtain ⟨other, hother, heq⟩ := List.mem_map.mp (huris.mem_iff.mpr (List.mem_map_of_mem hitem))
  obtain ⟨uri, args, id, h⟩ := htarget other hother
  obtain ⟨uri', args', id', h'⟩ := htarget item hitem
  have hmem : uri ∈ itemTokens env other := by rw [h.tokens]; exact List.mem_cons_self
  obtain ⟨⟨d, t, huri, hd⟩, hsub⟩ := mem_tokenize hmem
  rw [h.firstToken, huri] at heq
  rw [h'.firstToken]
  refine first_token_cases ?_ ?_ ?_ h'.tokens
  · rw [← heq]
    rintro e ⟨⟩
    exact hd
  · simp [← heq]
  · rw [← heq, ← huri]
    intro hhash
    simpa using List.mem_takeWhile_imp (hsub _ hhash)

/-- A run that sets each item once, and leaves it with the value that it had, shows that everything
survives. -/
theorem survives_of_run (hsaved : Saved env c) (hperm : Lists items c)
    (hquiet : ∀ item ∈ items, QuietItem env item) {values : TweakId → Variant} {start : Client}
    (hstart : Holds c values start) {s : Session}
    (hrun : runLines env outside ⟨start, tweakInvalidId, false⟩ (items.map (itemLine env)) =
      some (s, log))
    (hother : .other ∉ log) (hlog : (log.filterMap Executed.item?).Perm (itemIds c))
    (hfinal : ∀ id item, c.find? id = some item →
      (s.client.find? id).map (·.currentValue) = some item.currentValue) :
    ∀ item ∈ items, Survives env item := by
  -- as many commands as items, each with its target
  have htargets := targets_of_run hsaved.allDiscrete hstart rfl rfl hrun hother
  have hown := firstToken_eq_uri hsaved hperm htargets hlog
  -- every item is set by its own command
  have hsets : ∀ item ∈ items, ∃ value, Sets env c item value := by
    intro item hitem
    obtain ⟨uri, args, id, h⟩ := exists_targets htargets item hitem
    obtain ⟨target, value, htarget, hassigns⟩ := h.accepted
    have huri : uri = item.uri := h.firstToken.symm.trans (hown item hitem)
    subst huri
    have hfound := hsaved.find? hperm hitem
    have hid : id = item.id := hsaved.bijective.unique htarget hfound (h.uri_eq hsaved htarget)
    subst hid
    cases hfound.symm.trans htarget
    exact ⟨value, hfound, h.valid, h.found, h.explicit, args, h.tokens, hassigns⟩
  have hnodup : (items.map (·.id)).Nodup :=
    (hsaved.perm_ids hperm).nodup_iff.mpr c.modelImpl.model.nodup
  have : Nonempty Variant := ⟨.null⟩
  choose! value hvalue using hsets
  obtain ⟨s', values', hrun', hholds, hvalues, -⟩ :=
    run_of_sets outside ⟨start, tweakInvalidId, false⟩ hsaved.allDiscrete hvalue hnodup hstart rfl
  rw [hrun] at hrun' -- both runs are the same
  cases hrun'
  intro item hitem
  have hfound := hsaved.find? hperm hitem
  have hsame := hfinal item.id item hfound
  rw [hholds.find? hfound, Option.map_some, hvalues item hitem, Option.some.injEq] at hsame
  obtain ⟨args, htokens, hassigns⟩ := (hvalue item hitem).assigns
  have hsame' : value item = item.currentValue := hsame
  rw [hsame'] at hassigns
  exact survives_of_tokens (hsaved.storable _ item hfound) (hsaved.currentMetadata _ item hfound)
    hsaved.strtod (hquiet item hitem) (hvalue item hitem).explicit htokens hassigns

/-- A client with its own values. -/
theorem Saved.holds (hsaved : Saved env c) :
    Holds c (fun id => ((c.find? id).map (·.currentValue)).getD .null) c where
  connected := hsaved.connected
  uris := fun _ => rfl
  items := by
    intro id
    cases hfound : c.find? id <;> rfl
  kinds := by
    intro id item hitem
    rw [hitem]
    exact SameKind.refl _

/-- The script is loaded into the client that has saved it. -/
theorem Restores.run {P : List Executed → Prop} (hsaved : Saved env c)
    (h : Restores env outside c P) :
    ∃ items s log, Lists items c ∧ runScript env outside ⟨c, tweakInvalidId, false⟩
        (items.flatMap (itemScript env)) = some (s, log) ∧ P log ∧
      ∀ id item, c.find? id = some item →
        (s.client.find? id).map (·.currentValue) = some item.currentValue := by
  obtain ⟨items, hperm, hscript⟩ := hsaved.generateScript
  obtain ⟨script, hscript', hload⟩ := h
  rw [hscript] at hscript'
  cases hscript'
  obtain ⟨s, log, hrun, hlog, hfinal⟩ := hload _ c hsaved.holds
  exact ⟨items, s, log, hperm, hrun, hlog, hfinal⟩

/-- Where nothing spills over, the commands of the script are one `set` for each item, and none of them
can be spared. -/
theorem survives_of_restores_among (hsaved : Saved env c)
    (hquiet : ∀ id item, c.find? id = some item → QuietItem env item)
    (h : Restores env outside c (OneSetEachAmong c)) :
    ∀ id item, c.find? id = some item → Survives env item := by
  obtain ⟨items, s, log, hperm, hrun, hlog, hfinal⟩ := h.run hsaved
  have hquiet' : ∀ item ∈ items, QuietItem env item := fun item hitem =>
    hquiet _ item (hsaved.find? hperm hitem)
  rw [runScript_itemScripts rfl hquiet'] at hrun
  have hother : .other ∉ log := by
    have hle := runLines_length_le hrun
    have hlength := hlog.length_eq
    rw [← (hsaved.perm_ids hperm).length_eq, List.length_map] at hlength
    rw [List.length_map, ← hlength] at hle
    have hall := List.filterMap_length_eq_length.mp (Nat.le_antisymm (List.length_filterMap_le _ _) hle)
    intro hmem
    exact absurd (hall _ hmem) (by decide)
  have hsurvive := survives_of_run hsaved hperm hquiet' hsaved.holds hrun hother hlog hfinal
  intro id item hitem
  exact hsurvive item (Lists.mem hperm hitem)

/-- One command for each item leaves no room for what spills over. -/
theorem quiet_of_restores (hsaved : Saved env c) (h : Restores env outside c (OneSetEach c)) :
    ∀ id item, c.find? id = some item → QuietItem env item := by
  obtain ⟨items, s, log, hperm, hrun, hlog, -⟩ := h.run hsaved
  have hother : .other ∉ log := by
    intro hmem
    obtain ⟨id, -, hid⟩ := List.mem_map.mp (hlog.mem_iff.mp hmem)
    cases hid
  have hlines : lines (ascii '\n') (items.flatMap (itemScript env)) = items.flatMap (itemLines env) :=
    lines_itemScripts items
  rw [runScript, hlines] at hrun
  -- as many commands as items, and each item has one of its own
  have hlength := runLines_length rfl hrun hother
  rw [hlog.length_eq, List.length_map, ← (hsaved.perm_ids hperm).length_eq, List.length_map,
    List.filter_flatMap, List.length_flatMap] at hlength
  have hone : ∀ item ∈ items, 1 ≤ ((itemLines env item).filter (¬ Blank ·)).length := by
    intro item _
    rw [filter_itemLines, List.length_append, List.length_cons]
    omega
  have hsum : (items.map fun item => ((itemLines env item).filter (¬ Blank ·)).length).sum ≤
      (items.map fun _ => 1).sum := by
    rw [List.map_const', List.sum_replicate, ← hlength]
    simp
  intro id item hitem
  exact quietItem_iff.mpr (forall_le_of_sum_le hone hsum item (Lists.mem hperm hitem))

private theorem Restores.mono {P Q : List Executed → Prop} (hPQ : ∀ log, P log → Q log)
    (h : Restores env outside c P) : Restores env outside c Q := by
  obtain ⟨script, hscript, hload⟩ := h
  refine ⟨script, hscript, ?_⟩
  intro values start hstart
  obtain ⟨s, log, hrun, hlog, hfinal⟩ := hload values start hstart
  exact ⟨s, log, hrun, hPQ log hlog, hfinal⟩

/-- The special case without other commands. -/
theorem OneSetEach.among {log : List Executed} (h : OneSetEach c log) : OneSetEachAmong c log := by
  refine (h.filterMap Executed.item?).trans (List.Perm.of_eq ?_)
  rw [List.filterMap_map]
  exact List.filterMap_some

/-- A saved script brings back the values of all items exactly if all of its texts survive. Other
commands next to the `set` of each item would only help where a text spills over. -/
theorem runScript_restores_iff (hsaved : Saved env c) :
    (Restores env outside c (OneSetEach c) ↔
      ∀ id item, c.find? id = some item → Survives env item) ∧
    ((∀ id item, c.find? id = some item → QuietItem env item) →
      (Restores env outside c (OneSetEachAmong c) ↔
        ∀ id item, c.find? id = some item → Survives env item)) := by
  refine ⟨⟨?_, restores_of_survives hsaved⟩, ?_⟩
  · intro h
    exact survives_of_restores_among hsaved (quiet_of_restores hsaved h) (h.mono fun _ => OneSetEach.among)
  · intro hquiet
    refine ⟨survives_of_restores_among hsaved hquiet, ?_⟩
    intro h
    exact (restores_of_survives hsaved h).mono fun _ => OneSetEach.among

end Necessary

/-! ## A desk -/

def clientWith (items : List AddItem) : Client where
  modelImpl :=
    items.foldl (fun m a => ⟨m.model.insert a.id (.create a), m.index.insert a.uri a.id⟩) .empty
  connected := true
  remotePeerFeatures := ⟨true⟩
  queue := []

section ClientWith

variable {items : List AddItem} (hentries : (clientWith items).modelImpl.model.entries =
  items.map fun a => (a.id, Item.create a))

include hentries

theorem clientWith_find? {id : TweakId} {item : Item} (h : (clientWith items).find? id = some item) :
    ∃ a ∈ items, item = .create a := by
  have hmem := Table.mem_entries_iff.mpr h
  rw [hentries] at hmem
  obtain ⟨a, ha, heq⟩ := List.mem_map.mp hmem
  exact ⟨a, ha, (Prod.mk.inj heq).2.symm⟩

/-- A client with storable items can be saved. -/
theorem saved_clientWith (hbijective : (clientWith items).modelImpl.Bijective)
    (hitems : ∀ a ∈ items, Storable a.currentValue ∧
      DefaultMetadata plainEnvironment a.currentValue a.meta ∧
      DefaultMetadata plainEnvironment a.defaultValue a.meta ∧
        a.defaultValue.bufferSize < sizeModulus) : Saved plainEnvironment (clientWith items) where
  connected := rfl
  bijective := hbijective
  storable := by
    intro id item h
    obtain ⟨a, ha, rfl⟩ := clientWith_find? hentries h
    exact (hitems a ha).1
  currentMetadata := by
    intro id item h
    obtain ⟨a, ha, rfl⟩ := clientWith_find? hentries h
    exact (hitems a ha).2.1
  defaultMetadata := by
    intro id item h
    obtain ⟨a, ha, rfl⟩ := clientWith_find? hentries h
    exact (hitems a ha).2.2
  strtod := rfl

end ClientWith

def labelItem (label : Text) : AddItem :=
  ⟨1, text "/label", [], [], .string [], .string label⟩

def levelItem : AddItem :=
  ⟨2, text "/level", text "Input level", [], .num .sint32 0, .num .sint32 (-7)⟩

def gainsItem : AddItem :=
  ⟨3, text "/gains", [], [], .vector .uint16 (vectorBytes (t := .uint16) [0, 0, 0]),
    .vector .uint16 (vectorBytes (t := .uint16) [1, 2, 300])⟩

/-- A text of three words, a number with a description and a vector. -/
def deskItems : List AddItem := [labelItem (text "hello wide world"), levelItem, gainsItem]

private theorem saved_desk : Saved plainEnvironment (clientWith deskItems) := by
  apply saved_clientWith rfl
  · have hadd {m : ModelImpl} {a : AddItem} (h : m.Bijective)
        (hnew : ModelImpl.Addable ⟨true, true, true, true⟩ m a) (hid : a.id ≠ tweakInvalidId) :
        ModelImpl.Bijective ⟨m.model.insert a.id (.create a), m.index.insert a.uri a.id⟩ :=
      h.add hnew hid
    have hlabel := hadd (a := labelItem (text "hello wide world")) .empty (by decide) (by decide)
    have hlevel := hadd (a := levelItem) hlabel (by decide) (by decide)
    exact hadd (a := gainsItem) hlevel (by decide) (by decide)
  · intro a ha
    simp only [deskItems, List.mem_cons, List.not_mem_nil, or_false] at ha
    rcases ha with rfl | rfl | rfl
    · exact ⟨.string _, rfl, rfl, by decide⟩
    · exact ⟨.num _ rfl, rfl, rfl, by decide⟩
    · exact ⟨.vector _ rfl (by decide), rfl, rfl, by decide⟩

/-- All of them come back. -/
theorem runScript_restores_desk :
    Restores plainEnvironment (fun _ _ s => some s) (clientWith deskItems)
      (OneSetEach (clientWith deskItems)) := by
  refine (runScript_restores_iff saved_desk).1.mpr ?_
  intro id item h
  obtain ⟨a, ha, rfl⟩ := clientWith_find? rfl h
  simp only [deskItems, List.mem_cons, List.not_mem_nil, or_false] at ha
  have hparse : tweakJsonParse plainEnvironment.platform (text "hello wide world") = none := by
    decide +kernel
  rcases ha with rfl | rfl | rfl
  · refine ⟨by decide, fun h => absurd h (by decide), ⟨?_, by decide, by decide, ?_⟩, ?_, ?_, ?_⟩
    · exact ⟨[text "hello", text "wide", text "world"], by decide, rfl⟩
    · intro data
      rw [hparse]
      simp
    all_goals
      rw [Quiet]
      decide
  · refine ⟨by decide, fun h => absurd h (by decide), trivial, ?_, ?_, ?_⟩ <;>
      rw [Quiet] <;> decide
  · refine ⟨by decide, fun h => absurd h (by decide), .inr rfl, ?_, ?_, ?_⟩ <;>
      rw [Quiet] <;> decide

def labelled (label : Text) : Client := clientWith [labelItem label]

private theorem saved_labelled (label : Text) : Saved plainEnvironment (labelled label) := by
  apply saved_clientWith rfl
  · have hnew : ModelImpl.Addable ⟨true, true, true, true⟩ .empty (labelItem label) := ⟨rfl, rfl, rfl⟩
    exact ModelImpl.Bijective.empty.add hnew (by show (1 : TweakId) ≠ tweakInvalidId; decide)
  · intro a ha
    obtain rfl := List.mem_singleton.mp ha
    exact ⟨.string label, rfl, rfl, Nat.two_pow_pos 64⟩

/-- Of two spaces one is left. -/
theorem runScript_merges_spaces :
    Saved plainEnvironment (labelled (text "a  b")) ∧
    ((generateScript plainEnvironment (labelled (text "a  b"))).bind fun script =>
      (runScript plainEnvironment (fun _ _ s => some s) ⟨labelled (text "a  b"), tweakInvalidId, false⟩
        script).map fun r => (r.2, (r.1.client.find? 1).map (·.currentValue))) =
      some ([.set 1], some (.string (text "a b"))) ∧
    ¬ Restores plainEnvironment (fun _ _ s => some s) (labelled (text "a  b"))
      (OneSetEachAmong (labelled (text "a  b"))) := by
  have hrun : ((generateScript plainEnvironment (labelled (text "a  b"))).bind fun script =>
      (runScript plainEnvironment (fun _ _ s => some s) ⟨labelled (text "a  b"), tweakInvalidId, false⟩
        script).map fun r => (r.2, (r.1.client.find? 1).map (·.currentValue))) =
      some ([.set 1], some (.string (text "a b"))) := by
    decide +kernel
  refine ⟨saved_labelled _, hrun, ?_⟩
  rintro ⟨script, hscript, hload⟩
  obtain ⟨s, log, hs, -, hfinal⟩ := hload _ _ (saved_labelled _).holds
  rw [hscript, Option.bind_some, hs, Option.map_some, Option.some.injEq] at hrun
  have hlabel := hfinal 1 (.create (labelItem (text "a  b"))) rfl
  rw [(Prod.mk.inj hrun).2] at hlabel
  exact absurd hlabel (by decide)

end TweakTool.Cli
