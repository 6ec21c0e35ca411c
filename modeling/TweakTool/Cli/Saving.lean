import TweakTool.Cli.Script

/-! # What a saved script does

The script that `save` writes has one block of lines for each item. The lines of a block are comments
and one `set` command, as long as no text in it spills over into lines of its own. -/

namespace TweakTool.Cli

open TweakTool.Lib TweakTool.Common TweakTool.App

variable {env : Environment} {outside : Outside} {s s' : Session}

/-! ## Lines without a command -/

def Blank (line : Text) : Prop := ∀ c ∈ line.takeWhile (· ≠ ascii '#'), c ∈ separators

instance (line : Text) : Decidable (Blank line) := inferInstanceAs (Decidable (∀ _ ∈ _, _))

variable {line : Text}

/-- A line without tokens has separators only. -/
theorem tokenize_eq_nil_iff :
    tokenize backslash separators line = [] ↔ ∀ c ∈ line, c ∈ separators := by
  obtain ⟨tokens, htokens⟩ := exists_splits backslash separators line
  rw [htokens.tokenize_eq, List.map_eq_nil_iff]
  constructor
  · rintro rfl
    cases htokens with
    | nil hgap => exact hgap
  · exact htokens.eq_nil

private theorem executeLine_blank (h : Blank line) (s : Session) :
    executeLine env outside s line = some (s, none) := by
  rw [executeLine, tokenize_eq_nil_iff.mpr h]

/-- Any other line runs a command. -/
theorem isSome_of_not_blank (h : ¬ Blank line) {executed : Option Executed}
    (hline : executeLine env outside s line = some (s', executed)) : executed.isSome := by
  rw [executeLine] at hline
  split at hline
  · next htokens => exact absurd (tokenize_eq_nil_iff.mp htokens) h
  · split at hline
    · cases hline
      rfl
    · obtain ⟨⟨s₁, e⟩, -, heq⟩ := Option.map_eq_some_iff.mp hline
      cases heq
      rfl

private theorem blank_comment (rest : Text) : Blank (ascii '#' :: rest) := by
  rw [Blank, List.takeWhile_cons_of_neg (by decide)]
  simp

private theorem blank_newline : Blank (text "\n") := by decide

/-- Comments and empty lines do nothing. -/
theorem runLines_blank {before : List Text} (h : ∀ line ∈ before, Blank line) (hexit : s.exit = false)
    (rest : List Text) : runLines env outside s (before ++ rest) = runLines env outside s rest := by
  induction before with
  | nil => rfl
  | cons line before ih =>
    obtain ⟨hline, hbefore⟩ := List.forall_mem_cons.mp h
    rw [List.cons_append, runLines, executeLine_blank hline]
    simp [hexit, ih hbefore]

/-! ## Setting an item -/

/-- A text is accepted as a value for the item. -/
structure Assigns (env : Environment) (item : Item) (valueStr : Text) (value : Variant) : Prop where
  read : ∃ result, metadataAwareVariantFromString env valueStr item.currentValue.type
      (tweakVariantGetItemCount item.currentValue) item.meta = some (result, value) ∧ result ≠ .fail ∧
    (result = .truncated → metadataAwareVariantToString env value item.meta ≠ none)
  compatible : checkValueCompatibility item.currentValue value = true

/-- Values of one type and size. -/
def SameKind (a b : Variant) : Prop := b.type = a.type ∧ b.bufferSize = a.bufferSize

theorem SameKind.refl (a : Variant) : SameKind a a := ⟨rfl, rfl⟩

variable {a b : Variant}

private theorem SameKind.itemCount (h : SameKind a b) :
    tweakVariantGetItemCount b = tweakVariantGetItemCount a := by
  obtain ⟨htype, hsize⟩ := h
  cases a <;> cases b <;> cases htype <;> first | rfl | exact congrArg (· / _) hsize

/-- The check compares type and size, and refuses null. -/
theorem checkValueCompatibility_iff :
    checkValueCompatibility a b = true ↔ SameKind a b ∧ a.type ≠ .null := by
  rw [checkValueCompatibility, SameKind]
  by_cases htype : a.type = b.type
  · rw [if_neg (not_not.mpr htype)]
    cases a with
    | null => simp [VariantOf.type]
    | bool x => cases b <;> cases htype; simp [VariantOf.type, Variant.bufferSize]
    | num t x => cases b <;> cases htype; simp [VariantOf.type, Variant.bufferSize]
    | string x => cases b <;> cases htype; simp [VariantOf.type, Variant.bufferSize]
    | vector t x =>
      cases b <;> cases htype
      simp only [VariantOf.type, Variant.bufferSize, beq_iff_eq, true_and, ne_eq, reduceCtorEq,
        not_false_eq_true, and_true]
      exact eq_comm
  · simp [htype, Ne.symm htype]

theorem checkValueCompatibility_congr {a' : Variant} (h : SameKind a a') (b : Variant) :
    checkValueCompatibility a' b = checkValueCompatibility a b := by
  rw [Bool.eq_iff_iff, checkValueCompatibility_iff, checkValueCompatibility_iff, SameKind, SameKind,
    h.1, h.2]

/-- `==` is equality on these values. -/
def VariantType.Discrete (type : VariantType) : Prop := ∀ t, type = .num t → t.isInteger

private theorem eq_of_tweakVariantIsEqual (ha : VariantType.Discrete a.type)
    (h : tweakVariantIsEqual a b = true) : a = b := by
  cases a with
  | null => cases b <;> cases h
  | bool x => exact (tweakVariantIsEqual_iff (a := .bool x) rfl).mp h
  | num t x => exact (tweakVariantIsEqual_iff (a := .num t x) (ha t rfl)).mp h
  | string x => cases b <;> simp [tweakVariantIsEqual] at h; rw [h]
  | vector t x =>
    cases b <;> simp [tweakVariantIsEqual] at h
    obtain ⟨rfl, rfl⟩ := h
    rfl

/-- The client has the items of `c`, with other current values of the same types and sizes. -/
structure Holds (c : Client) (values : TweakId → Variant) (client : Client) : Prop where
  connected : client.connected = true
  uris : ∀ uri, client.modelImpl.tweakAppFindId uri = c.modelImpl.tweakAppFindId uri
  items : ∀ id, client.find? id = (c.find? id).map fun item => { item with currentValue := values id }
  kinds : ∀ id item, c.find? id = some item → SameKind item.currentValue (values id)

variable {c : Client} {values : TweakId → Variant} {id : TweakId} {item : Item} {client : Client}

/-- Only the model counts, and the connection. -/
theorem Holds.congr {client' : Client} (h : Holds c values client)
    (hconnected : client'.connected = client.connected)
    (hmodel : client'.modelImpl = client.modelImpl) : Holds c values client' where
  connected := hconnected.trans h.connected
  uris := by rw [hmodel]; exact h.uris
  items := fun id => by rw [← h.items, Context.find?, hmodel]; rfl
  kinds := h.kinds

variable {value : Variant}

/-- Another value of the same kind. -/
theorem Holds.update (h : Holds c values client) (hitem : c.find? id = some item)
    (hkind : SameKind item.currentValue value) :
    Holds c (Function.update values id value)
      { client with modelImpl := client.modelImpl.setCurrentValue id value } where
  connected := h.connected
  uris := h.uris
  items := fun k => by
    have hmodel : Context.find? { client with modelImpl := client.modelImpl.setCurrentValue id value } k =
        if k = id then (client.find? id).map fun item => { item with currentValue := value }
        else client.find? k := client.modelImpl.setCurrentValue_model id value k
    rw [hmodel]
    by_cases hk : k = id
    · subst hk
      rw [if_pos rfl, h.items, Function.update_self, Option.map_map]
      rfl
    · rw [if_neg hk, h.items, Function.update_of_ne hk]
  kinds := fun k item' hitem' => by
    by_cases hk : k = id
    · subst hk
      cases hitem.symm.trans hitem'
      rwa [Function.update_self]
    · rw [Function.update_of_ne hk]
      exact h.kinds k item' hitem'

/-- An item differs in its current value only. -/
theorem Holds.find? (h : Holds c values client) (hitem : c.find? id = some item) :
    client.find? id = some { item with currentValue := values id } := by
  rw [h.items, hitem]
  rfl

/-- A compatible value can be set. -/
theorem Holds.replaceCurrentValue (h : Holds c values client) (hitem : c.find? id = some item)
    (hdiscrete : VariantType.Discrete item.currentValue.type)
    (hvalue : checkValueCompatibility item.currentValue value = true) :
    ∃ client', client.replaceCurrentValue id value = (.success, client') ∧
      Holds c (Function.update values id value) client' := by
  have hfound := h.find? hitem
  have hkind := h.kinds id item hitem
  have hcompatible : checkValueCompatibility (values id) value = true := by
    rwa [checkValueCompatibility_congr hkind]
  simp only [Client.replaceCurrentValue, hfound]
  rw [if_pos hcompatible, if_pos h.connected]
  simp only [Context.itemReplaceCurrentValue, hfound]
  by_cases hequal : tweakVariantIsEqual (values id) value = true
  · -- the value is there already
    have hvalues : Function.update values id value = values := by
      rw [← eq_of_tweakVariantIsEqual (hkind.1 ▸ hdiscrete) hequal, Function.update_eq_self]
    rw [hvalues]
    simp only [if_pos hequal]
    exact ⟨_, rfl, h.congr rfl rfl⟩
  · simp only [if_neg hequal]
    refine ⟨_, rfl, (h.update hitem (checkValueCompatibility_iff.mp hvalue).1).congr ?_ ?_⟩
    · split <;> rfl
    · split <;> rfl

/-- An item that is named and given a text that it accepts is set. -/
theorem executeSetCmd_assigns (h : Holds c values s.client) {uri : Text} {args : List Text}
    (huri : uri.head? ≠ some (ascii '[')) (hid : c.modelImpl.tweakAppFindId uri = id)
    (hvalid : id ≠ tweakInvalidId) (hitem : c.find? id = some item)
    (hdiscrete : VariantType.Discrete item.currentValue.type) {value : Variant}
    (hassigns : Assigns env item (mergeTokens args (text " ")) value) :
    ∃ client, executeSetCmd env s (uri :: args) = some ({ s with client := client }, .set id) ∧
      Holds c (Function.update values id value) client := by
  obtain ⟨result, hread, hresult, hwarning⟩ := hassigns.read
  obtain ⟨htype, hsize⟩ := h.kinds id item hitem
  have hnull := (checkValueCompatibility_iff.mp hassigns.compatible).2
  obtain ⟨client, hreplace, hholds⟩ := h.replaceCurrentValue hitem hdiscrete hassigns.compatible
  refine ⟨client, ?_, hholds⟩
  have hget : getTweakId s uri = (id, true) := by rw [getTweakId, if_pos huri, h.uris, hid]
  have hcount := (h.kinds id item hitem).itemCount
  simp only [executeSetCmd, hget, if_neg hvalid, h.find? hitem, htype, if_neg hnull, hcount, if_true]
  rw [hread]
  cases result with
  | fail => exact absurd rfl hresult
  | success => simp [hreplace]
  | truncated => simp [hreplace, hwarning rfl]

private theorem set_eq_iff {p : Prop} [Decidable p] {k : TweakId} :
    (if p then Executed.set k else .other) = .set id ↔ p ∧ k = id := by
  split <;> simp [*]

private theorem replaceCurrentValue_success (h : (client.replaceCurrentValue id value).1 = .success)
    (hitem : client.find? id = some item) :
    checkValueCompatibility item.currentValue value = true := by
  simp only [Client.replaceCurrentValue, hitem] at h
  split at h
  · next hcompatible => exact hcompatible
  · cases h

/-- Nothing else is set while no item is selected. -/
theorem executeSetCmd_inversion (h : Holds c values s.client) (hselected : s.selected = tweakInvalidId)
    {tokens : List Text} (hset : executeSetCmd env s tokens = some (s', .set id)) :
    ∃ uri args, tokens = uri :: args ∧ uri.head? ≠ some (ascii '[') ∧
      c.modelImpl.tweakAppFindId uri = id ∧ id ≠ tweakInvalidId ∧
      ∃ item value, c.find? id = some item ∧ Assigns env item (mergeTokens args (text " ")) value := by
  cases tokens with
  | nil => cases hset
  | cons uri args =>
    refine ⟨uri, args, rfl, ?_⟩
    rw [executeSetCmd] at hset
    by_cases huri : uri.head? ≠ some (ascii '[')
    · -- an item is named, and each test of the command goes the way that leads to its end
      have hget : getTweakId s uri = (c.modelImpl.tweakAppFindId uri, true) := by
        rw [getTweakId, if_pos huri, h.uris]
      simp only [hget, if_true] at hset
      split at hset
      · cases hset
      · next hvalid =>
        rw [h.items] at hset
        cases hitem : c.find? (c.modelImpl.tweakAppFindId uri) with
        | none => simp [hitem] at hset
        | some item =>
          have hkind := h.kinds _ item hitem
          simp only [hitem, Option.map_some, hkind.1, hkind.itemCount] at hset
          split at hset
          · cases hset
          · split at hset
            · cases hset
            · cases hset
            · next result value hresult hread =>
              split at hset
              · cases hset
              · next hwarning =>
                obtain ⟨hsuccess, rfl⟩ := set_eq_iff.mp (Prod.mk.inj (Option.some.inj hset)).2
                have hcompatible := replaceCurrentValue_success hsuccess (h.find? hitem)
                refine ⟨huri, rfl, hvalid, item, value, hitem, ⟨result, hread, ?_, ?_⟩, ?_⟩
                · exact hresult
                · exact fun htruncated hnone => hwarning ⟨htruncated, hnone⟩
                · rwa [← checkValueCompatibility_congr hkind]
    · -- the selected item is meant, and there is none
      have hget : getTweakId s uri = (tweakInvalidId, false) := by
        rw [getTweakId, if_neg huri, hselected]
      simp [hget] at hset

/-! ## The lines of a script -/

def newline : UInt8 := ascii '\n'

def commentLines (label comment : Text) : List Text :=
  (label ++ (firstLine newline comment ++ [newline])) :: moreLines newline comment

def linesBefore (uri description «meta» defaultValueStr : Text) : List Text :=
  [text "\n"] ++ commentLines (text "# Item uri: ") uri ++
  commentLines (text "# Description : ") description ++ commentLines (text "# Meta : ") «meta» ++
  commentLines (text "# Default value : ") defaultValueStr ++ [text "\n"]

/-- What the command is given, up to the end of its line. -/
def setArguments (uri currentValueStr : Text) : Text :=
  firstLine newline (uri ++ text " " ++ currentValueStr) ++ [newline]

/-- The lines that are written for an item. -/
theorem lines_itemText (uri description «meta» defaultValueStr currentValueStr rest : Text) :
    lines newline (itemText uri description «meta» defaultValueStr currentValueStr ++ rest) =
      linesBefore uri description «meta» defaultValueStr ++
        (text "set " ++ setArguments uri currentValueStr : Text) ::
          (moreLines newline (uri ++ text " " ++ currentValueStr) ++ lines newline rest) := by
  have hnewline : text "\n" = [newline] := rfl
  rw [itemText, linesBefore, commentLines, commentLines, commentLines, commentLines, setArguments,
    hnewline]
  simp only [List.append_assoc, List.cons_append, List.nil_append]
  rw [lines_break, lines_labelled (by decide), lines_labelled (by decide), lines_labelled (by decide),
    lines_labelled (by decide), lines_break]
  have hlabel : newline ∉ text "set " := by decide
  have hset := lines_labelled hlabel (uri ++ text " " ++ currentValueStr) rest
  simp only [List.append_assoc] at hset
  rewrite [hset]
  rfl

private theorem forall_commentLines {label comment : Text} :
    (∀ line ∈ commentLines (ascii '#' :: label) comment, Blank line) ↔
      ∀ line ∈ moreLines newline comment, Blank line := by
  rw [commentLines, List.forall_mem_cons, List.cons_append]
  exact and_iff_right (blank_comment _)

/-- When the lines before the command are comments. -/
theorem forall_linesBefore {uri description «meta» defaultValueStr : Text} :
    (∀ line ∈ linesBefore uri description «meta» defaultValueStr, Blank line) ↔
      (∀ line ∈ moreLines newline uri, Blank line) ∧
      (∀ line ∈ moreLines newline description, Blank line) ∧
      (∀ line ∈ moreLines newline «meta», Blank line) ∧
      ∀ line ∈ moreLines newline defaultValueStr, Blank line := by
  simp only [linesBefore, List.forall_mem_append, List.forall_mem_singleton, blank_newline, true_and,
    and_true, and_assoc]
  exact and_congr forall_commentLines (and_congr forall_commentLines
    (and_congr forall_commentLines forall_commentLines))

/-- The command has the rest of its line as arguments. -/
theorem tokenize_set (rest : Text) :
    tokenize backslash separators ((text "set " ++ rest).takeWhile (· ≠ ascii '#')) =
      text "set" :: tokenize backslash separators (rest.takeWhile (· ≠ ascii '#')) := by
  have hset : (text "set " ++ rest).takeWhile (· ≠ ascii '#') =
      [] ++ (text "set" ++ (text " " ++ rest.takeWhile (· ≠ ascii '#'))) :=
    List.takeWhile_append_of_pos (by decide)
  have hword : Word (text "set") := by decide
  obtain ⟨tokens, htokens⟩ := exists_splits backslash separators (rest.takeWhile (· ≠ ascii '#'))
  have hspace : ∀ c ∈ text " ", c ∈ separators := by decide
  have hsplits := Splits.cons (by simp : ∀ c ∈ ([] : Text), c ∈ separators)
    (hword.token (by rintro c ⟨⟩; decide)) (htokens.gap hspace)
  rw [hset, hsplits.tokenize_eq, htokens.tokenize_eq]
  rfl

/-! ## Runs -/

private theorem executeLine_set (s : Session) (rest : Text) :
    executeLine env outside s (text "set " ++ rest) =
      (executeSetCmd env s (tokenize backslash separators (rest.takeWhile (· ≠ ascii '#')))).map
        fun (s, e) => (s, some e) := by
  rw [executeLine, tokenize_set]
  rfl

theorem not_blank_set (rest : Text) : ¬ Blank (text "set " ++ rest) := by
  intro h
  have hmem : ascii 's' ∈ (text "set " ++ rest).takeWhile (· ≠ ascii '#') := List.mem_cons_self
  exact absurd (h _ hmem) (by decide)

/-- Only the client is changed by a `set`. -/
theorem executeSetCmd_frame {tokens : List Text} {e : Executed}
    (hset : executeSetCmd env s tokens = some (s', e)) : s' = { s with client := s'.client } := by
  cases tokens with
  | nil => cases hset; rfl
  | cons uri args =>
    simp only [executeSetCmd] at hset
    split at hset
    · cases hset; rfl
    · split at hset
      · cases hset; rfl
      · generalize mergeTokens _ _ = valueStr at hset
        split at hset
        · cases hset; rfl
        · split at hset
          · cases hset
          · cases hset; rfl
          · split at hset <;> cases hset
            rfl

/-- A line that runs nothing but a successful `set` does not end the script. -/
theorem executeLine_exit {executed : Option Executed}
    (hline : executeLine env outside s line = some (s', executed))
    (hother : executed ≠ some .other) : s'.exit = s.exit := by
  rw [executeLine] at hline
  split at hline
  · cases hline; rfl
  · split at hline
    · cases hline; exact absurd rfl hother
    · next command _ =>
      obtain ⟨⟨s₁, e⟩, hcmd, heq⟩ := Option.map_eq_some_iff.mp hline
      cases heq
      cases command with
      | set =>
        rw [executeSetCmd_frame hcmd]
      | select | help | exit => cases hcmd; exact absurd rfl hother
      | wait | list | details | get | edit | load | save =>
        obtain ⟨s₂, -, heq⟩ := Option.map_eq_some_iff.mp hcmd
        cases heq
        exact absurd rfl hother

/-- Blank lines do nothing. -/
theorem runLines_filter (hexit : s.exit = false) (ls : List Text) :
    runLines env outside s ls = runLines env outside s (ls.filter (¬ Blank ·)) := by
  induction ls generalizing s with
  | nil => rfl
  | cons line ls ih =>
    by_cases hline : Blank line
    · rw [List.filter_cons_of_neg (by simpa using hline), ← ih hexit]
      exact runLines_blank (List.forall_mem_singleton.mpr hline) hexit ls
    · rw [List.filter_cons_of_pos (by simpa using hline), runLines, runLines]
      split
      · rfl
      · next s₁ executed _ =>
        split
        · rfl
        · next hexit₁ => rw [ih (by simpa using hexit₁)]

variable {log : List Executed}

/-- A line is at most one command. -/
theorem runLines_length_le {ls : List Text} (hrun : runLines env outside s ls = some (s', log)) :
    log.length ≤ ls.length := by
  induction ls generalizing s log with
  | nil => cases hrun; rfl
  | cons line ls ih =>
    rw [runLines] at hrun
    split at hrun
    · cases hrun
    · next s₁ executed _ =>
      have hle : executed.toList.length ≤ 1 := by cases executed <;> simp
      split at hrun
      · cases hrun
        rw [List.length_cons]
        omega
      · obtain ⟨⟨s₂, log₂⟩, hrun₂, heq⟩ := Option.map_eq_some_iff.mp hrun
        cases heq
        have := ih hrun₂
        rw [List.length_append, List.length_cons]
        omega

/-- Every other line is a command, and all of them are run. -/
theorem runLines_length {ls : List Text} (hexit : s.exit = false)
    (hrun : runLines env outside s ls = some (s', log)) (hother : .other ∉ log) :
    log.length = (ls.filter (¬ Blank ·)).length := by
  induction ls generalizing s log with
  | nil => cases hrun; rfl
  | cons line ls ih =>
    by_cases hline : Blank line
    · rw [List.filter_cons_of_neg (by simpa using hline)]
      refine ih hexit ?_ hother
      rw [← hrun]
      exact (runLines_blank (List.forall_mem_singleton.mpr hline) hexit ls).symm
    · rw [List.filter_cons_of_pos (by simpa using hline), List.length_cons]
      rw [runLines] at hrun
      split at hrun
      · cases hrun
      · next s₁ executed hexecute =>
        obtain ⟨e, rfl⟩ := Option.isSome_iff_exists.mp (isSome_of_not_blank hline hexecute)
        split at hrun
        · -- only `exit` ends the script, and its entry in the log is another one
          next hexit₁ =>
          cases hrun
          have hset : some e ≠ some .other := by simpa [eq_comm] using hother
          rw [executeLine_exit hexecute hset, hexit] at hexit₁
          cases hexit₁
        · next hexit₁ =>
          obtain ⟨⟨s₂, log₂⟩, hrun₂, heq⟩ := Option.map_eq_some_iff.mp hrun
          cases heq
          rw [List.mem_append, not_or] at hother
          have := ih (by simpa using hexit₁) hrun₂ hother.2
          simp only [Option.toList_some, List.length_append, List.length_singleton, this]
          omega

/-! ## The commands of a script -/

def itemTokens (env : Environment) (item : Item) : List Text :=
  tokenize backslash separators
    ((setArguments item.uri (tweakVariantToString env.floats item.currentValue)).takeWhile
      (· ≠ ascii '#'))

def itemLine (env : Environment) (item : Item) : Text :=
  text "set " ++ setArguments item.uri (tweakVariantToString env.floats item.currentValue)

/-- The command names one of the items, and gives it a value. -/
structure Targets (env : Environment) (c : Client) (item : Item) (uri : Text) (args : List Text)
    (id : TweakId) : Prop where
  tokens : itemTokens env item = uri :: args
  explicit : uri.head? ≠ some (ascii '[')
  found : c.modelImpl.tweakAppFindId uri = id
  valid : id ≠ tweakInvalidId
  accepted : ∃ target value, c.find? id = some target ∧
    Assigns env target (mergeTokens args (text " ")) value

/-- `==` is equality on the current values of all items. -/
def AllDiscrete (c : Client) : Prop :=
  ∀ id item, c.find? id = some item → VariantType.Discrete item.currentValue.type

/-- The line of an item is its `set`. -/
theorem executeLine_item (s : Session) (item : Item) :
    executeLine env outside s (itemLine env item) =
      (executeSetCmd env s (itemTokens env item)).map fun (s, e) => (s, some e) :=
  executeLine_set s _

/-- If all commands succeed, each of them has a target. -/
theorem targets_of_run (hdiscrete : AllDiscrete c) {items : List Item}
    (h : Holds c values s.client) (hselected : s.selected = tweakInvalidId)
    (hexit : s.exit = false)
    (hrun : runLines env outside s (items.map (itemLine env)) = some (s', log))
    (hother : .other ∉ log) :
    List.Forall₂ (fun item e => ∃ uri args id, Targets env c item uri args id ∧ e = .set id)
      items log := by
  induction items generalizing s values log with
  | nil => cases hrun; exact .nil
  | cons item items ih =>
    rw [List.map_cons, runLines, executeLine_item] at hrun
    cases hset : executeSetCmd env s (itemTokens env item) with
    | none => simp [hset] at hrun
    | some result =>
      obtain ⟨s₁, e⟩ := result
      simp only [hset, Option.map_some, Option.toList_some] at hrun
      have he : e ≠ .other := by
        rintro rfl
        split at hrun
        · cases hrun
          exact hother List.mem_cons_self
        · obtain ⟨⟨s₂, log₂⟩, -, heq⟩ := Option.map_eq_some_iff.mp hrun
          cases heq
          exact hother List.mem_cons_self
      cases e with
      | other => exact absurd rfl he
      | set id =>
        obtain ⟨uri, args, htokens, huri, hid, hvalid, target, value, htarget, hassigns⟩ :=
          executeSetCmd_inversion h hselected hset
        obtain ⟨client, hset', hholds⟩ :=
          executeSetCmd_assigns h huri hid hvalid htarget (hdiscrete id target htarget) hassigns
        -- the rest is run by a client with the same items
        rw [← htokens, hset] at hset'
        cases hset'
        have hgoes : ¬ ({ s with client := client } : Session).exit = true := by simp [hexit]
        rw [if_neg hgoes] at hrun
        obtain ⟨⟨s₂, log₂⟩, hrun₂, heq⟩ := Option.map_eq_some_iff.mp hrun
        cases heq
        have hrest := ih (s := { s with client := client }) hholds hselected hexit hrun₂
          fun hmem => hother (List.mem_cons_of_mem _ hmem)
        exact .cons ⟨uri, args, id, ⟨htokens, huri, hid, hvalid, target, value, htarget, hassigns⟩, rfl⟩
          hrest

/-- The command of an item sets that item to a value. -/
structure Sets (env : Environment) (c : Client) (item : Item) (value : Variant) : Prop where
  held : c.find? item.id = some item
  valid : item.id ≠ tweakInvalidId
  found : c.modelImpl.tweakAppFindId item.uri = item.id
  explicit : item.uri.head? ≠ some (ascii '[')
  assigns : ∃ args, itemTokens env item = item.uri :: args ∧
    Assigns env item (mergeTokens args (text " ")) value

/-- If every command sets its item, the script leaves the items with these values. -/
theorem run_of_sets (outside : Outside) (s : Session) (hdiscrete : AllDiscrete c)
    {items : List Item} {value : Item → Variant}
    (hsets : ∀ item ∈ items, Sets env c item (value item)) (hnodup : (items.map (·.id)).Nodup)
    (h : Holds c values s.client) (hexit : s.exit = false) :
    ∃ s' values', runLines env outside s (items.map (itemLine env)) =
        some (s', items.map fun item => .set item.id) ∧
      Holds c values' s'.client ∧ (∀ item ∈ items, values' item.id = value item) ∧
      ∀ id ∉ items.map (·.id), values' id = values id := by
  induction items generalizing s values with
  | nil => exact ⟨s, values, rfl, h, by simp, by simp⟩
  | cons item items ih =>
    obtain ⟨hset, hsets⟩ := List.forall_mem_cons.mp hsets
    rw [List.map_cons, List.nodup_cons] at hnodup
    obtain ⟨args, htokens, hassigns⟩ := hset.assigns
    obtain ⟨client, hexecute, hholds⟩ := executeSetCmd_assigns h hset.explicit hset.found hset.valid
      hset.held (hdiscrete _ _ hset.held) hassigns
    obtain ⟨s', values', hrun, hholds', hvalues, hothers⟩ :=
      ih { s with client := client } hsets hnodup.2 hholds hexit
    refine ⟨s', values', ?_, hholds', ?_, ?_⟩
    · rw [hexit] at hrun
      rw [List.map_cons, runLines, executeLine_item, htokens, hexecute]
      simp [hexit, hrun]
    · -- no later command is about this item
      refine List.forall_mem_cons.mpr ⟨?_, hvalues⟩
      rw [hothers item.id hnodup.1, Function.update_self]
    · intro id hid
      rw [List.map_cons, List.mem_cons, not_or] at hid
      rw [hothers id hid.2, Function.update_of_ne hid.1]

end TweakTool.Cli
