import Mathlib.Data.List.ModifyLast
import TweakTool.Json.Parser

/-! # Lengths of strings

A string that is a document or one of its members is shorter than the text by its quotes at least,
whatever characters the text has: an escape sequence is longer than what it stands for. -/

namespace TweakTool.Json

open TweakTool.Lib

variable {platform : Platform} {n : Nat}

/-! ## One character -/

/-- The characters that have been read since the string was last extended. -/
def Scan.read : Scan → Nat
  | .plain => 0
  | .escape => 1
  | .hex i _ => 5 - (i + 3) / 4
  | .high _ => 6
  | .highEscape _ => 7
  | .low _ i _ => 11 - (i + 3) / 4

/-- A string is not longer than the `n` characters that it was read from, and the next one. -/
def Scanned.Within (n : Nat) : Scanned → Prop
  | .invalid => True
  | .next scan str => str.length + scan.read ≤ n + 1
  | .closed str => str.length ≤ n

theorem length_codepointtoutf8_le (r : Nat) : (codepointtoutf8 r).length ≤ 4 := by
  rw [codepointtoutf8]
  split_ifs <;> simp

variable {str : Text}

theorem length_append_codepoint (r : Nat) : (str ++ codepointtoutf8 r).length ≤ str.length + 4 := by
  rw [List.length_append]
  exact Nat.add_le_add_left (length_codepointtoutf8_le r) _

private theorem chr_within (c : UInt8) (h : str.length ≤ n) : (chr platform c str).Within n := by
  rw [chr]
  split_ifs <;> simp only [Scanned.Within, Scan.read, List.length_append, List.length_singleton] <;>
    omega

private theorem escchr_within (c : UInt8) (h : str.length + 1 ≤ n) : (escchr c str).Within n := by
  rw [escchr]
  split_ifs <;> simp only [Scanned.Within, Scan.read, List.length_append, List.length_singleton] <;>
    omega

theorem codePoint_within (cp : Nat) (h : str.length + 5 ≤ n) : (codePoint cp str).Within n := by
  have := length_codepointtoutf8_le cp
  rw [codePoint]
  split_ifs <;> simp only [Scanned.Within, Scan.read, List.length_append] <;> omega

theorem surrogatePair_within (hi lo : Nat) (h : str.length + 8 ≤ n) :
    (surrogatePair hi lo str).Within n := by
  have := length_codepointtoutf8_le hi
  have := length_codepointtoutf8_le lo
  have := length_codepointtoutf8_le ((hi <<< 10) + lo - 56613888)
  rw [surrogatePair]
  split_ifs <;> simp only [Scanned.Within, Scan.read, List.length_append] <;> omega

/-- Escape sequences are longer than what they stand for. -/
theorem scanString_within (c : UInt8) (str : Text) (scan : Scan) :
    (scanString platform c str scan).Within (str.length + scan.read) := by
  have hgrow := fun hi => @length_append_codepoint str hi
  cases scan with
  | plain => exact chr_within c (Nat.le_refl _)
  | escape =>
    rw [scanString]
    split
    · trivial
    · exact escchr_within c (Nat.le_refl _)
  | hex i cp =>
    rw [scanString]
    split
    · trivial
    · split
      · simp only [Scanned.Within, Scan.read]
        omega
      · next hi =>
        rw [Classical.not_not.mp hi]
        exact codePoint_within _ (Nat.le_refl _)
  | high hi =>
    rw [scanString]
    split
    · exact chr_within c (Nat.le_trans (hgrow hi) (Nat.add_le_add_left (by decide : 4 ≤ 6) _))
    · exact Nat.le_refl _
  | highEscape hi =>
    rw [scanString]
    split
    · refine escchr_within c (Nat.le_trans (Nat.add_le_add_right (hgrow hi) 1) ?_)
      exact Nat.add_le_add_left (by decide : 5 ≤ 7) _
    · exact Nat.le_refl _
  | low hi i lo =>
    rw [scanString]
    split
    · trivial
    · split
      · simp only [Scanned.Within, Scan.read]
        omega
      · next h =>
        rw [Classical.not_not.mp h]
        exact surrogatePair_within hi _ (Nat.add_le_add_left (by decide : 8 ≤ 11) _)

/-! ## The document -/

/-- A string of `n` characters, two of which are quotes. -/
def Node.StringWithin (n : Nat) (node : Node) : Prop := ∀ data, node = .string data → data.length + 2 ≤ n

/-- The document and its members, where they are strings, were read from `n` characters. -/
def Node.Within (n : Nat) (node : Node) : Prop :=
  node.StringWithin n ∧ ∀ fields, node = .object fields → ∀ field ∈ fields, field.2.StringWithin n

def Context.Within (n : Nat) (context : Context) : Prop := ∀ node ∈ context.document, node.Within n

variable {node : Node}

private theorem Node.Within.succ (h : node.Within n) : node.Within (n + 1) :=
  ⟨fun data hdata => Nat.le_succ_of_le (h.1 data hdata), fun fields hfields field hfield data hdata =>
    Nat.le_succ_of_le (h.2 fields hfields field hfield data hdata)⟩

variable {data : Text}

private theorem addElement_eq_string {name duplicate : Text} {child : Node}
    (h : addElement name duplicate child node = .string data) : node = .string data := by
  cases node <;> first | exact h | cases h

theorem modifyBelow_eq_string {f : Node → Node}
    (hf : ∀ node, f node = .string data → node = .string data) (depth : Nat)
    (h : modifyBelow f depth node = .string data) : node = .string data := by
  cases depth with
  | zero => exact hf node h
  | succ depth => cases node <;> first | exact h | cases h

theorem mem_modifyLast {α : Type} {f : α → α} {l : List α} {b : α} (h : b ∈ l.modifyLast f) :
    ∃ a ∈ l, b = a ∨ b = f a := by
  rcases List.eq_nil_or_concat l with rfl | ⟨l, a, rfl⟩
  · cases h
  · rw [List.concat_eq_append] at h ⊢
    rw [List.modifyLast_concat, List.mem_append, List.mem_singleton] at h
    rcases h with h | rfl
    · exact ⟨b, List.mem_append_left _ h, Or.inl rfl⟩
    · exact ⟨a, List.mem_append_right _ List.mem_cons_self, Or.inr rfl⟩

theorem createNewNode_eq_string {type : JsonType} (h : createNewNode type str = .string data) :
    type = .string ∧ str = data := by
  cases type with
  | string => exact ⟨rfl, Node.string.inj h⟩
  | array => cases h
  | object => cases h
  | bool => cases h
  | null => cases h
  | number => cases h

private theorem Node.StringWithin.modifyBelow (h : node.StringWithin n) (name duplicate : Text)
    (child : Node) (depth : Nat) :
    (modifyBelow (addElement name duplicate child) depth node).StringWithin n :=
  fun data hdata => h data (modifyBelow_eq_string (fun _ => addElement_eq_string) depth hdata)

/-- Members are added, and the last one is changed below it. -/
theorem Node.Within.modifyBelow {child : Node} (h : node.Within n) (hchild : child.StringWithin n)
    (name duplicate : Text) (depth : Nat) :
    (modifyBelow (addElement name duplicate child) depth node).Within n := by
  refine ⟨h.1.modifyBelow name duplicate child depth, fun fields hfields field hfield => ?_⟩
  cases node with
  | object fields' =>
    have hfields' := h.2 fields' rfl
    cases depth with
    | zero =>
      cases hfields
      rcases List.mem_append.mp hfield with hfield | hfield
      · exact hfields' field hfield
      · rw [List.mem_singleton.mp hfield]
        exact hchild
    | succ depth =>
      cases hfields
      obtain ⟨field', hfield', rfl | rfl⟩ := mem_modifyLast hfield
      · exact hfields' field hfield'
      · exact (hfields' field' hfield').modifyBelow name duplicate child depth
  | array items | null | bool data | number data | string data => cases depth <;> cases hfields

/-- A new string is not longer than what was read. -/
theorem enterCallback_within {context : Context} (h : context.Within n) (depth : Nat) (name : Text)
    {type : JsonType} (hstr : type = .string → str.length + 2 ≤ n) :
    (enterCallback platform context depth name type str).Within n := by
  have hnew : (createNewNode type str).StringWithin n := by
    intro data hdata
    obtain ⟨htype, rfl⟩ := createNewNode_eq_string hdata
    exact hstr htype
  intro node hnode
  cases depth with
  | zero =>
    cases Option.some.inj hnode
    refine ⟨hnew, fun fields hfields field hfield => ?_⟩
    cases type <;> cases hfields
    cases hfield
  | succ depth =>
    obtain ⟨node, hdocument, rfl⟩ := Option.map_eq_some_iff.mp hnode
    exact (h node hdocument).modifyBelow hnew _ _ depth

/-! ## Runs -/

namespace Parser

variable {s s' : Parser} {c : UInt8}

section Inversion

variable {P : Context → Prop}

/-- The callback leaves a property of the document alone, unless it is called for a string. -/
def Unaffected (platform : Platform) (P : Context → Prop) : Prop :=
  ∀ context depth name type str, type ≠ .string → P context →
    P (enterCallback platform context depth name type str)

/-- Nothing of a string has been read, and no literal is a string. -/
def Fresh : Mode → Prop
  | .string scan str => scan = .plain ∧ str = []
  | .literal _ type _ => type ≠ .string
  | _ => True

theorem openNode_cases {type : JsonType} {iskey : Bool} {expect : Expect}
    (hopen : s.openNode platform type iskey expect = some s') :
    s'.mode = s.mode ∧
      s'.context = enterCallback platform s.context s.parents.length s.name type [] := by
  rw [openNode] at hopen
  split at hopen
  · cases hopen
  · cases hopen
    exact ⟨rfl, rfl⟩

private theorem closeNode_cases {type : JsonType} (hclose : s.closeNode type = some s') :
    s'.mode = s.mode ∧ s'.context = s.context := by
  rw [closeNode] at hclose
  split at hclose
  · cases hclose
  · split at hclose <;> cases hclose
    exact ⟨rfl, rfl⟩

private theorem comma_cases (hcomma : s.comma = some s') :
    s'.mode = s.mode ∧ s'.context = s.context := by
  rw [comma] at hcomma
  split at hcomma
  · cases hcomma
  · split at hcomma <;> cases hcomma <;> exact ⟨rfl, rfl⟩

/-- What an expected character does to the mode and the document. -/
theorem switch_cases (hswitch : s.switch platform c = some s') :
    Fresh s'.mode ∧ (s'.context = s.context ∨ ∃ depth name type, type ≠ .string ∧
      s'.context = enterCallback platform s.context depth name type []) := by
  have hopens : ∀ {type iskey expect}, type ≠ .string →
      { s with mode := .main }.openNode platform type iskey expect = some s' →
      Fresh s'.mode ∧ (s'.context = s.context ∨ ∃ depth name type, type ≠ .string ∧
        s'.context = enterCallback platform s.context depth name type []) := by
    intro type iskey expect htype hopen
    obtain ⟨hmode, hcontext⟩ := openNode_cases hopen
    exact ⟨by rw [hmode]; trivial, .inr ⟨_, _, type, htype, hcontext⟩⟩
  have hkeeps : s'.mode = .main ∧ s'.context = s.context →
      Fresh s'.mode ∧ (s'.context = s.context ∨ ∃ depth name type, type ≠ .string ∧
        s'.context = enterCallback platform s.context depth name type []) := by
    rintro ⟨hmode, hcontext⟩
    exact ⟨by rw [hmode]; trivial, .inl hcontext⟩
  rw [switch] at hswitch
  rcases ite_eq_iff.mp hswitch with ⟨-, h⟩ | ⟨-, hswitch⟩
  · cases h; exact hkeeps ⟨rfl, rfl⟩
  rcases ite_eq_iff.mp hswitch with ⟨-, h⟩ | ⟨-, hswitch⟩
  · cases h; exact ⟨⟨rfl, rfl⟩, .inl rfl⟩
  rcases ite_eq_iff.mp hswitch with ⟨-, h⟩ | ⟨-, hswitch⟩
  · exact hopens (by decide) h
  rcases ite_eq_iff.mp hswitch with ⟨-, h⟩ | ⟨-, hswitch⟩
  · exact hopens (by decide) h
  rcases ite_eq_iff.mp hswitch with ⟨-, h⟩ | ⟨-, hswitch⟩
  · exact hkeeps (closeNode_cases h)
  rcases ite_eq_iff.mp hswitch with ⟨-, h⟩ | ⟨-, hswitch⟩
  · exact hkeeps (closeNode_cases h)
  rcases ite_eq_iff.mp hswitch with ⟨-, h⟩ | ⟨-, hswitch⟩
  · exact hkeeps (comma_cases h)
  -- `true`, `false`, `null`
  iterate 3
    rcases ite_eq_iff.mp hswitch with ⟨-, h⟩ | ⟨-, hswitch⟩
    · cases h
      exact ⟨by rintro ⟨⟩, .inl rfl⟩
  cases hswitch
  exact ⟨trivial, .inl rfl⟩

/-- The `switch` leaves the property alone. -/
theorem switch_context (hother : Unaffected platform P) (h : P s.context)
    (hswitch : s.switch platform c = some s') : P s'.context := by
  obtain ⟨-, hcontext | ⟨depth, name, type, htype, hcontext⟩⟩ := switch_cases hswitch
  · rw [hcontext]
    exact h
  · rw [hcontext]
    exact hother _ depth name type [] htype h

private theorem handlechr_context (hother : Unaffected platform P) (h : P s.context)
    (hhandle : s.handlechr platform c = some s') : P s'.context := by
  rw [handlechr] at hhandle
  split_ifs at hhandle
  · cases hhandle; exact h
  · cases hhandle; exact h
  · exact switch_context hother h hhandle

theorem flush_context (hother : Unaffected platform P) (h : P s.context) :
    P (s.flush platform).context := by
  rw [flush]
  split
  · exact hother _ _ _ _ _ (by decide) h
  · exact h

/-- What a character does to the document, by what it closes. -/
theorem feed_context (hother : Unaffected platform P)
    (hliteral : ∀ letters type str, s.mode = .literal letters type str → type ≠ .string)
    (hclosed : ∀ scan str str', s.mode = .string scan str →
      scanString platform c str scan = .closed str' →
        P (enterCallback platform s.context s.parents.length s.name .string str'))
    (h : P s.context) (hfeed : feed platform s c = some s') : P s'.context := by
  rw [feed] at hfeed
  split at hfeed
  · exact handlechr_context hother h hfeed
  · next scan str hs =>
    cases hscan : scanString platform c str scan with
    | invalid => rw [hscan] at hfeed; cases hfeed
    | next scan' str' => rw [hscan] at hfeed; cases hfeed; exact h
    | closed str' =>
      rw [hscan] at hfeed
      cases hfeed
      rw [closeString]
      split
      · exact h
      · exact hclosed scan str str' hs hscan
  · next letters type str hs =>
    have htype := hliteral letters type str hs
    split at hfeed
    · cases hfeed
    · split_ifs at hfeed <;> cases hfeed
      · exact hother _ _ _ _ _ htype h
      · exact h
  · split at hfeed
    · exact handlechr_context hother (flush_context hother h) hfeed
    · cases hfeed; exact h
  · cases hfeed; exact h

private theorem handlechr_mode (hhandle : s.handlechr platform c = some s') : Fresh s'.mode := by
  rw [handlechr] at hhandle
  split_ifs at hhandle
  · cases hhandle; trivial
  · cases hhandle; trivial
  · exact (switch_cases hhandle).1

/-- A string that is read goes on, or begins. -/
theorem feed_mode
    (hliteral : ∀ letters type str, s.mode = .literal letters type str → type ≠ .string)
    (hfeed : feed platform s c = some s') :
    Fresh s'.mode ∨ ∃ scan str scan' str', s.mode = .string scan str ∧
      s'.mode = .string scan' str' ∧ scanString platform c str scan = .next scan' str' := by
  rw [feed] at hfeed
  split at hfeed
  · exact .inl (handlechr_mode hfeed)
  · next scan str hs =>
    cases hscan : scanString platform c str scan with
    | invalid => rw [hscan] at hfeed; cases hfeed
    | next scan' str' =>
      rw [hscan] at hfeed
      cases hfeed
      exact .inr ⟨scan, str, scan', str', hs, rfl, hscan⟩
    | closed str' =>
      rw [hscan] at hfeed
      cases hfeed
      rw [closeString]
      split <;> exact .inl trivial
  · next letters type str hs =>
    have htype := hliteral letters type str hs
    split at hfeed
    · cases hfeed
    · split_ifs at hfeed <;> cases hfeed
      · exact .inl trivial
      · exact .inl htype
  · split at hfeed
    · exact .inl (handlechr_mode hfeed)
    · cases hfeed; exact .inl trivial
  · next hs => cases hfeed; rw [hs]; exact .inl trivial

theorem finish_context {context : Context} (hother : Unaffected platform P) (h : P s.context)
    (hfinish : s.finish platform = some context) : P context := by
  rw [finish] at hfinish
  split at hfinish
  · cases hfinish
  · cases hfinish
  all_goals
    split at hfinish <;> cases hfinish
    exact flush_context hother h

end Inversion

theorem unaffected_within (n : Nat) : Unaffected platform (Context.Within n) :=
  fun _ depth name _ _ htype h => enterCallback_within h depth name fun hstr => absurd hstr htype

/-- The state after `n` characters. -/
structure Within (n : Nat) (s : Parser) : Prop where
  context : s.context.Within n
  string : ∀ scan str, s.mode = .string scan str → str.length + scan.read + 1 ≤ n
  literal : ∀ letters type str, s.mode = .literal letters type str → type ≠ .string

/-- One more character was read. -/
theorem Within.feed (h : s.Within n) (hfeed : feed platform s c = some s') : s'.Within (n + 1) := by
  have hcontext : s.context.Within (n + 1) := fun node hnode => (h.context node hnode).succ
  refine ⟨feed_context (unaffected_within _) h.literal ?_ hcontext hfeed, ?_, ?_⟩
  · intro scan str str' hs hclosed
    have hwithin := @scanString_within platform c str scan
    rw [hclosed] at hwithin
    have hlength : str'.length ≤ str.length + scan.read := hwithin
    have hread := h.string scan str hs
    exact enterCallback_within hcontext _ _ fun _ => by omega
  · intro scan' str' hs'
    rcases feed_mode h.literal hfeed with hfresh | ⟨scan, str, scan₁, str₁, hs, hs₁, hnext⟩
    · rw [hs'] at hfresh
      obtain ⟨rfl, rfl⟩ := hfresh
      exact Nat.le_add_left 1 n
    · cases hs'.symm.trans hs₁
      have hwithin := @scanString_within platform c str scan
      rw [hnext] at hwithin
      have hlength : str'.length + scan'.read ≤ str.length + scan.read + 1 := hwithin
      have hread := h.string scan str hs
      omega
  · intro letters type str hs'
    rcases feed_mode h.literal hfeed with hfresh | ⟨scan, str₀, scan₁, str₁, hs, hs₁, hnext⟩
    · rwa [hs'] at hfresh
    · cases hs'.symm.trans hs₁

/-- All characters of a text were read. -/
theorem within_run {t : Text} (hs : s.Within n) (hrun : run (Parser.feed platform) s t = some s') :
    s'.Within (n + t.length) := by
  induction t generalizing s n with
  | nil =>
    cases hrun
    exact hs
  | cons c t ih =>
    obtain ⟨s₁, hfeed, hrun⟩ := run_cons_eq_some.mp hrun
    have := ih (hs.feed hfeed) hrun
    rwa [List.length_cons, Nat.add_comm t.length, ← Nat.add_assoc]

end Parser

variable {t : Text}

/-- What is in a document was read from its text. -/
theorem within_of_tweakJsonParse (h : tweakJsonParse platform t = some node) :
    node.Within t.length := by
  obtain ⟨context, hparse, hdocument⟩ := Option.bind_eq_some_iff.mp h
  obtain ⟨s, hrun, hfinish⟩ := Option.bind_eq_some_iff.mp hparse
  have hinit : Parser.init.Within 0 := ⟨by rintro _ ⟨⟩, by rintro _ _ ⟨⟩, by rintro _ _ _ ⟨⟩⟩
  have hs := Parser.within_run hinit hrun
  rw [Nat.zero_add] at hs
  exact Parser.finish_context (Parser.unaffected_within _) hs.context hfinish node hdocument

theorem length_document_le (h : tweakJsonParse platform t = some (.string data)) :
    data.length + 2 ≤ t.length := (within_of_tweakJsonParse h).1 data rfl

theorem length_member_le {fields : List (Text × Node)} {name : Text}
    (h : tweakJsonParse platform t = some (.object fields))
    (hfield : (name, .string data) ∈ fields) :
    data.length + 2 ≤ t.length := (within_of_tweakJsonParse h).2 fields rfl _ hfield data rfl

end TweakTool.Json
