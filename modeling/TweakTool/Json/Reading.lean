import Mathlib.Data.List.ModifyLast
import TweakTool.Json.Lexer

/-! # The parser on values

The flag `iskey` is only reset by a colon. After an empty object it stays set, and in an array the
next string is then taken for a key. So the parser does not read the values of RFC 8259: whether a
string among the elements of an array is a label has to agree with the flag. -/

namespace TweakTool.Json

open TweakTool.Lib

variable {platform : Platform}

/-! ## What is read -/

mutual

/-- Whether the last empty object came after the last colon, given whether it did before. -/
def Value.staleAfter (stale : Bool) : Value → Bool
  | .leaf _ => stale
  | .node kind entries => entries.staleAfter (kind = .object || stale)

def Entries.staleAfter (stale : Bool) : Entries → Bool
  | .nil => stale
  | .cons label value rest => rest.staleAfter (value.staleAfter (label.isNone && stale))

end

mutual

/-- Among the elements of an array, the first string after an empty object, with no colon between
them, is a label, and no other string is. -/
def Value.Keyed (stale : Bool) : Value → Prop
  | .leaf (.string _) => stale = false
  | .leaf _ => True
  | .node kind entries => entries.Keyed kind (kind = .object || stale)

def Entries.Keyed (kind : Kind) (stale : Bool) : Entries → Prop
  | .nil => True
  | .cons label value rest =>
    (kind = .array → label.isSome → stale) ∧ value.Keyed (label.isNone && stale) ∧
      rest.Keyed kind (value.staleAfter (label.isNone && stale))

end

/-! ## The document -/

mutual

def Value.size : Value → Nat
  | .leaf _ => 1
  | .node _ entries => entries.size + 1

def Entries.size : Entries → Nat
  | .nil => 0
  | .cons _ value rest => value.size + rest.size

end

def labelName : Option (List Item) → Text
  | none => []
  | some items => unescape items

mutual

/-- The tree for the value, where so many nodes were created before it. -/
def Value.toNode (platform : Platform) (created : Nat) : Value → Node
  | .leaf l => createNewNode l.type l.data
  | .node kind entries => entries.addTo platform (created + 1) (createNewNode kind.type [])

def Entries.addTo (platform : Platform) (created : Nat) (node : Node) : Entries → Node
  | .nil => node
  | .cons label value rest =>
    rest.addTo platform (created + value.size)
      (addElement (labelName label) (duplicateName platform created)
        (value.toNode platform created) node)

end

/-- A node, with all that is below it, as a child of the last node at the depth above it. -/
def Context.put (platform : Platform) (context : Context) (depth : Nat) (name : Text) (node : Node)
    (size : Nat) : Context where
  document :=
    match depth with
    | 0 => some node
    | depth + 1 =>
      context.document.map
        (modifyBelow (addElement name (duplicateName platform context.created) node) depth)
  created := context.created + size

/-- The callback puts a node without children. -/
theorem enterCallback_eq_put (context : Context) (depth : Nat) (name : Text) (type : JsonType)
    (str : Text) :
    enterCallback platform context depth name type str =
      context.put platform depth name (createNewNode type str) 1 := by
  cases depth <;> rfl

theorem modifyLast_modifyLast {α : Type} {f g h : α → α} (hfg : ∀ a, g (f a) = h a) (l : List α) :
    (l.modifyLast f).modifyLast g = l.modifyLast h := by
  rcases List.eq_nil_or_concat l with rfl | ⟨l, a, rfl⟩
  · rfl
  · rw [List.concat_eq_append, List.modifyLast_concat, List.modifyLast_concat,
      List.modifyLast_concat, hfg]

/-- A change below the last child, after the change that made it. -/
theorem modifyBelow_modifyBelow {f g h : Node → Node} (hfg : ∀ n, modifyBelow g 1 (f n) = h n)
    (depth : Nat) (node : Node) :
    modifyBelow g (depth + 1) (modifyBelow f depth node) = modifyBelow h depth node := by
  induction depth generalizing node with
  | zero => exact hfg node
  | succ depth ih =>
    cases node with
    | array items =>
      simp only [modifyBelow, Node.array.injEq]
      exact modifyLast_modifyLast ih items
    | object fields =>
      simp only [modifyBelow, Node.object.injEq]
      exact modifyLast_modifyLast (fun field => by rw [ih]) fields
    | null => rfl
    | bool data => rfl
    | number data => rfl
    | string data => rfl

theorem modifyBelow_addElement (f : Node → Node) (name duplicate : Text) (child node : Node) :
    modifyBelow f 1 (addElement name duplicate child node) =
      addElement name duplicate (f child) node := by
  cases node with
  | array items => simp only [addElement, modifyBelow, List.modifyLast_concat]
  | object fields => simp only [addElement, modifyBelow, List.modifyLast_concat]
  | null => rfl
  | bool data => rfl
  | number data => rfl
  | string data => rfl

/-- A child is put below a node that was just put. -/
theorem Context.put_put (context : Context) (depth : Nat) (name name' : Text) (node child : Node)
    (size size' : Nat) :
    (context.put platform depth name node size).put platform (depth + 1) name' child size' =
      context.put platform depth name
        (addElement name' (duplicateName platform (context.created + size)) child node)
        (size + size') := by
  cases depth with
  | zero => simp [Context.put, modifyBelow, Nat.add_assoc]
  | succ depth =>
    simp only [Context.put, Option.map_map, Nat.add_assoc, Context.mk.injEq, and_true]
    congr 1
    funext n
    exact modifyBelow_modifyBelow (modifyBelow_addElement _ _ _ _) depth n

/-! ## Values are read -/

/-- What is expected where a container starts. -/
def Kind.first : Kind → Expect
  | .array => .arrayValue
  | .object => .objectString

/-- What is expected after a comma. -/
def Kind.next : Kind → Expect
  | .array => .value
  | .object => .string

namespace Parser

variable {s outer : Parser} {kind : Kind}

structure WantsValue (s : Parser) : Prop where
  mode : s.mode = .main
  expect : s.expect = .value ∨ s.expect = .arrayValue

/-- The parser after a value. -/
def after (platform : Platform) (s : Parser) (value : Value) : Parser :=
  { s with
    iskey := value.staleAfter s.iskey
    expect := .stop
    context := s.context.put platform s.parents.length s.name
      (value.toNode platform s.context.created) value.size }

/-- The parser between the brackets of a container, of which `node` is known so far. -/
def inside (platform : Platform) (outer : Parser) (kind : Kind) (node : Node) (size : Nat)
    (name : Text) (iskey : Bool) (expect : Expect) : Parser :=
  { outer with
    parents := ⟨kind.type, outer.name⟩ :: outer.parents
    name := name
    iskey := iskey
    expect := expect
    context := outer.context.put platform outer.parents.length outer.name node size }

def closed (platform : Platform) (outer : Parser) (node : Node) (size : Nat) (iskey : Bool) :
    Parser :=
  { outer with
    iskey := iskey
    expect := .stop
    context := outer.context.put platform outer.parents.length outer.name node size }

private theorem take_leaf {l : Leaf} (hs : s.WantsValue) (hkeyed : (Value.leaf l).Keyed s.iskey) :
    s.take platform (.leaf l) = some (s.after platform (.leaf l)) := by
  have hallows : s.expect.allows (.leaf l) := by
    rcases hs.expect with h | h <;> rw [h] <;> rfl
  rw [take, if_pos hallows]
  have hleaf : s.leaf platform l.type l.data = s.after platform (.leaf l) := by
    simp only [leaf, enter, enterCallback_eq_put, ← hs.mode]
    rfl
  cases l with
  | string items =>
    rw [taken, closeString, if_neg (by simpa [Value.Keyed] using hkeyed)]
    exact congrArg some hleaf
  | null => exact congrArg some hleaf
  | bool value => exact congrArg some hleaf
  | number spelling => exact congrArg some hleaf

/-- A container starts. -/
theorem take_opening (hs : s.WantsValue) (hdepth : s.parents.length + 1 < 64) :
    s.take platform (.opening kind) = some (s.inside platform kind (createNewNode kind.type []) 1 []
      (decide (kind = .object) || s.iskey) kind.first) := by
  have hallows : s.expect.allows (.opening kind) := by
    rcases hs.expect with h | h <;> rw [h] <;> rfl
  rw [take, if_pos hallows]
  cases kind <;> simp [taken, openNode, maxNodeDepth, Nat.not_le.mpr hdepth, enter,
    enterCallback_eq_put, inside, Kind.first, Kind.type]

variable {node : Node} {name : Text} {iskey : Bool}

private theorem take_closing {size : Nat} {expect : Expect}
    (hexpect : expect = kind.first ∨ expect = .stop) :
    (outer.inside platform kind node size name iskey expect).take platform (.closing kind) =
      some (outer.closed platform node size iskey) := by
  have hallows : expect.allows (.closing kind) := by
    rcases hexpect with rfl | rfl <;> cases kind <;> rfl
  exact (if_pos hallows).trans (if_pos rfl)

/-- The next entry of a container may come. -/
theorem take_comma {size : Nat} :
    (outer.inside platform kind node size name iskey .stop).take platform .comma =
      some (outer.inside platform kind node size name (decide (kind = .object) || iskey)
        kind.next) := by
  cases kind <;> rfl

/-- Where an entry may start. -/
structure EntryNext (kind : Kind) (iskey : Bool) (expect : Expect) : Prop where
  expect : expect = kind.first ∨ expect = kind.next
  iskey : kind = .object → iskey

private theorem EntryNext.allows_string {expect : Expect} (h : EntryNext kind iskey expect)
    (items : List Item) : expect.allows (.leaf (.string items)) := by
  rcases h.expect with rfl | rfl <;> cases kind <;> rfl

/-- How the tokens of further entries start: in front of the first one there is nothing. -/
def Leads (kind : Kind) (iskey : Bool) (expect : Expect) (before : List Token) : Prop :=
  before = [] ∧ expect = kind.first ∧ (kind = .object → iskey) ∨ before = [.comma] ∧ expect = .stop

theorem Leads.expect {expect : Expect} {before : List Token} (h : Leads kind iskey expect before) :
    expect = kind.first ∨ expect = .stop :=
  h.imp (fun h => h.2.1) fun h => h.2

private theorem run_lead {size : Nat} {expect : Expect} {before : List Token}
    (hlead : Leads kind iskey expect before) (tokens : List Token) :
    ∃ iskey' expect', EntryNext kind iskey' expect' ∧ (kind = .array → iskey' = iskey) ∧
      run (take platform) (outer.inside platform kind node size name iskey expect)
          (before ++ tokens) =
        run (take platform) (outer.inside platform kind node size name iskey' expect') tokens := by
  rcases hlead with ⟨rfl, rfl, hiskey⟩ | ⟨rfl, rfl⟩
  · exact ⟨iskey, kind.first, ⟨Or.inl rfl, hiskey⟩, fun _ => rfl, rfl⟩
  · refine ⟨decide (kind = .object) || iskey, kind.next, ⟨Or.inr rfl, ?_⟩, ?_,
      run_cons_of take_comma tokens⟩
    · rintro rfl
      rfl
    · rintro rfl
      rfl

/-- After the label of an entry, a value comes. -/
theorem run_label {label : Option (List Item)} {size : Nat} {expect : Expect}
    (hmode : outer.mode = .main) (hnext : EntryNext kind iskey expect)
    (hformed : kind = .object → label.isSome) (hkeyed : kind = .array → label.isSome → iskey)
    (tokens : List Token) :
    ∃ name' expect', (expect' = .value ∨ expect' = .arrayValue) ∧
      (label.isSome → name' = labelName label) ∧
      run (take platform) (outer.inside platform kind node size name iskey expect)
          (labelTokens label ++ tokens) =
        run (take platform)
          (outer.inside platform kind node size name' (label.isNone && iskey) expect') tokens := by
  cases label with
  | none =>
    have harray : kind = .array := by
      cases kind with
      | array => rfl
      | object => cases hformed rfl
    subst harray
    exact ⟨name, expect, hnext.expect.symm, by rintro ⟨⟩, rfl⟩
  | some items =>
    have hiskey : iskey = true := by
      cases kind with
      | array => exact hkeyed rfl rfl
      | object => exact hnext.iskey rfl
    refine ⟨unescape items, .value, Or.inl rfl, fun _ => rfl, ?_⟩
    have hstring : (outer.inside platform kind node size name iskey expect).take platform
        (.leaf (.string items)) =
        some (outer.inside platform kind node size (unescape items) iskey .objectKey) := by
      refine (if_pos (hnext.allows_string items)).trans ?_
      subst hiskey
      simp only [taken, closeString, inside, if_true, ← hmode]
    have hcolon : (outer.inside platform kind node size (unescape items) iskey .objectKey).take
        platform .colon =
        some (outer.inside platform kind node size (unescape items) false .value) := rfl
    exact (run_cons_of hstring _).trans (run_cons_of hcolon _)

/-- A value inside a container is added to it. -/
theorem after_inside {size : Nat} {expect : Expect} (value : Value) :
    (outer.inside platform kind node size name iskey expect).after platform value =
      outer.inside platform kind
        (addElement name (duplicateName platform (outer.context.created + size))
          (value.toNode platform (outer.context.created + size)) node)
        (size + value.size) name (value.staleAfter iskey) .stop := by
  simp only [after, inside, List.length_cons, Context.put_put, Parser.mk.injEq, true_and]
  rfl

end Parser

mutual

/-- A value that is not nested too deep is read to its end. -/
theorem Value.run_take {s : Parser} (hs : s.WantsValue) (rest : List Token) :
    ∀ value : Value, value.Formed → value.Keyed s.iskey → s.parents.length + value.depth < 64 →
      run (Parser.take platform) s (value.tokens ++ rest) =
        run (Parser.take platform) (s.after platform value) rest
  | .leaf l, _, hkeyed, _ => by
    rw [Value.tokens]
    exact run_cons_of (Parser.take_leaf hs hkeyed) rest
  | .node kind entries, hformed, hkeyed, hdepth => by
    rw [Value.depth] at hdepth
    rw [Value.tokens, List.cons_append, List.append_assoc,
      run_cons_of (Parser.take_opening hs (by omega))]
    have hlead : Parser.Leads kind (kind = .object || s.iskey) kind.first [] := by
      refine Or.inl ⟨rfl, rfl, ?_⟩
      rintro rfl
      rfl
    rw [Value.Formed, Value.Labels] at hformed
    rw [Value.Keyed] at hkeyed
    refine (Entries.run_take hs.mode [] rest hlead entries _ 1 ?_ hformed hkeyed (by omega)).trans ?_
    · rintro rfl
      exact ⟨[], rfl⟩
    · simp only [Parser.after, Parser.closed, Value.toNode, Value.size, Value.staleAfter,
        Nat.add_comm 1]

/-- So are the entries of a container. -/
theorem Entries.run_take {outer : Parser} {kind : Kind} {iskey : Bool} {expect : Expect}
    {before : List Token} (hmode : outer.mode = .main) (name : Text) (rest : List Token)
    (hlead : Parser.Leads kind iskey expect before) :
    ∀ (entries : Entries) (node : Node) (size : Nat),
      (kind = .array → ∃ items, node = .array items) →
      entries.Labels HasLabel kind →
      entries.Keyed kind iskey → outer.parents.length + 1 + entries.depth < 64 →
      run (Parser.take platform) (outer.inside platform kind node size name iskey expect)
          (entries.tokens before ++ .closing kind :: rest) =
        run (Parser.take platform) (outer.closed platform
          (entries.addTo platform (outer.context.created + size) node) (size + entries.size)
          (entries.staleAfter iskey)) rest
  | .nil, node, size, _, _, _, _ => by
    rw [Entries.tokens, List.nil_append, run_cons_of (Parser.take_closing hlead.expect)]
    rfl
  | .cons label value rest', node, size, hnode, hformed, hkeyed, hdepth => by
    rw [Entries.Labels] at hformed
    rw [Entries.Keyed] at hkeyed
    rw [Entries.depth] at hdepth
    obtain ⟨hlabel, hvalueFormed, hrestFormed⟩ := hformed
    obtain ⟨hstale, hvalueKeyed, hrestKeyed⟩ := hkeyed
    simp only [Entries.tokens, List.append_assoc]
    obtain ⟨iskey', expect', hnext, hiskey, hrun⟩ := Parser.run_lead hlead _
    rw [hrun]
    obtain ⟨name', expect'', hvalue, hname, hrun⟩ := Parser.run_label hmode hnext hlabel
      (fun hkind hsome => by rw [hiskey hkind]; exact hstale hkind hsome) _
    have harray : label = none → kind = .array := by
      rintro rfl
      cases kind with
      | array => rfl
      | object => cases hlabel rfl
    have hflag : (label.isNone && iskey') = (label.isNone && iskey) := by
      cases label with
      | none => rw [hiskey (harray rfl)]
      | some items => rfl
    have hwants : (outer.inside platform kind node size name' (label.isNone && iskey)
        expect'').WantsValue := ⟨hmode, hvalue⟩
    rw [hrun, hflag, Value.run_take hwants _ value hvalueFormed hvalueKeyed
      (by simp only [Parser.inside, List.length_cons]; omega), Parser.after_inside]
    -- the name does not matter in an array
    have hadd : ∀ duplicate child, addElement name' duplicate child node =
        addElement (labelName label) duplicate child node := by
      intro duplicate child
      cases label with
      | none =>
        obtain ⟨items, rfl⟩ := hnode (harray rfl)
        rfl
      | some items => rw [hname rfl]
    have hnode' : ∀ duplicate child, kind = .array →
        ∃ items, addElement (labelName label) duplicate child node = .array items := by
      intro duplicate child hkind
      obtain ⟨items, rfl⟩ := hnode hkind
      exact ⟨_, rfl⟩
    rw [hadd, Entries.run_take hmode name' rest (Or.inr ⟨rfl, rfl⟩) rest' _ _ (hnode' _ _)
      hrestFormed hrestKeyed (by omega)]
    simp only [Entries.addTo, Entries.size, Entries.staleAfter, Nat.add_assoc]

end

/-! ## Nothing else is read -/

private theorem Entries.tokens_comma {entries : Entries} (h : entries ≠ .nil) :
    entries.tokens [.comma] = .comma :: entries.tokens [] := by
  cases entries with
  | nil => exact absurd rfl h
  | cons label value rest => rfl

/-- In objects all strings in front of values are labels. -/
theorem Entries.Keyed.object {entries : Entries} {stale stale' : Bool}
    (h : entries.Keyed .object stale)
    (hformed : entries.Labels HasLabel .object) :
    entries.Keyed .object stale' := by
  cases entries with
  | nil => trivial
  | cons label value rest =>
    cases label with
    | none => cases hformed.1 rfl
    | some items => exact ⟨by rintro ⟨⟩, h.2⟩

namespace Parser

variable {s outer : Parser} {kind : Kind}

/-- The tokens are taken, and all containers are closed at the end. -/
def Accepts (platform : Platform) (s : Parser) (tokens : List Token) : Prop :=
  ∃ s', run (take platform) s tokens = some s' ∧ s'.parents = []

variable {tokens : List Token}

/-- The first token is an expected one. -/
theorem Accepts.cons {token : Token} (h : s.Accepts platform (token :: tokens)) :
    s.expect.allows token ∧ ∃ s', s.taken platform token = some s' ∧ s'.Accepts platform tokens := by
  obtain ⟨t, hrun, hparents⟩ := h
  obtain ⟨s', htake, hrun⟩ := run_cons_eq_some.mp hrun
  rw [take] at htake
  split at htake
  · next hallows => exact ⟨hallows, s', htake, t, hrun, hparents⟩
  · cases htake

variable {s' : Parser}

theorem Accepts.of_run {tokens' : List Token} (h : s.Accepts platform tokens)
    (hrun : run (take platform) s tokens = run (take platform) s' tokens') :
    s'.Accepts platform tokens' := by
  obtain ⟨t, ht, hparents⟩ := h
  exact ⟨t, hrun ▸ ht, hparents⟩

variable {node : Node} {name : Text} {iskey : Bool}

/-- Inside a container, more tokens have to come. -/
theorem Accepts.inside_ne_nil {size : Nat} {expect : Expect}
    (h : (outer.inside platform kind node size name iskey expect).Accepts platform tokens) :
    tokens ≠ [] := by
  rintro rfl
  obtain ⟨t, ht, hparents⟩ := h
  cases ht
  cases hparents

/-- The tokens start with a value that is read from here. -/
def StartsWithValue (s : Parser) (tokens : List Token) : Prop :=
  ∃ (value : Value) (rest : List Token), tokens = value.tokens ++ rest ∧ value.Formed ∧
    value.Keyed s.iskey ∧ s.parents.length + value.depth < 64

/-- The tokens start with the remaining entries of a container. -/
def StartsWithEntries (outer : Parser) (kind : Kind) (iskey : Bool) (expect : Expect)
    (tokens : List Token) : Prop :=
  ∃ (entries : Entries) (rest : List Token),
    tokens = entries.tokens [] ++ .closing kind :: rest ∧
    entries.Labels HasLabel kind ∧
    entries.Keyed kind iskey ∧ outer.parents.length + 1 + entries.depth < 64 ∧
    (expect = kind.next → entries ≠ .nil)

/-- Brackets match. -/
theorem taken_closing_inside {size : Nat} {expect : Expect} {kind' : Kind}
    (h : (outer.inside platform kind node size name iskey expect).taken platform (.closing kind') =
      some s') : kind' = kind := by
  cases kind <;> cases kind' <;> first | rfl | cases h

/-- After an entry, the container is closed or another entry comes. -/
theorem Accepts.entry_end {size : Nat}
    (h : (outer.inside platform kind node size name iskey .stop).Accepts platform tokens) :
    (∃ rest, tokens = .closing kind :: rest) ∨ ∃ rest, tokens = .comma :: rest ∧
      (outer.inside platform kind node size name (kind = .object || iskey) kind.next).Accepts
        platform rest := by
  match tokens with
  | [] => exact absurd rfl h.inside_ne_nil
  | .opening _ :: _ => cases h.cons.1
  | .colon :: _ => cases h.cons.1
  | .leaf _ :: _ => cases h.cons.1
  | .closing kind' :: rest =>
    obtain ⟨-, s', htaken, -⟩ := h.cons
    rw [taken_closing_inside htaken]
    exact Or.inl ⟨rest, rfl⟩
  | .comma :: rest => exact Or.inr ⟨rest, rfl, h.of_run (run_cons_of take_comma rest)⟩

/-- No token other than the first one of a value comes first. -/
def ValueFirst (s : Parser) (tokens : List Token) : Prop :=
  ∀ token ∈ tokens.head?, (∀ kind, token ≠ .closing kind) ∧
    ∀ items, token = .leaf (.string items) → s.iskey = false

/-- After a key, a value comes. -/
theorem Accepts.key {size : Nat} {expect : Expect} {items : List Item} (hmode : outer.mode = .main)
    (h : (outer.inside platform kind node size name true expect).Accepts platform
      (.leaf (.string items) :: tokens)) :
    ∃ rest, tokens = .colon :: rest ∧
      (outer.inside platform kind node size (unescape items) false .value).Accepts platform rest := by
  obtain ⟨-, s', htaken, hs'⟩ := h.cons
  have hkey : s' = outer.inside platform kind node size (unescape items) true .objectKey := by
    simp only [taken, closeString, inside, if_true, ← hmode, Option.some.injEq] at htaken
    exact htaken.symm
  subst hkey
  cases tokens with
  | nil => exact absurd rfl hs'.inside_ne_nil
  | cons token rest =>
    have hcolon : Expect.objectKey.allows token := hs'.cons.1
    cases token with
    | colon => exact ⟨rest, rfl, hs'.of_run (run_cons_of rfl rest)⟩
    | opening _ | closing _ | comma | leaf _ => cases hcolon

/-- A value comes, after a label or none. -/
def EntryStarts (platform : Platform) (outer : Parser) (kind : Kind) (node : Node) (size : Nat)
    (iskey : Bool) (tokens : List Token) : Prop :=
  ∃ label name expect rest, tokens = labelTokens label ++ rest ∧
    (kind = .object → label.isSome) ∧ (kind = .array → label.isSome → iskey) ∧
    (expect = .value ∨ expect = .arrayValue) ∧
    (outer.inside platform kind node size name (label.isNone && iskey) expect).ValueFirst rest ∧
    (outer.inside platform kind node size name (label.isNone && iskey) expect).Accepts platform rest

/-- While the flag is set, a string is a label. -/
theorem Accepts.entryStarts_key {size : Nat} {expect : Expect} {items : List Item}
    (hmode : outer.mode = .main)
    (h : (outer.inside platform kind node size name true expect).Accepts platform
      (.leaf (.string items) :: tokens)) :
    EntryStarts platform outer kind node size true (.leaf (.string items) :: tokens) := by
  obtain ⟨rest, rfl, hrest⟩ := h.key hmode
  refine ⟨some items, unescape items, .value, rest, rfl, fun _ => rfl, fun _ _ => rfl, Or.inl rfl,
    ?_, hrest⟩
  intro token htoken
  obtain ⟨tail, rfl⟩ := List.head?_eq_some_iff.mp htoken
  refine ⟨?_, fun _ _ => rfl⟩
  rintro kind' rfl
  cases hrest.cons.1

/-- Where an entry may start, the container is closed or an entry comes. -/
theorem Accepts.entry_start {size : Nat} {expect : Expect} (hmode : outer.mode = .main)
    (hnext : EntryNext kind iskey expect)
    (h : (outer.inside platform kind node size name iskey expect).Accepts platform tokens) :
    (expect = kind.first ∧ ∃ rest, tokens = .closing kind :: rest) ∨
      EntryStarts platform outer kind node size iskey tokens := by
  cases tokens with
  | nil => exact absurd rfl h.inside_ne_nil
  | cons token tokens =>
    obtain ⟨hallows, s', htaken, -⟩ := h.cons
    replace hallows : expect.allows token := hallows
    cases kind with
    | object =>
      obtain rfl : iskey = true := hnext.iskey rfl -- in an object every entry has a label
      rcases hnext.expect with rfl | rfl
      · match token with
        | .closing .object => exact Or.inl ⟨rfl, tokens, rfl⟩
        | .leaf (.string items) => exact Or.inr (h.entryStarts_key hmode)
      · match token with
        | .leaf (.string items) => exact Or.inr (h.entryStarts_key hmode)
    | array =>
      have hbare : (outer.inside platform .array node size name iskey expect).ValueFirst
          (token :: tokens) → EntryStarts platform outer .array node size iskey (token :: tokens) :=
        fun hfirst => ⟨none, name, expect, _, rfl, by rintro ⟨⟩, by rintro - ⟨⟩,
          hnext.expect.symm, hfirst, h⟩
      match token with
      | .colon => rcases hnext.expect with rfl | rfl <;> cases hallows
      | .comma => rcases hnext.expect with rfl | rfl <;> cases hallows
      | .closing kind' =>
        obtain rfl := taken_closing_inside htaken
        rcases hnext.expect with rfl | rfl
        · exact Or.inl ⟨rfl, tokens, rfl⟩
        · cases hallows
      | .opening kind' =>
        refine Or.inr (hbare ?_)
        rintro _ ⟨⟩
        exact ⟨by rintro _ ⟨⟩, by rintro _ ⟨⟩⟩
      | .leaf l =>
        cases iskey with -- left over from an empty object, it makes a string a label
        | false =>
          refine Or.inr (hbare ?_)
          rintro _ ⟨⟩
          exact ⟨by rintro _ ⟨⟩, fun _ _ => rfl⟩
        | true =>
          by_cases hstring : ∃ items, l = .string items
          · obtain ⟨items, rfl⟩ := hstring
            exact Or.inr (h.entryStarts_key hmode)
          · refine Or.inr (hbare ?_)
            rintro _ ⟨⟩
            exact ⟨by rintro _ ⟨⟩, fun items hitems => absurd ⟨items, by cases hitems; rfl⟩ hstring⟩

/-- Up to so many accepted tokens start with a value where one is expected. -/
def ReadsValues (platform : Platform) (n : Nat) : Prop :=
  ∀ {s : Parser} {tokens : List Token}, tokens.length ≤ n → s.WantsValue → s.parents.length < 64 →
    tokens ≠ [] → s.ValueFirst tokens → s.Accepts platform tokens → s.StartsWithValue tokens

/-- Up to so many accepted tokens start with the remaining entries inside a container. -/
def ReadsEntries (platform : Platform) (n : Nat) : Prop :=
  ∀ {outer : Parser} {kind : Kind} {node : Node} {size : Nat} {name : Text} {iskey : Bool}
    {expect : Expect} {tokens : List Token}, tokens.length ≤ n → outer.mode = .main →
    EntryNext kind iskey expect → outer.parents.length + 1 < 64 →
    (outer.inside platform kind node size name iskey expect).Accepts platform tokens →
    outer.StartsWithEntries kind iskey expect tokens

private theorem taken_opening_depth (h : s.taken platform (.opening kind) = some s') :
    s.parents.length + 1 < 64 := by
  by_contra hdeep
  have hmax : maxNodeDepth ≤ s.parents.length + 1 := Nat.not_lt.mp hdeep
  cases kind <;> simp [taken, openNode, hmax] at h

/-- A value is a leaf, or a container with shorter entries. -/
theorem readsValues_succ {n : Nat} (ih : ReadsEntries platform n) : ReadsValues platform (n + 1) := by
  intro s tokens hlength hs hparents hne hfirst h
  cases tokens with
  | nil => exact absurd rfl hne
  | cons token tokens =>
    obtain ⟨hallows, s', htaken, -⟩ := h.cons
    match token with
    | .colon => rcases hs.expect with hexpect | hexpect <;> rw [hexpect] at hallows <;> cases hallows
    | .comma => rcases hs.expect with hexpect | hexpect <;> rw [hexpect] at hallows <;> cases hallows
    | .closing kind => exact absurd rfl ((hfirst _ rfl).1 kind)
    | .leaf l =>
      refine ⟨.leaf l, tokens, by rw [Value.tokens]; rfl, trivial, ?_, hparents⟩
      cases l with
      | string items => exact (hfirst _ rfl).2 items rfl
      | null => trivial
      | bool value => trivial
      | number spelling => trivial
    | .opening kind =>
      have hdepth := taken_opening_depth htaken
      have hinside := h.of_run (run_cons_of (take_opening hs hdepth) tokens)
      have hnext : EntryNext kind (kind = .object || s.iskey) kind.first := by
        refine ⟨Or.inl rfl, ?_⟩
        rintro rfl
        rfl
      obtain ⟨entries, rest, rfl, hformed, hkeyed, hdepth, -⟩ :=
        ih (Nat.le_of_succ_le_succ hlength) hs.mode hnext hdepth hinside
      refine ⟨.node kind entries, rest, ?_, hformed, hkeyed, ?_⟩
      · rw [Value.tokens, List.cons_append, List.append_assoc]
        rfl
      · rw [Value.depth]
        omega

private theorem readsEntries_succ {n : Nat} (hvalues : ReadsValues platform (n + 1))
    (ih : ReadsEntries platform n) : ReadsEntries platform (n + 1) := by
  intro outer kind node size name iskey expect tokens hlength hmode hnext hdepth h
  rcases h.entry_start hmode hnext with ⟨rfl, rest, rfl⟩ | hentry
  · exact ⟨.nil, rest, rfl, trivial, trivial, hdepth, by cases kind <;> rintro ⟨⟩⟩
  · obtain ⟨label, name', expect', rest, rfl, hlabel, hstale, hvalue, hfirst, hrest⟩ := hentry
    rw [List.length_append] at hlength
    have hwants : (outer.inside platform kind node size name' (label.isNone && iskey)
        expect').WantsValue := ⟨hmode, hvalue⟩
    obtain ⟨value, rest', rfl, hformed, hkeyed, hdepth'⟩ := hvalues (by omega) hwants hdepth
      hrest.inside_ne_nil hfirst hrest
    have hafter := hrest.of_run (Value.run_take hwants rest' value hformed hkeyed hdepth')
    rw [after_inside] at hafter
    rw [List.length_append] at hlength
    have hdepth'' : outer.parents.length + 1 + value.depth < 64 := hdepth'
    rcases hafter.entry_end with ⟨rest, rfl⟩ | ⟨rest, rfl, hmore⟩
    · refine ⟨.cons label value .nil, rest, ?_, ⟨hlabel, hformed, trivial⟩, ⟨hstale, hkeyed, trivial⟩,
        ?_, by rintro - ⟨⟩⟩
      · simp only [Entries.tokens, List.nil_append, List.append_nil, List.append_assoc]
      · simpa only [Entries.depth, Nat.max_zero] using hdepth''
    · have hnext' : EntryNext kind (kind = .object || value.staleAfter (label.isNone && iskey))
          kind.next := by
        refine ⟨Or.inr rfl, ?_⟩
        rintro rfl
        rfl
      rw [List.length_cons] at hlength
      obtain ⟨entries, rest, rfl, hformed', hkeyed', hdepth', hne⟩ :=
        ih (by omega) hmode hnext' hdepth hmore
      have hkeyed'' : entries.Keyed kind (value.staleAfter (label.isNone && iskey)) := by
        cases kind with
        | array => exact hkeyed'
        | object => exact hkeyed'.object hformed'
      refine ⟨.cons label value entries, rest, ?_, ⟨hlabel, hformed, hformed'⟩,
        ⟨hstale, hkeyed, hkeyed''⟩, ?_, by rintro - ⟨⟩⟩
      · simp only [Entries.tokens, Entries.tokens_comma (hne rfl), List.nil_append,
          List.append_assoc, List.cons_append]
      · rw [Entries.depth]
        omega

/-- Accepted tokens start with a value. -/
theorem readsValues (n : Nat) : ReadsValues platform n := by
  have hboth : ∀ n, ReadsValues platform n ∧ ReadsEntries platform n := by
    intro n
    induction n with
    | zero =>
      constructor
      · intro s tokens hlength hs hparents hne
        exact absurd (List.eq_nil_of_length_eq_zero (Nat.le_zero.mp hlength)) hne
      · intro outer kind node size name iskey expect tokens hlength hmode hnext hdepth h
        exact absurd (List.eq_nil_of_length_eq_zero (Nat.le_zero.mp hlength)) h.inside_ne_nil
    | succ n ih => exact ⟨readsValues_succ ih.2, readsEntries_succ (readsValues_succ ih.2) ih.2⟩
  intro s tokens
  exact (hboth n).1

/-- After the document, nothing more comes. -/
theorem Accepts.eq_nil (h : s.Accepts platform tokens) (hparents : s.parents = [])
    (hexpect : s.expect = .stop) : tokens = [] := by
  cases tokens with
  | nil => rfl
  | cons token tokens =>
    obtain ⟨hallows, s', htaken, -⟩ := h.cons
    rw [hexpect] at hallows
    cases token with
    | opening kind => cases hallows
    | colon => cases hallows
    | leaf l => cases hallows
    | closing kind => simp [taken, closeNode, hparents] at htaken
    | comma => simp [taken, comma, hparents] at htaken

private theorem finish_eq_some {context : Context} (h : s.finish platform = some context) :
    s.parents = [] := by
  rw [finish] at h
  split at h
  · cases h
  · cases h
  all_goals
    split at h
    · assumption
    · cases h

end Parser

private theorem Parser.wantsValue_init : Parser.init.WantsValue := ⟨rfl, Or.inl rfl⟩

/-- The document of a value. -/
theorem run_take_value {value : Value} (hformed : value.Formed) (hkeyed : value.Keyed false)
    (hdepth : value.depth < 64) :
    (run (Parser.take platform) .init value.tokens).bind (Parser.finish platform) =
      some ⟨some (value.toNode platform 0), value.size⟩ := by
  have hrun := @Value.run_take platform _ Parser.wantsValue_init [] value hformed hkeyed
    (by simpa [Parser.init] using hdepth)
  rw [List.append_nil] at hrun
  rw [hrun]
  simp [Parser.finish, Parser.flush, Parser.after, Parser.init, Context.put]

private theorem eq_tokens_of_run_take {tokens : List Token} {s : Parser}
    (h : run (Parser.take platform) .init tokens = some s) (hparents : s.parents = [])
    (hne : tokens ≠ []) :
    ∃ value : Value, tokens = value.tokens ∧ value.Formed ∧ value.Keyed false ∧ value.depth < 64 := by
  have haccepts : Parser.init.Accepts platform tokens := ⟨s, h, hparents⟩
  have hfirst : Parser.init.ValueFirst tokens := by
    intro token htoken
    obtain ⟨rest, rfl⟩ := List.head?_eq_some_iff.mp htoken
    refine ⟨?_, fun _ _ => rfl⟩
    rintro kind rfl
    cases haccepts.cons.1
  obtain ⟨value, rest, rfl, hformed, hkeyed, hdepth⟩ := Parser.readsValues tokens.length
    (Nat.le_refl _) Parser.wantsValue_init (by decide) hne hfirst haccepts
  have hafter := haccepts.of_run
    (Value.run_take Parser.wantsValue_init rest value hformed hkeyed hdepth)
  rw [hafter.eq_nil rfl rfl, List.append_nil]
  exact ⟨value, rfl, hformed, hkeyed, by simpa [Parser.init] using hdepth⟩

/-- What the parser accepts, and the document it returns. -/
theorem tweakJsonParse_eq_some_iff {t : Text} {document : Node}
    (hreads : ∀ c ∈ t, platform.Reads c) :
    tweakJsonParse platform t = some document ↔ ∃ value, Spells t value ∧ value.Formed ∧
      value.Keyed false ∧ value.depth < 64 ∧ document = value.toNode platform 0 := by
  constructor
  · intro h
    obtain ⟨context, hparse, hdocument⟩ := Option.bind_eq_some_iff.mp h
    obtain ⟨tokens, hspaced, hrun⟩ := (parsejson_eq_some_iff hreads).mp hparse
    obtain ⟨s, hs, hfinish⟩ := Option.bind_eq_some_iff.mp hrun
    have hne : tokens ≠ [] := by
      rintro rfl
      cases hs
      cases hfinish
      cases hdocument
    obtain ⟨value, rfl, hformed, hkeyed, hdepth⟩ :=
      eq_tokens_of_run_take hs (Parser.finish_eq_some hfinish) hne
    rw [run_take_value hformed hkeyed hdepth, Option.some.injEq] at hrun
    subst hrun
    cases hdocument
    exact ⟨value, hspaced, hformed, hkeyed, hdepth, rfl⟩
  · rintro ⟨value, hspells, hformed, hkeyed, hdepth, rfl⟩
    rw [tweakJsonParse, (parsejson_eq_some_iff hreads).mpr
      ⟨value.tokens, hspells, run_take_value hformed hkeyed hdepth⟩]
    rfl

end TweakTool.Json
