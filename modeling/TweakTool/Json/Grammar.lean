import TweakTool.Json.Parser

/-! # The grammar of JSON texts

RFC 8259 in two layers: a text is a list of tokens with white space around them, and the tokens are
those of a value.

The entries of a container may or may not have a label. A value of the RFC is one where those of
objects have one and those of arrays have none; the parser reads some others too. -/

namespace TweakTool.Json

open TweakTool.Lib

/-! ## Tokens -/

inductive Item where
  | plain (c : UInt8)
  | escape (c : UInt8)
  | unicode (a b c d : UInt8)
  deriving DecidableEq

namespace Item

def spelling : Item → Text
  | plain c => [c]
  | escape c => [ascii '\\', c]
  | unicode a b c d => [ascii '\\', ascii 'u', a, b, c, d]

def Valid : Item → Prop
  | plain c => 0x20 ≤ c ∧ c ≠ ascii '"' ∧ c ≠ ascii '\\'
  | escape c => c ∈ text "\"\\/bfnrt"
  | unicode a b c d => isxdigit a ∧ isxdigit b ∧ isxdigit c ∧ isxdigit d

instance : DecidablePred Valid
  | plain _ => inferInstanceAs (Decidable (_ ∧ _))
  | escape _ => inferInstanceAs (Decidable (_ ∈ _))
  | unicode _ _ _ _ => inferInstanceAs (Decidable (_ ∧ _))

def isUnicode : Item → Bool
  | unicode _ _ _ _ => true
  | _ => false

end Item

/-- The character that is written as a backslash and this one. -/
def unescaped (c : UInt8) : UInt8 :=
  if c = ascii 'b' then 8
  else if c = ascii 'f' then 12
  else if c = ascii 'n' then 10
  else if c = ascii 'r' then 13
  else if c = ascii 't' then 9
  else c

def codeUnit (a b c d : UInt8) : Nat :=
  ((hexdigit a <<< 12 ||| hexdigit b <<< 8) ||| hexdigit c <<< 4) ||| hexdigit d

def Item.meaning : Item → Text
  | plain c => [c]
  | escape c => [unescaped c]
  | unicode a b c d => codepointtoutf8 (codeUnit a b c d)

def isHigh (code : Nat) : Bool := 0xd800 ≤ code ∧ code ≤ 0xdbff

def isLow (code : Nat) : Bool := 0xdc00 ≤ code ∧ code ≤ 0xdfff

/-- What two code units stand for, the first of which is a high surrogate. -/
def surrogates (hi lo : Nat) : Text :=
  if isLow lo then codepointtoutf8 ((hi <<< 10) + lo - 56613888)
  else codepointtoutf8 hi ++ codepointtoutf8 lo

/-- What the characters between the quotation marks stand for. -/
def unescape : List Item → Text
  | .unicode a b c d :: .unicode a' b' c' d' :: items =>
    if isHigh (codeUnit a b c d) then
      surrogates (codeUnit a b c d) (codeUnit a' b' c' d') ++ unescape items
    else codepointtoutf8 (codeUnit a b c d) ++ unescape (.unicode a' b' c' d' :: items)
  | item :: items => item.meaning ++ unescape items
  | [] => []

/-- Whether the character waits for another one. -/
def Item.isHigh : Item → Bool
  | unicode a b c d => Json.isHigh (codeUnit a b c d)
  | _ => false

theorem unescape_of_not_high {items : List Item} (h : ∀ item ∈ items, item.isHigh = false) :
    unescape items = items.flatMap Item.meaning := by
  fun_induction unescape items with
  | case1 a b c d a' b' c' d' items hhigh ih =>
    exact absurd hhigh (by rw [show Json.isHigh _ = false from h _ List.mem_cons_self]; decide)
  | case2 a b c d a' b' c' d' items hhigh ih =>
    rw [ih fun item hitem => h item (List.mem_cons_of_mem _ hitem), List.flatMap_cons]
    rfl
  | case3 item items hpair ih =>
    rw [ih fun item hitem => h item (List.mem_cons_of_mem _ hitem), List.flatMap_cons]
  | case4 => rfl

theorem unescape_of_not_unicode {items : List Item} (h : ∀ item ∈ items, item.isUnicode = false) :
    unescape items = items.flatMap Item.meaning := by
  refine unescape_of_not_high fun item hitem => ?_
  cases item with
  | plain c => rfl
  | escape c => rfl
  | unicode a b c d => cases h _ hitem

inductive Leaf where
  | null
  | bool (value : Bool)
  | number (spelling : Text)
  | string (items : List Item)
  deriving DecidableEq

def boolSpelling (value : Bool) : Text := if value then text "true" else text "false"

def quoted (items : List Item) : Text :=
  ascii '"' :: (items.flatMap Item.spelling ++ [ascii '"'])

namespace Leaf

def spelling : Leaf → Text
  | null => text "null"
  | bool value => boolSpelling value
  | number spelling => spelling
  | string items => quoted items

/-- Numbers are not checked: any run of their characters will do. -/
def Valid : Leaf → Prop
  | null | bool _ => True
  | number spelling =>
    (∃ c ∈ spelling.head?, c ∈ text "-0123456789") ∧ (∀ c ∈ spelling, c ∈ numberChars) ∧
      spelling.length ≤ 127
  | string items => ∀ item ∈ items, item.Valid

def type : Leaf → JsonType
  | null => .null
  | bool _ => .bool
  | number _ => .number
  | string _ => .string

def data : Leaf → Text
  | string items => unescape items
  | leaf => leaf.spelling

end Leaf

inductive Kind where
  | array | object
  deriving DecidableEq

namespace Kind

def type : Kind → JsonType
  | array => .array
  | object => .object

def opening : Kind → UInt8
  | array => ascii '['
  | object => ascii '{'

def closing : Kind → UInt8
  | array => ascii ']'
  | object => ascii '}'

end Kind

inductive Token where
  | opening (kind : Kind)
  | closing (kind : Kind)
  | colon
  | comma
  | leaf (leaf : Leaf)
  deriving DecidableEq

namespace Token

def spelling : Token → Text
  | opening kind => [kind.opening]
  | closing kind => [kind.closing]
  | colon => [ascii ':']
  | comma => [ascii ',']
  | leaf l => l.spelling

def Valid : Token → Prop
  | leaf l => l.Valid
  | _ => True

/-- A number ends where the next character cannot belong to it. -/
def Ends : Token → Text → Prop
  | leaf (.number _), rest => ∀ c ∈ rest.head?, c ∉ numberChars
  | _, _ => True

end Token

def isSpace (c : UInt8) : Bool :=
  c = ascii ' ' ∨ c = ascii '\t' ∨ c = ascii '\n' ∨ c = ascii '\r'

/-- The text consists of these tokens, with white space around them. -/
inductive Spaced : List Token → Text → Prop
  | nil {w : Text} : w.all isSpace → Spaced [] w
  | cons {w rest : Text} {token : Token} {tokens : List Token} :
    w.all isSpace → token.Valid → token.Ends rest → Spaced tokens rest →
      Spaced (token :: tokens) (w ++ (token.spelling ++ rest))

/-! ### A text has one list of tokens -/

section Unique

/-- Where a run of characters ends does not depend on how the text is cut. -/
theorem append_inj_of_all {p : UInt8 → Bool} {w w' x x' : Text} (h : w ++ x = w' ++ x')
    (hw : w.all p) (hw' : w'.all p) (hx : ∀ c ∈ x.head?, p c = false)
    (hx' : ∀ c ∈ x'.head?, p c = false) : w = w' ∧ x = x' := by
  have hspan : ∀ {w x : Text}, w.all p → (∀ c ∈ x.head?, p c = false) →
      (w ++ x).takeWhile p = w := by
    intro w x hw hx
    rw [List.takeWhile_append_of_pos (by simpa using hw)]
    cases x with
    | nil => simp
    | cons c x => simp [hx c rfl]
  have hw : w = w' := by rw [← hspan hw hx, h, hspan hw' hx']
  subst hw
  exact ⟨rfl, List.append_cancel_left h⟩

variable {u u' : Text}

theorem Item.spelling_inj {item item' : Item} (h : item.spelling ++ u = item'.spelling ++ u')
    (hvalid : item.Valid) (hvalid' : item'.Valid) : item = item' ∧ u = u' := by
  cases item <;> cases item' <;> simp_all [Item.spelling, Item.Valid]
  grind

private theorem Item.spelling_ne_quote {item : Item} (hvalid : item.Valid) :
    item.spelling ++ u ≠ ascii '"' :: u' := by
  cases item <;> simp_all [Item.spelling, Item.Valid]

theorem flatMap_spelling_inj {items items' : List Item}
    (h : items.flatMap Item.spelling ++ ascii '"' :: u =
      items'.flatMap Item.spelling ++ ascii '"' :: u') (hvalid : ∀ item ∈ items, item.Valid)
    (hvalid' : ∀ item ∈ items', item.Valid) : items = items' ∧ u = u' := by
  induction items generalizing items' with
  | nil =>
    cases items' with
    | nil => exact ⟨rfl, (List.cons.inj h).2⟩
    | cons item' items' =>
      rw [List.flatMap_cons, List.append_assoc] at h
      exact absurd h.symm (Item.spelling_ne_quote (hvalid' item' List.mem_cons_self))
  | cons item items ih =>
    rw [List.flatMap_cons, List.append_assoc] at h
    cases items' with
    | nil => exact absurd h (Item.spelling_ne_quote (hvalid item List.mem_cons_self))
    | cons item' items' =>
      rw [List.flatMap_cons, List.append_assoc] at h
      obtain ⟨rfl, htail⟩ := Item.spelling_inj h (hvalid item List.mem_cons_self)
        (hvalid' item' List.mem_cons_self)
      obtain ⟨rfl, hu⟩ := ih htail (fun i hi => hvalid i (List.mem_cons_of_mem _ hi))
        (fun i hi => hvalid' i (List.mem_cons_of_mem _ hi))
      exact ⟨rfl, hu⟩

/-- The first character tells the tokens apart, up to the characters of strings and numbers. -/
def Token.shape : Token → Token
  | .leaf (.number _) => .leaf (.number [])
  | .leaf (.string _) => .leaf (.string [])
  | token => token

def shapeOf (c : UInt8) : Token :=
  if c = ascii '[' then .opening .array
  else if c = ascii '{' then .opening .object
  else if c = ascii ']' then .closing .array
  else if c = ascii '}' then .closing .object
  else if c = ascii ':' then .colon
  else if c = ascii ',' then .comma
  else if c = ascii 'n' then .leaf .null
  else if c = ascii 't' then .leaf (.bool true)
  else if c = ascii 'f' then .leaf (.bool false)
  else if c = ascii '"' then .leaf (.string [])
  else .leaf (.number [])

theorem Token.spelling_eq_cons {token : Token} (hvalid : token.Valid) :
    ∃ c t, token.spelling = c :: t ∧ shapeOf c = token.shape ∧ isSpace c = false := by
  cases token with
  | opening kind => cases kind <;> exact ⟨_, _, rfl, rfl, rfl⟩
  | closing kind => cases kind <;> exact ⟨_, _, rfl, rfl, rfl⟩
  | colon => exact ⟨_, _, rfl, rfl, rfl⟩
  | comma => exact ⟨_, _, rfl, rfl, rfl⟩
  | leaf leaf =>
    cases leaf with
    | null => exact ⟨_, _, rfl, rfl, rfl⟩
    | bool value => cases value <;> exact ⟨_, _, rfl, rfl, rfl⟩
    | string items => exact ⟨_, _, rfl, rfl, rfl⟩
    | number spelling =>
      obtain ⟨⟨c, hhead, hc⟩, -, -⟩ := hvalid
      obtain ⟨t, rfl⟩ := List.head?_eq_some_iff.mp hhead
      have hall : ∀ d ∈ text "-0123456789", shapeOf d = .leaf (.number []) ∧ isSpace d = false := by
        decide
      exact ⟨c, t, rfl, (hall c hc).1, (hall c hc).2⟩

private theorem Token.shape_eq {token token' : Token} (h : token.shape = token'.shape) :
    token = token' ∨ (∃ t t', token = .leaf (.number t) ∧ token' = .leaf (.number t')) ∨
      ∃ i i', token = .leaf (.string i) ∧ token' = .leaf (.string i') := by
  unfold Token.shape at h
  split at h <;> split at h <;> grind

/-- Where a token ends is certain. -/
theorem Token.spelling_inj {token token' : Token} (h : token.spelling ++ u = token'.spelling ++ u')
    (hvalid : token.Valid) (hvalid' : token'.Valid) (hends : token.Ends u)
    (hends' : token'.Ends u') : token = token' ∧ u = u' := by
  have hshape : token.shape = token'.shape := by
    obtain ⟨c, t, ht, hc, -⟩ := Token.spelling_eq_cons hvalid
    obtain ⟨c', t', ht', hc', -⟩ := Token.spelling_eq_cons hvalid'
    rw [ht, ht', List.cons_append, List.cons_append] at h
    rw [← hc, ← hc', (List.cons.inj h).1]
  rcases Token.shape_eq hshape with rfl | ⟨t, t', rfl, rfl⟩ | ⟨i, i', rfl, rfl⟩
  · exact ⟨rfl, List.append_cancel_left h⟩
  · obtain ⟨rfl, hu⟩ := @append_inj_of_all (· ∈ numberChars) t t' u u' h (by simpa using hvalid.2.1)
      (by simpa using hvalid'.2.1) (by simpa [Token.Ends] using hends)
      (by simpa [Token.Ends] using hends')
    exact ⟨rfl, hu⟩
  · simp only [Token.spelling, Leaf.spelling, quoted, List.cons_append, List.append_assoc,
      List.nil_append] at h
    obtain ⟨rfl, hu⟩ := flatMap_spelling_inj (List.cons.inj h).2 hvalid hvalid'
    exact ⟨rfl, hu⟩

variable {t : Text}

theorem spaced_nil_iff : Spaced [] t ↔ t.all isSpace := by
  constructor
  · rintro ⟨h⟩
    exact h
  · exact .nil

/-- White space, a token and the rest. -/
theorem spaced_cons_iff {token : Token} {tokens : List Token} :
    Spaced (token :: tokens) t ↔ ∃ w rest, t = w ++ (token.spelling ++ rest) ∧ w.all isSpace ∧
      token.Valid ∧ token.Ends rest ∧ Spaced tokens rest := by
  constructor
  · rintro ⟨⟩
    exact ⟨_, _, rfl, ‹_›, ‹_›, ‹_›, ‹_›⟩
  · rintro ⟨w, rest, rfl, hw, hvalid, hends, hrest⟩
    exact .cons hw hvalid hends hrest

theorem Spaced.token (token : Token) {tokens : List Token} {rest : Text} (hvalid : token.Valid)
    (hends : token.Ends rest) (h : Spaced tokens rest) :
    Spaced (token :: tokens) (token.spelling ++ rest) :=
  spaced_cons_iff.mpr ⟨[], rest, rfl, rfl, hvalid, hends, h⟩

theorem Spaced.space {tokens : List Token} {c : UInt8} (h : Spaced tokens t) (hc : isSpace c) :
    Spaced tokens (c :: t) := by
  have hall : ∀ {w : Text}, w.all isSpace → (c :: w).all isSpace := by
    intro w hw
    rw [List.all_cons, hc, hw, Bool.and_self]
  cases h with
  | nil hw => exact .nil (hall hw)
  | cons hw hvalid hends hrest => exact .cons (hall hw) hvalid hends hrest

private theorem Token.head?_spelling {token : Token} (hvalid : token.Valid) (rest : Text) :
    ∀ c ∈ (token.spelling ++ rest).head?, isSpace c = false := by
  obtain ⟨c, t, ht, -, hc⟩ := Token.spelling_eq_cons hvalid
  rw [ht]
  rintro _ ⟨⟩
  exact hc

private theorem Spaced.not_nil_cons {token : Token} {tokens : List Token} (h : Spaced [] t) :
    ¬ Spaced (token :: tokens) t := by
  rw [spaced_cons_iff]
  rintro ⟨w, rest, rfl, -, hvalid, -, -⟩
  obtain ⟨c, s, hs, -, hc⟩ := Token.spelling_eq_cons hvalid
  rw [spaced_nil_iff, hs] at h
  simp [hc] at h

/-- A text has one list of tokens. -/
theorem Spaced.unique {tokens tokens' : List Token} (h : Spaced tokens t) (h' : Spaced tokens' t) :
    tokens = tokens' := by
  induction tokens generalizing tokens' t with
  | nil =>
    cases tokens' with
    | nil => rfl
    | cons token' tokens' => exact absurd h' h.not_nil_cons
  | cons token tokens ih =>
    cases tokens' with
    | nil => exact absurd h h'.not_nil_cons
    | cons token' tokens' =>
      obtain ⟨w, rest, rfl, hw, hvalid, hends, hrest⟩ := spaced_cons_iff.mp h
      obtain ⟨w', rest', heq, hw', hvalid', hends', hrest'⟩ := spaced_cons_iff.mp h'
      have hcut := (append_inj_of_all heq hw hw' (Token.head?_spelling hvalid rest)
        (Token.head?_spelling hvalid' rest')).2
      obtain ⟨rfl, rfl⟩ := Token.spelling_inj hcut hvalid hvalid' hends hends'
      rw [ih hrest hrest']

end Unique

/-! ## Values -/

mutual

inductive Value where
  | leaf (leaf : Leaf)
  | node (kind : Kind) (entries : Entries)

inductive Entries where
  | nil
  | cons (label : Option (List Item)) (value : Value) (rest : Entries)

end

def labelTokens : Option (List Item) → List Token
  | none => []
  | some items => [.leaf (.string items), .colon]

mutual

def Value.tokens : Value → List Token
  | .leaf leaf => [.leaf leaf]
  | .node kind entries => .opening kind :: (entries.tokens [] ++ [.closing kind])

/-- The entries, with `before` in front of the first. -/
def Entries.tokens (before : List Token) : Entries → List Token
  | .nil => []
  | .cons label value rest =>
    before ++ (labelTokens label ++ (value.tokens ++ rest.tokens [.comma]))

end

/-- The text is the value, with white space around its tokens. -/
def Spells (t : Text) (value : Value) : Prop := Spaced value.tokens t

mutual

def Value.depth : Value → Nat
  | .leaf _ => 0
  | .node _ entries => entries.depth + 1

def Entries.depth : Entries → Nat
  | .nil => 0
  | .cons _ value rest => max value.depth rest.depth

end

mutual

/-- A condition on the kind of the container and the label, for every entry. -/
def Value.Labels (ok : Kind → Option (List Item) → Prop) : Value → Prop
  | .leaf _ => True
  | .node kind entries => entries.Labels ok kind

def Entries.Labels (ok : Kind → Option (List Item) → Prop) (kind : Kind) : Entries → Prop
  | .nil => True
  | .cons label value rest => ok kind label ∧ value.Labels ok ∧ rest.Labels ok kind

end

/-- A value of RFC 8259: the entries of objects have labels, those of arrays have none. -/
def Value.Rfc : Value → Prop := Value.Labels fun kind label => label.isSome ↔ kind = .object

def HasLabel (kind : Kind) (label : Option (List Item)) : Prop := kind = .object → label.isSome

/-- The entries of objects have labels. -/
def Value.Formed : Value → Prop := Value.Labels HasLabel

/-! ### Tokens have one value -/

/-- What may stand in front of the first entry. -/
def Leads (before : List Token) : Prop := before = [] ∨ before = [.comma]

/-- A value neither starts nor is followed by a colon, a comma or a closing bracket. -/
theorem Value.tokens_eq_cons (value : Value) :
    ∃ token tokens, value.tokens = token :: tokens ∧ ∀ kind, token ≠ .closing kind := by
  cases value with
  | leaf l => exact ⟨_, _, by rw [Value.tokens], by rintro _ ⟨⟩⟩
  | node kind entries => exact ⟨_, _, by rw [Value.tokens], by rintro _ ⟨⟩⟩

private theorem Entries.tokens_comma_ne_colon (rest : Entries) (kind : Kind) (r r' : List Token) :
    rest.tokens [.comma] ++ .closing kind :: r ≠ .colon :: r' := by
  cases rest with
  | nil => rw [Entries.tokens]; rintro ⟨⟩
  | cons label value rest => rw [Entries.tokens]; rintro ⟨⟩

/-- A string that is an entry of its own is not the label of another one. -/
theorem Value.tokens_ne_label (value : Value) (rest : Entries) (kind : Kind) (r r' : List Token)
    (items : List Item) :
    value.tokens ++ (rest.tokens [.comma] ++ .closing kind :: r) ≠
      labelTokens (some items) ++ r' := by
  intro h
  cases value with
  | leaf l =>
    rw [Value.tokens] at h
    exact rest.tokens_comma_ne_colon kind r r' (List.cons.inj h).2
  | node kind' entries => rw [Value.tokens] at h; cases h

private theorem Entries.closing_ne_tokens {before : List Token} (hlead : Leads before) (kind : Kind)
    (label : Option (List Item)) (value : Value) (rest : Entries) (r r' : List Token) :
    .closing kind :: r ≠ (Entries.cons label value rest).tokens before ++ r' := by
  rw [Entries.tokens]
  rcases hlead with rfl | rfl
  · cases label with
    | none =>
      obtain ⟨token, tokens, htokens, hne⟩ := value.tokens_eq_cons
      rw [htokens]
      intro h
      exact hne kind (List.cons.inj h).1.symm
    | some items => rintro ⟨⟩
  · rintro ⟨⟩

mutual

private theorem Value.tokens_inj {r r' : List Token} :
    ∀ {value value' : Value}, value.tokens ++ r = value'.tokens ++ r' → value = value' ∧ r = r'
  | .leaf _, .leaf _, h => by
    simpa [Value.tokens] using h
  | .leaf _, .node _ _, h => by simp [Value.tokens] at h
  | .node _ _, .leaf _, h => by simp [Value.tokens] at h
  | .node kind entries, .node kind' entries', h => by
    simp only [Value.tokens, List.cons_append, List.append_assoc, List.nil_append, List.cons.injEq,
      Token.opening.injEq] at h
    obtain ⟨rfl, h⟩ := h
    obtain ⟨rfl, rfl⟩ := Entries.tokens_inj (Or.inl rfl) h
    exact ⟨rfl, rfl⟩

/-- The tokens of a container tell its entries. -/
theorem Entries.tokens_inj {before : List Token} {kind : Kind} {r r' : List Token}
    (hlead : Leads before) :
    ∀ {entries entries' : Entries}, entries.tokens before ++ .closing kind :: r =
      entries'.tokens before ++ .closing kind :: r' → entries = entries' ∧ r = r'
  | .nil, .nil, h => ⟨rfl, (List.cons.inj h).2⟩
  | .nil, .cons label' value' rest', h => by
    rw [Entries.tokens, List.nil_append] at h
    exact absurd h (Entries.closing_ne_tokens hlead kind label' value' rest' _ _)
  | .cons label value rest, .nil, h => by
    rw [Entries.tokens.eq_1, List.nil_append] at h
    exact absurd h.symm (Entries.closing_ne_tokens hlead kind label value rest _ _)
  | .cons label value rest, .cons label' value' rest', h => by
    simp only [Entries.tokens, List.append_assoc, List.append_cancel_left_eq] at h
    match label, label' with
    | none, some items => exact absurd h (value.tokens_ne_label rest kind r _ items)
    | some items, none => exact absurd h.symm (value'.tokens_ne_label rest' kind r' _ items)
    | none, none =>
      obtain ⟨rfl, hrest⟩ := Value.tokens_inj h
      obtain ⟨rfl, rfl⟩ := Entries.tokens_inj (Or.inr rfl) hrest
      exact ⟨rfl, rfl⟩
    | some items, some items' =>
      simp only [labelTokens, List.cons_append, List.nil_append, List.cons.injEq, Token.leaf.injEq,
        Leaf.string.injEq, true_and] at h
      obtain ⟨rfl, hvalue⟩ := h
      obtain ⟨rfl, hrest⟩ := Value.tokens_inj hvalue
      obtain ⟨rfl, rfl⟩ := Entries.tokens_inj (Or.inr rfl) hrest
      exact ⟨rfl, rfl⟩

end

/-- A text is at most one value. -/
theorem Spells.unique {t : Text} {value value' : Value} (h : Spells t value)
    (h' : Spells t value') : value = value' := by
  have htokens : value.tokens ++ [] = value'.tokens ++ [] := by rw [Spaced.unique h h']
  exact (Value.tokens_inj htokens).1

end TweakTool.Json
