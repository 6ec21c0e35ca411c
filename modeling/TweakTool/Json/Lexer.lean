import TweakTool.Json.Grammar

/-! # The parser on tokens

What the loop does with the characters of a token, as one step. A text that the parser accepts is a
list of tokens, and what comes of it is what comes of them. -/

namespace TweakTool.Json

open TweakTool.Lib

variable {platform : Platform}

/-- The character is not taken for the end of the text or for a control character. -/
def Platform.Reads (platform : Platform) (c : UInt8) : Prop :=
  c ≠ 0 ∧ (platform.signed → c < 128)

variable {c : UInt8}

theorem getnext_eq (h : platform.Reads c) : platform.getnext c = c.toNat := by
  have hsmall : ¬ (platform.signed ∧ 128 ≤ c.toNat) := by
    rintro ⟨hsigned, hc⟩
    have := UInt8.lt_iff_toNat_lt.mp (h.2 hsigned)
    exact absurd this (Nat.not_lt.mpr hc)
  rw [Platform.getnext, if_neg h.1, if_neg hsmall]

theorem getnext_ne_end (h : platform.Reads c) : platform.getnext c ≠ -1 := by
  rw [getnext_eq h]
  omega

/-- A character of RFC 8259 that has a role of its own. -/
theorem reads_of_lt (h : c ≠ 0 ∧ c < 128) : platform.Reads c := ⟨h.1, fun _ => h.2⟩

theorem not_control (h : platform.Reads c) (hc : 0x20 ≤ c) : ¬ platform.getnext c < 0x20 := by
  have := UInt8.le_iff_toNat_le.mp hc
  rw [getnext_eq h, Int.not_lt]
  exact_mod_cast this

def Expect.allows : Expect → Token → Bool
  | .value, .opening _ | .value, .leaf _ => true
  | .arrayValue, .opening _ | .arrayValue, .leaf _ | .arrayValue, .closing .array => true
  | .string, .leaf (.string _) => true
  | .objectString, .leaf (.string _) | .objectString, .closing .object => true
  | .objectKey, .colon => true
  | .stop, .closing _ | .stop, .comma => true
  | _, _ => false

namespace Parser

variable {s : Parser}

/-- What the parser returns for the rest of a text. -/
def outcome (platform : Platform) (s : Parser) (t : Text) : Option Context :=
  (run (feed platform) s t).bind (finish platform)

theorem outcome_cons (c : UInt8) (t : Text) :
    outcome platform s (c :: t) = (feed platform s c).bind (outcome platform · t) := by
  rw [outcome, run_cons, Option.bind_assoc]
  rfl

variable {c : UInt8} {s' : Parser} {t : Text}

/-- The parser takes a character. -/
theorem outcome_cons_of (h : feed platform s c = some s') :
    outcome platform s (c :: t) = outcome platform s' t := by
  rw [outcome_cons, h]
  rfl

theorem outcome_append_of {u : Text} (h : run (feed platform) s t = some s') :
    outcome platform s (t ++ u) = outcome platform s' u := by
  rw [outcome, run_append, h]
  rfl

/-! ## Strings -/

/-- In a string, with what was read of it. -/
abbrev scanning (s : Parser) (scan : Scan) (str : Text) : Parser :=
  { s with mode := .string scan str }

variable {str str' : Text} {scan : Scan} {scan' : Scan}

/-- A character inside a string. -/
theorem outcome_scan (h : scanString platform c str scan = .next scan' str') :
    outcome platform (s.scanning scan str) (c :: t) = outcome platform (s.scanning scan' str') t := by
  apply outcome_cons_of
  simp only [feed, h, scanned]

private theorem outcome_closed (h : scanString platform c str scan = .closed str') :
    outcome platform (s.scanning scan str) (c :: t) =
      outcome platform (s.closeString platform str') t := by
  apply outcome_cons_of
  simp only [feed, h, scanned]
  rfl

theorem scanString_plain (hc : platform.Reads c) (hvalid : (Item.plain c).Valid) :
    scanString platform c str .plain = .next .plain (str ++ [c]) := by
  rw [scanString, chr, if_neg (not_control hc hvalid.1), if_neg hvalid.2.2, if_neg hvalid.2.1]

theorem scanString_backslash : scanString platform (ascii '\\') str .plain = .next .escape str := by
  rw [scanString, chr, if_neg (not_control (reads_of_lt (by decide)) (by decide)), if_pos rfl]

theorem scanString_quote : scanString platform (ascii '"') str .plain = .closed str := by
  rw [scanString, chr, if_neg (not_control (reads_of_lt (by decide)) (by decide)),
    if_neg (by decide), if_pos rfl]

theorem escchr_eq (hvalid : (Item.escape c).Valid) :
    escchr c str = .next .plain (str ++ [unescaped c]) := by
  simp [Item.Valid] at hvalid
  rcases hvalid with rfl | rfl | rfl | rfl | rfl | rfl | rfl | rfl <;> rfl

theorem scanString_escape (hvalid : (Item.escape c).Valid) :
    scanString platform c str .escape = .next .plain (str ++ [unescaped c]) := by
  have hall : ∀ d ∈ text "\"\\/bfnrt", (d ≠ 0 ∧ d < 128) ∧ 0x20 ≤ d := by decide
  have hc := hall c hvalid
  rw [scanString, if_neg (not_control (reads_of_lt hc.1) hc.2), escchr_eq hvalid]

variable {i : Nat} {cp : Nat}

theorem scanString_hex (hc : isxdigit c) (hi : i ≠ 0) :
    scanString platform c str (.hex i cp) = .next (.hex (i - 4) (cp ||| hexdigit c <<< i)) str := by
  simp [scanString, hc, hi]

variable {hi : Nat} {lo : Nat}

theorem scanString_low (hc : isxdigit c) (hi' : i ≠ 0) :
    scanString platform c str (.low hi i lo) =
      .next (.low hi (i - 4) (lo ||| hexdigit c <<< i)) str := by
  simp [scanString, hc, hi']

/-- The four digits of a code unit. -/
theorem codeUnit_eq (a b c d : UInt8) :
    (((0 ||| hexdigit a <<< 12) ||| hexdigit b <<< 8) ||| hexdigit c <<< 4) ||| hexdigit d <<< 0 =
      codeUnit a b c d := by
  rw [codeUnit, Nat.zero_or, Nat.shiftLeft_zero]

variable {a b d : UInt8}

/-- A code unit is kept back if it is a high surrogate. -/
theorem outcome_unicode (hvalid : (Item.unicode a b c d).Valid) :
    outcome platform (s.scanning .plain str) ((Item.unicode a b c d).spelling ++ t) =
      if isHigh (codeUnit a b c d) then
        outcome platform (s.scanning (.high (codeUnit a b c d)) str) t
      else outcome platform (s.scanning .plain (str ++ (Item.unicode a b c d).meaning)) t := by
  obtain ⟨ha, hb, hc, hd⟩ := hvalid
  have hu : scanString platform (ascii 'u') str .escape = .next (.hex 12 0) str := by
    rw [scanString, if_neg (not_control (reads_of_lt (by decide)) (by decide))]
    rfl
  have hlast : ∀ cp, scanString platform d str (.hex 0 cp) =
      if isHigh (cp ||| hexdigit d <<< 0) then .next (.high (cp ||| hexdigit d <<< 0)) str
      else .next .plain (str ++ codepointtoutf8 (cp ||| hexdigit d <<< 0)) := by
    intro cp
    simp [scanString, codePoint, hd, isHigh]
  simp only [Item.spelling, List.cons_append, List.nil_append]
  rw [outcome_scan scanString_backslash, outcome_scan hu, outcome_scan (scanString_hex ha (by decide)),
    outcome_scan (scanString_hex hb (by decide)), outcome_scan (scanString_hex hc (by decide))]
  have hcode := hlast (((0 ||| hexdigit a <<< 12) ||| hexdigit b <<< 8) ||| hexdigit c <<< 4)
  rw [codeUnit_eq] at hcode
  by_cases hhigh : isHigh (codeUnit a b c d)
  · rw [if_pos hhigh] at hcode ⊢
    exact outcome_scan hcode
  · rw [if_neg hhigh] at hcode ⊢
    exact outcome_scan hcode

theorem scanString_high_backslash :
    scanString platform (ascii '\\') str (.high hi) = .next (.highEscape hi) str := rfl

private theorem outcome_surrogates (hvalid : (Item.unicode a b c d).Valid) :
    outcome platform (s.scanning (.high hi) str) ((Item.unicode a b c d).spelling ++ t) =
      outcome platform (s.scanning .plain (str ++ surrogates hi (codeUnit a b c d))) t := by
  obtain ⟨ha, hb, hc, hd⟩ := hvalid
  have hu : scanString platform (ascii 'u') str (.highEscape hi) = .next (.low hi 12 0) str := rfl
  have hlast : ∀ lo, scanString platform d str (.low hi 0 lo) =
      .next .plain (str ++ surrogates hi (lo ||| hexdigit d <<< 0)) := by
    intro lo
    simp [scanString, surrogatePair, hd, surrogates, isLow]
    split <;> simp_all
  simp only [Item.spelling, List.cons_append, List.nil_append]
  rw [outcome_scan scanString_high_backslash, outcome_scan hu,
    outcome_scan (scanString_low ha (by decide)), outcome_scan (scanString_low hb (by decide)),
    outcome_scan (scanString_low hc (by decide)), outcome_scan (hlast _), codeUnit_eq]

private theorem outcome_high (hc : c ≠ ascii '\\') :
    outcome platform (s.scanning (.high hi) str) (c :: t) =
      outcome platform (s.scanning .plain (str ++ codepointtoutf8 hi)) (c :: t) := by
  have hsame : scanString platform c str (.high hi) =
      scanString platform c (str ++ codepointtoutf8 hi) .plain := if_pos hc
  rw [outcome_cons, outcome_cons]
  simp only [feed, hsame]
  rfl

theorem outcome_escape (hvalid : (Item.escape c).Valid) :
    outcome platform (s.scanning .plain str) ((Item.escape c).spelling ++ t) =
      outcome platform (s.scanning .plain (str ++ [unescaped c])) t :=
  (outcome_scan scanString_backslash).trans (outcome_scan (scanString_escape hvalid))

private theorem outcome_high_escape (hvalid : (Item.escape c).Valid) :
    outcome platform (s.scanning (.high hi) str) ((Item.escape c).spelling ++ t) =
      outcome platform (s.scanning .plain (str ++ codepointtoutf8 hi))
        ((Item.escape c).spelling ++ t) := by
  have hall : ∀ d ∈ text "\"\\/bfnrt", d ≠ ascii 'u' := by decide
  have hc : scanString platform c str (.highEscape hi) =
      .next .plain (str ++ codepointtoutf8 hi ++ [unescaped c]) := by
    rw [scanString, if_pos (hall c hvalid), escchr_eq hvalid]
  rw [outcome_escape hvalid]
  exact (outcome_scan scanString_high_backslash).trans (outcome_scan hc)

/-- Any other character is complete at its end. -/
theorem outcome_item {item : Item} (hvalid : item.Valid)
    (hreads : ∀ c ∈ item.spelling, platform.Reads c) (hhigh : item.isHigh = false) :
    outcome platform (s.scanning .plain str) (item.spelling ++ t) =
      outcome platform (s.scanning .plain (str ++ item.meaning)) t := by
  cases item with
  | plain c => exact outcome_scan (scanString_plain (hreads c List.mem_cons_self) hvalid)
  | escape c => exact outcome_escape hvalid
  | unicode a b c d =>
    rw [outcome_unicode hvalid, if_neg (by rw [show isHigh _ = false from hhigh]; decide)]

variable {items : List Item}

/-- The characters of a string are appended by their meaning. -/
theorem outcome_items_append (hvalid : ∀ item ∈ items, item.Valid)
    (hreads : ∀ c ∈ items.flatMap Item.spelling, platform.Reads c)
    (hhigh : ∀ item ∈ items, item.isHigh = false) :
    outcome platform (s.scanning .plain str) (items.flatMap Item.spelling ++ t) =
      outcome platform (s.scanning .plain (str ++ items.flatMap Item.meaning)) t := by
  induction items generalizing str with
  | nil => rw [List.flatMap_nil, List.flatMap_nil, List.append_nil, List.nil_append]
  | cons item items ih =>
    rw [List.flatMap_cons] at hreads
    rw [List.flatMap_cons, List.flatMap_cons, List.append_assoc,
      outcome_item (hvalid item List.mem_cons_self)
        (fun c hc => hreads c (List.mem_append_left _ hc)) (hhigh item List.mem_cons_self),
      ih (fun i hi => hvalid i (List.mem_cons_of_mem _ hi))
        (fun c hc => hreads c (List.mem_append_right _ hc))
        (fun i hi => hhigh i (List.mem_cons_of_mem _ hi)), List.append_assoc]

/-- A high surrogate that no other code unit follows stands for itself. -/
theorem outcome_high_alone (hvalid : ∀ item ∈ items, item.Valid)
    (halone : ∀ item ∈ items.head?, item.isUnicode = false) :
    outcome platform (s.scanning (.high hi) str) (items.flatMap Item.spelling ++ ascii '"' :: t) =
      outcome platform (s.scanning .plain (str ++ codepointtoutf8 hi))
        (items.flatMap Item.spelling ++ ascii '"' :: t) := by
  cases items with
  | nil => exact outcome_high (by decide)
  | cons item items =>
    have hitem := hvalid item List.mem_cons_self
    rw [List.flatMap_cons, List.append_assoc]
    cases item with
    | plain c => exact outcome_high hitem.2.2
    | escape c => exact outcome_high_escape hitem
    | unicode a b c d => cases halone _ rfl

/-- The characters of a string up to its closing quotation mark. -/
theorem outcome_items (hvalid : ∀ item ∈ items, item.Valid)
    (hreads : ∀ c ∈ items.flatMap Item.spelling, platform.Reads c) :
    outcome platform (s.scanning .plain str) (items.flatMap Item.spelling ++ ascii '"' :: t) =
      outcome platform (s.closeString platform (str ++ unescape items)) t := by
  fun_induction unescape items generalizing str with
  | case1 a b c d a' b' c' d' items hhigh ih =>
    rw [List.flatMap_cons, List.flatMap_cons, List.append_assoc, List.append_assoc,
      outcome_unicode (hvalid _ (by simp)), if_pos hhigh, outcome_surrogates (hvalid _ (by simp)),
      ih (fun i hi => hvalid i (by simp [hi])) (fun x hx => hreads x (by simp [hx])),
      List.append_assoc]
  | case2 a b c d a' b' c' d' items hhigh ih =>
    rw [List.flatMap_cons, List.append_assoc, outcome_unicode (hvalid _ (by simp)), if_neg hhigh,
      ih (fun i hi => hvalid i (List.mem_cons_of_mem _ hi))
        (fun x hx => hreads x (by rw [List.flatMap_cons]; exact List.mem_append_right _ hx)),
      List.append_assoc]
    rfl
  | case3 item items hpair ih =>
    have htail := @ih (str ++ item.meaning) (fun i hi => hvalid i (List.mem_cons_of_mem _ hi))
      (fun x hx => hreads x (by rw [List.flatMap_cons]; exact List.mem_append_right _ hx))
    rw [List.append_assoc] at htail
    rw [← htail, List.flatMap_cons, List.append_assoc]
    have hitem := hvalid item List.mem_cons_self
    cases item with
    | plain c => exact outcome_scan (scanString_plain (hreads c (by simp [Item.spelling])) hitem)
    | escape c => exact outcome_escape hitem
    | unicode a b c d =>
      rw [outcome_unicode hitem]
      split
      · refine outcome_high_alone (fun i hi => hvalid i (List.mem_cons_of_mem _ hi)) ?_
        intro next hnext
        obtain ⟨tail, rfl⟩ := List.head?_eq_some_iff.mp hnext
        cases next with
        | plain c' => rfl
        | escape c' => rfl
        | unicode a' b' c' d' => exact (hpair _ _ _ _ _ _ _ _ _ rfl rfl).elim
      · rfl
  | case4 =>
    rw [List.append_nil]
    exact outcome_closed scanString_quote

/-! ## Other values -/

variable {type : JsonType} {letters : Text}

private theorem outcome_literal (hne : letters ≠ []) :
    outcome platform { s with mode := .literal letters type str } (letters ++ t) =
      outcome platform (s.leaf platform type str) t := by
  induction letters with
  | nil => exact absurd rfl hne
  | cons letter letters ih =>
    rw [List.cons_append]
    by_cases hlast : letters = []
    · subst hlast
      exact outcome_cons_of (by simp [feed]; rfl)
    · rw [← ih hlast]
      exact outcome_cons_of (by simp [feed, hlast])

private theorem not_mem_stop (h : c ∈ numberChars) : c ∉ Expect.stop.chars ∧ isSpace c = false :=
  have hall : ∀ d ∈ numberChars, d ∉ Expect.stop.chars ∧ isSpace d = false := by decide
  hall c h

theorem reads_numberChars (h : c ∈ numberChars) : platform.Reads c :=
  have hall : ∀ d ∈ numberChars, d ≠ 0 ∧ d < 128 := by decide
  reads_of_lt (hall c h)

abbrev counting (s : Parser) (pri : Text) : Parser := { s with mode := .number pri }

variable {pri rest : Text}

/-- The characters of a number are collected. -/
theorem outcome_counting (ht : ∀ c ∈ t, c ∈ numberChars) (hlength : pri.length + t.length ≤ 127) :
    outcome platform (s.counting pri) (t ++ rest) = outcome platform (s.counting (pri ++ t)) rest := by
  induction t generalizing pri with
  | nil => rw [List.append_nil, List.nil_append]
  | cons c t ih =>
    have hc := ht c List.mem_cons_self
    rw [List.length_cons] at hlength
    rw [List.cons_append, List.append_cons, ← ih (fun d hd => ht d (List.mem_cons_of_mem _ hd))
      (by rw [List.length_append, List.length_singleton]; omega)]
    refine outcome_cons_of (if_neg ?_)
    rintro (h | h | h)
    · exact getnext_ne_end (reads_numberChars hc) h
    · exact h hc
    · omega

/-- A number is complete when the text ends or goes on with another character. -/
theorem outcome_counted (hends : ∀ c ∈ rest.head?, c ∉ numberChars) :
    outcome platform (s.counting pri) rest = outcome platform (s.leaf platform .number pri) rest := by
  cases rest with
  | nil => rfl
  | cons c rest =>
    rw [outcome_cons, outcome_cons]
    congr 1
    exact if_pos (Or.inr (Or.inl (hends c rfl)))

/-! ## Tokens -/

def taken (platform : Platform) (s : Parser) : Token → Option Parser
  | .opening .array => s.openNode platform .array s.iskey .arrayValue
  | .opening .object => s.openNode platform .object true .objectString
  | .closing kind => s.closeNode kind.type
  | .colon => some { s with iskey := false, expect := .value }
  | .comma => s.comma
  | .leaf (.string items) => some (s.closeString platform (unescape items))
  | .leaf l => some (s.leaf platform l.type l.data)

/-- What the loop does with a token. -/
def take (platform : Platform) (s : Parser) (token : Token) : Option Parser :=
  if s.expect.allows token then s.taken platform token else none

variable {token : Token}

/-- The first character of a token is expected exactly if the token is. -/
theorem mem_chars_iff (hvalid : token.Valid) (hspelling : token.spelling = c :: t) (e : Expect) :
    c ∈ e.chars ↔ e.allows token := by
  cases token with
  | opening kind => cases kind <;> cases hspelling <;> cases e <;> decide
  | closing kind => cases kind <;> cases hspelling <;> cases e <;> decide
  | colon => cases hspelling; cases e <;> decide
  | comma => cases hspelling; cases e <;> decide
  | leaf leaf =>
    cases leaf with
    | null => cases hspelling; cases e <;> decide
    | bool value => cases value <;> cases hspelling <;> cases e <;> decide
    | string items => cases hspelling; cases e <;> simp [Expect.chars, Expect.allows]
    | number spelling =>
      obtain ⟨⟨d, hhead, hd⟩, -, -⟩ := hvalid
      have hc : d = c := by
        rw [show spelling = c :: t from hspelling] at hhead
        exact (Option.some.inj hhead).symm
      have hall : ∀ d ∈ text "-0123456789", d ∈ e.chars ↔ e.allows (.leaf (.number [])) := by
        cases e <;> decide
      rw [← hc, hall d hd]
      cases e <;> rfl

theorem feed_main (hs : s.mode = .main) (c : UInt8) :
    feed platform s c = s.handlechr platform c := by
  simp only [feed, hs]

theorem handlechr_of_not_space (hc : platform.Reads c) (hspace : isSpace c = false) :
    s.handlechr platform c = if c ∈ s.expect.chars then s.switch platform c else none := by
  have hsp : ¬ (c = ascii ' ' ∨ c = ascii '\t' ∨ c = ascii '\n' ∨ c = ascii '\r') := by
    simpa only [isSpace, decide_eq_false_iff_not] using hspace
  rw [handlechr, if_neg (getnext_ne_end hc), if_neg hsp, ite_not]

theorem switch_number (hc : c ∈ text "-0123456789") :
    s.switch platform c = some (s.counting [c]) := by
  have hall : ∀ d ∈ text "-0123456789", d ∉ text ":\"[\x7b]\x7d,tfn" := by decide
  have hne := hall c hc
  simp at hne
  simp [switch, hne]

/-- From its first character on, an allowed token is taken as a whole. -/
theorem outcome_switch (hs : s.mode = .main) (hspelling : token.spelling = c :: t)
    (hvalid : token.Valid) (hends : token.Ends rest) (hreads : ∀ d ∈ t, platform.Reads d) :
    (s.switch platform c).bind (outcome platform · (t ++ rest)) =
      (s.taken platform token).bind (outcome platform · rest) := by
  cases token with
  | opening kind => cases kind <;> cases hspelling <;> cases s <;> cases hs <;> rfl
  | closing kind => cases kind <;> cases hspelling <;> cases s <;> cases hs <;> rfl
  | colon => cases hspelling; cases s; cases hs; rfl
  | comma => cases hspelling; cases s; cases hs; rfl
  | leaf l =>
    cases l with
    | null => cases hspelling; exact outcome_literal (by decide)
    | bool value => cases value <;> cases hspelling <;> exact outcome_literal (by decide)
    | string items =>
      cases hspelling
      rw [List.append_assoc]
      exact outcome_items hvalid fun d hd => hreads d (List.mem_append_left _ hd)
    | number spelling =>
      obtain rfl : spelling = c :: t := hspelling
      obtain ⟨⟨_, ⟨⟩, hd⟩, hall, hlength⟩ := hvalid
      rw [switch_number hd]
      have hdigits : ∀ d ∈ t, d ∈ numberChars := fun d hd => hall d (List.mem_cons_of_mem _ hd)
      have hshort : [c].length + t.length ≤ 127 := by simpa [Nat.add_comm] using hlength
      exact (outcome_counting hdigits hshort).trans (outcome_counted hends)

/-- A token is taken as a whole. -/
theorem outcome_token (hs : s.mode = .main) (hvalid : token.Valid) (hends : token.Ends rest)
    (hreads : ∀ c ∈ token.spelling, platform.Reads c) :
    outcome platform s (token.spelling ++ rest) =
      (s.take platform token).bind (outcome platform · rest) := by
  obtain ⟨c, t, hspelling, -, hspace⟩ := Token.spelling_eq_cons hvalid
  have hswitch := outcome_switch hs hspelling hvalid hends
    fun d hd => hreads d (by rw [hspelling]; exact List.mem_cons_of_mem _ hd)
  rw [hspelling, List.cons_append, outcome_cons, feed_main hs,
    handlechr_of_not_space (hreads c (by rw [hspelling]; exact List.mem_cons_self)) hspace, take]
  simp only [mem_chars_iff hvalid hspelling]
  split
  · exact hswitch
  · rfl

private theorem mode_openNode {iskey : Bool} {expect : Expect}
    (h : s.openNode platform type iskey expect = some s') : s'.mode = s.mode := by
  rw [openNode] at h
  split at h
  · cases h
  · cases h; rfl

private theorem mode_closeNode (h : s.closeNode type = some s') : s'.mode = s.mode := by
  rw [closeNode] at h
  split at h
  · cases h
  · split at h
    · cases h; rfl
    · cases h

private theorem mode_comma (h : s.comma = some s') : s'.mode = s.mode := by
  rw [comma] at h
  split at h
  · cases h
  · split at h <;> cases h <;> rfl

private theorem mode_closeString (s : Parser) (str : Text) :
    (s.closeString platform str).mode = .main := by
  rw [closeString]
  split <;> rfl

theorem mode_take (hs : s.mode = .main) (h : s.take platform token = some s') :
    s'.mode = .main := by
  rw [take] at h
  split at h
  · cases token with
    | opening kind => cases kind <;> exact (mode_openNode h).trans hs
    | closing kind => exact (mode_closeNode h).trans hs
    | colon => cases h; exact hs
    | comma => exact (mode_comma h).trans hs
    | leaf l =>
      cases l with
      | null => cases h; rfl
      | bool value => cases h; rfl
      | number spelling => cases h; rfl
      | string items => cases h; exact mode_closeString s _
  · cases h

/-- White space is skipped. -/
theorem feed_space (hs : s.mode = .main) (hc : isSpace c) : feed platform s c = some s := by
  have hall : ∀ d ∈ [ascii ' ', ascii '\t', ascii '\n', ascii '\r'], d ≠ 0 ∧ d < 128 := by decide
  have hsp : c = ascii ' ' ∨ c = ascii '\t' ∨ c = ascii '\n' ∨ c = ascii '\r' := by
    simpa only [isSpace, decide_eq_true_eq] using hc
  have hreads : platform.Reads c := reads_of_lt (hall c (by simpa using hsp))
  rw [feed_main hs, handlechr, if_neg (getnext_ne_end hreads), if_pos hsp, ← hs]

private theorem outcome_space {w : Text} (hs : s.mode = .main) (hw : w.all isSpace) :
    outcome platform s (w ++ rest) = outcome platform s rest := by
  induction w with
  | nil => rfl
  | cons c w ih =>
    rw [List.all_cons, Bool.and_eq_true] at hw
    obtain ⟨hc, hw⟩ := hw
    rw [List.cons_append, outcome_cons_of (feed_space hs hc), ih hw]

/-- A text of tokens is read token by token. -/
theorem outcome_spaced {tokens : List Token} (hs : s.mode = .main) (hspaced : Spaced tokens t)
    (hreads : ∀ c ∈ t, platform.Reads c) :
    outcome platform s t = (run (take platform) s tokens).bind (finish platform) := by
  induction hspaced generalizing s with
  | @nil w hw =>
    rw [← List.append_nil w, outcome_space hs hw]
    rfl
  | @cons w rest token tokens hw hvalid hends hrest ih =>
    rw [outcome_space hs hw, outcome_token hs hvalid hends fun c hc => hreads c (by simp [hc]),
      run_cons]
    cases htake : s.take platform token with
    | none => rfl
    | some s' => exact ih (mode_take hs htake) fun c hc => hreads c (by simp [hc])

/-! ## Accepted texts are made of tokens -/

variable {context : Context}

private theorem outcome_literal_eq_some
    (h : outcome platform { s with mode := .literal letters type str } t = some context)
    (hne : letters ≠ []) : ∃ rest, t = letters ++ rest := by
  induction letters generalizing t with
  | nil => exact absurd rfl hne
  | cons letter letters ih =>
    cases t with
    | nil => cases h
    | cons c t =>
      rw [outcome_cons] at h
      by_cases hc : c = letter
      · subst hc
        by_cases hlast : letters = []
        · exact ⟨t, by rw [hlast, List.singleton_append]⟩
        · simp only [feed, ne_eq, not_true_eq_false, if_false, hlast, Option.bind_some] at h
          obtain ⟨rest, rfl⟩ := ih h hlast
          exact ⟨rest, rfl⟩
      · simp [feed, hc] at h

/-- A number has no room for more than 127 characters. -/
theorem outcome_counting_long (ht : ∀ c ∈ t, c ∈ numberChars) (hpri : pri.length ≤ 127)
    (hlength : 127 < pri.length + t.length) :
    outcome platform (s.counting pri) (t ++ rest) = none := by
  induction t generalizing pri with
  | nil => exact absurd hlength (by simpa using hpri)
  | cons c t ih =>
    have hc := ht c List.mem_cons_self
    rw [List.length_cons] at hlength
    rw [List.cons_append, outcome_cons]
    by_cases hfull : 128 ≤ pri.length + 1
    · have hfeed : feed platform (s.counting pri) c = none := by
        have hstop := not_mem_stop hc
        refine (if_pos (Or.inr (Or.inr hfull))).trans ?_
        rw [handlechr_of_not_space (reads_numberChars hc) hstop.2]
        exact if_neg hstop.1
      rw [hfeed]
      rfl
    · have hfeed : feed platform (s.counting pri) c = some (s.counting (pri ++ [c])) := by
        refine if_neg ?_
        rintro (h | h | h)
        · exact getnext_ne_end (reads_numberChars hc) h
        · exact h hc
        · exact hfull h
      rw [hfeed]
      refine ih (fun d hd => ht d (List.mem_cons_of_mem _ hd)) ?_ ?_
      · rw [List.length_append, List.length_singleton]; omega
      · rw [List.length_append, List.length_singleton]; omega

/-- What was read of the character of a string that is not complete yet. -/
inductive Partial : Scan → Text → Prop
  | plain : Partial .plain []
  | high (hi : Nat) : Partial (.high hi) []
  | escape : Partial .escape [ascii '\\']
  | highEscape (hi : Nat) : Partial (.highEscape hi) [ascii '\\']
  | hex {digits : Text} {i cp : Nat} : digits.all isxdigit → i + 4 * digits.length = 12 →
    Partial (.hex i cp) (ascii '\\' :: ascii 'u' :: digits)
  | low {digits : Text} {hi i lo : Nat} : digits.all isxdigit → i + 4 * digits.length = 12 →
    Partial (.low hi i lo) (ascii '\\' :: ascii 'u' :: digits)

/-- One more character of a string: it completes an item, or more of the item has to come. -/
def Extends (p : Text) (c : UInt8) (scan : Scan) : Prop :=
  Partial scan (p ++ [c]) ∨
    Partial scan [] ∧ ∃ item : Item, item.Valid ∧ item.spelling = p ++ [c]

private theorem chr_eq_next (hc : platform.Reads c) (h : chr platform c str = .next scan str') :
    Extends [] c scan := by
  rw [chr] at h
  split at h
  · cases h
  · next hcontrol =>
    split at h
    · next hbackslash =>
      cases h
      exact Or.inl (hbackslash ▸ .escape)
    · next hbackslash =>
      split at h
      · cases h
      · next hquote =>
        cases h
        rw [getnext_eq hc, Int.not_lt] at hcontrol
        have hle : 0x20 ≤ c := UInt8.le_iff_toNat_le.mpr (by exact_mod_cast hcontrol)
        exact Or.inr ⟨.plain, .plain c, ⟨hle, hquote, hbackslash⟩, rfl⟩

theorem escchr_of_not_valid (hvalid : ¬ (Item.escape c).Valid) (hu : c ≠ ascii 'u') :
    escchr c str = .invalid := by
  simp [Item.Valid] at hvalid hu
  simp [escchr, hvalid, hu]

theorem escchr_eq_next (h : escchr c str = .next scan str') : Extends [ascii '\\'] c scan := by
  by_cases hvalid : (Item.escape c).Valid
  · rw [escchr_eq hvalid] at h
    cases h
    exact Or.inr ⟨.plain, .escape c, hvalid, rfl⟩
  · by_cases hu : c = ascii 'u'
    · subst hu
      cases h
      exact Or.inl (.hex rfl rfl)
    · rw [escchr_of_not_valid hvalid hu] at h
      cases h

private theorem escchr_ne_closed (c : UInt8) (str str' : Text) : escchr c str ≠ .closed str' := by
  by_cases hvalid : (Item.escape c).Valid
  · rw [escchr_eq hvalid]
    rintro ⟨⟩
  · by_cases hu : c = ascii 'u'
    · subst hu
      rintro ⟨⟩
    · rw [escchr_of_not_valid hvalid hu]
      rintro ⟨⟩

private theorem extends_digit {digits : Text} (hdigits : digits.all isxdigit)
    (hi : i + 4 * digits.length = 12) (hc : isxdigit c) :
    if i = 0 then ∃ item : Item, item.Valid ∧
        item.spelling = ascii '\\' :: ascii 'u' :: (digits ++ [c])
    else (digits ++ [c]).all isxdigit ∧ i - 4 + 4 * (digits ++ [c]).length = 12 := by
  split
  · match digits, hi with
    | [a, b, d], _ => exact ⟨.unicode a b d c, by simpa [Item.Valid, hc] using hdigits, rfl⟩
    | [], hi => simp at hi; omega
    | [_], hi => simp at hi; omega
    | [_, _], hi => simp at hi; omega
    | _ :: _ :: _ :: _ :: _, hi => simp at hi; omega
  · refine ⟨by simpa [hc] using hdigits, ?_⟩
    rw [List.length_append, List.length_singleton]
    omega

private theorem codePoint_eq_next (h : codePoint cp str = .next scan str') : Partial scan [] := by
  rw [codePoint] at h
  split at h
  · cases h; exact .high cp
  · cases h; exact .plain

theorem codePoint_ne_closed (cp : Nat) (str str' : Text) : codePoint cp str ≠ .closed str' := by
  rw [codePoint]
  split <;> rintro ⟨⟩

theorem surrogatePair_eq_next (h : surrogatePair hi lo str = .next scan str') :
    Partial scan [] := by
  rw [surrogatePair] at h
  split at h <;> cases h <;> exact .plain

theorem surrogatePair_ne_closed (hi lo : Nat) (str str' : Text) :
    surrogatePair hi lo str ≠ .closed str' := by
  rw [surrogatePair]
  split <;> rintro ⟨⟩

variable {p : Text}

/-- A string goes on with a part of an item. -/
theorem scanString_eq_next (hp : Partial scan p) (hc : platform.Reads c)
    (h : scanString platform c str scan = .next scan' str') : Extends p c scan' := by
  cases hp with
  | plain => exact chr_eq_next hc h
  | high hi =>
    rw [scanString] at h
    split at h
    · exact chr_eq_next hc h
    · next hbackslash =>
      cases h
      rw [not_not.mp hbackslash]
      exact Or.inl (.highEscape hi)
  | escape =>
    rw [scanString] at h
    split at h
    · cases h
    · exact escchr_eq_next h
  | highEscape hi =>
    rw [scanString] at h
    split at h
    · exact escchr_eq_next h
    · next hu =>
      cases h
      rw [not_not.mp hu]
      exact Or.inl (.low rfl rfl)
  | hex hdigits hi =>
    rw [scanString] at h
    split at h
    · cases h
    · next hx =>
      have hdigit := extends_digit hdigits hi (not_not.mp hx)
      split at h
      · next hpos =>
        cases h
        rw [if_neg hpos] at hdigit
        exact Or.inl (.hex hdigit.1 hdigit.2)
      · next hzero =>
        rw [if_pos (not_not.mp hzero)] at hdigit
        exact Or.inr ⟨codePoint_eq_next h, hdigit⟩
  | low hdigits hi =>
    rw [scanString] at h
    split at h
    · cases h
    · next hx =>
      have hdigit := extends_digit hdigits hi (not_not.mp hx)
      split at h
      · next hpos =>
        cases h
        rw [if_neg hpos] at hdigit
        exact Or.inl (.low hdigit.1 hdigit.2)
      · next hzero =>
        rw [if_pos (not_not.mp hzero)] at hdigit
        exact Or.inr ⟨surrogatePair_eq_next h, hdigit⟩

private theorem chr_eq_closed (h : chr platform c str = .closed str') : c = ascii '"' := by
  rw [chr] at h
  split at h
  · cases h
  · split at h
    · cases h
    · split at h
      · assumption
      · cases h

/-- A string ends with a quotation mark, outside of items. -/
theorem scanString_eq_closed (hp : Partial scan p)
    (h : scanString platform c str scan = .closed str') : p = [] ∧ c = ascii '"' := by
  cases hp with
  | plain => exact ⟨rfl, chr_eq_closed h⟩
  | high hi =>
    rw [scanString] at h
    split at h
    · exact ⟨rfl, chr_eq_closed h⟩
    · cases h
  | escape =>
    rw [scanString] at h
    split at h
    · cases h
    · exact absurd h (escchr_ne_closed _ _ _)
  | highEscape hi =>
    rw [scanString] at h
    split at h
    · exact absurd h (escchr_ne_closed _ _ _)
    · cases h
  | hex hdigits hi =>
    rw [scanString] at h
    split at h
    · cases h
    · split at h
      · cases h
      · exact absurd h (codePoint_ne_closed _ _ _)
  | low hdigits hi =>
    rw [scanString] at h
    split at h
    · cases h
    · split at h
      · cases h
      · exact absurd h (surrogatePair_ne_closed _ _ _ _)

/-- A string that the parser gets to the end of consists of items. -/
theorem outcome_scanning_eq_some (hp : Partial scan p) (hreads : ∀ c ∈ t, platform.Reads c)
    (h : outcome platform (s.scanning scan str) t = some context) :
    ∃ (items : List Item) (rest : Text), p ++ t = items.flatMap Item.spelling ++ ascii '"' :: rest ∧
      ∀ item ∈ items, item.Valid := by
  induction t generalizing p scan str with
  | nil => cases h
  | cons c t ih =>
    have hrest : ∀ d ∈ t, platform.Reads d := fun d hd => hreads d (List.mem_cons_of_mem _ hd)
    cases hscan : scanString platform c str scan with
    | invalid =>
      rw [outcome_cons] at h
      simp [feed, hscan, scanned] at h
    | closed str' =>
      obtain ⟨rfl, rfl⟩ := scanString_eq_closed hp hscan
      exact ⟨[], t, rfl, by simp⟩
    | next scan' str' =>
      rw [outcome_scan hscan] at h
      rcases scanString_eq_next hp (hreads c List.mem_cons_self) hscan with
        hopen | ⟨hopen, item, hitem, hspelling⟩
      · rw [List.append_cons]
        exact ih hopen hrest h
      · obtain ⟨items, rest, ht, hvalid⟩ := ih hopen hrest h
        refine ⟨item :: items, rest, ?_, List.forall_mem_cons.mpr ⟨hitem, hvalid⟩⟩
        rw [List.append_cons, ← hspelling, List.flatMap_cons, List.append_assoc, ← ht,
          List.nil_append]

/-- The numeric characters that a text starts with. -/
theorem exists_digits (t : Text) : ∃ digits rest : Text, t = digits ++ rest ∧
    (∀ c ∈ digits, c ∈ numberChars) ∧ ∀ c ∈ rest.head?, c ∉ numberChars := by
  induction t with
  | nil => exact ⟨[], [], rfl, by simp, by simp⟩
  | cons c t ih =>
    by_cases hc : c ∈ numberChars
    · obtain ⟨digits, rest, rfl, hdigits, hrest⟩ := ih
      exact ⟨c :: digits, rest, rfl, List.forall_mem_cons.mpr ⟨hc, hdigits⟩, hrest⟩
    · exact ⟨[], c :: t, rfl, by simp, by simpa using hc⟩

/-- The text starts with a token. -/
def StartsWithToken (t : Text) : Prop :=
  ∃ (token : Token) (rest : Text), t = token.spelling ++ rest ∧ token.Valid ∧ token.Ends rest

private theorem outcome_number_eq_some (hc : c ∈ text "-0123456789")
    (h : outcome platform (s.counting [c]) t = some context) : StartsWithToken (c :: t) := by
  have hall : ∀ d ∈ text "-0123456789", d ∈ numberChars := by decide
  obtain ⟨digits, rest, rfl, hdigits, hends⟩ := exists_digits t
  have hshort : digits.length + 1 ≤ 127 := by
    by_contra hlong
    rw [outcome_counting_long hdigits (by simp) (by simp; omega)] at h
    cases h
  exact ⟨.leaf (.number (c :: digits)), rest, rfl,
    ⟨⟨c, rfl, hc⟩, List.forall_mem_cons.mpr ⟨hall c hc, hdigits⟩, hshort⟩, hends⟩

/-- An accepted text starts with a token. -/
theorem outcome_cons_eq_some (hs : s.mode = .main) (hspace : isSpace c = false)
    (hreads : ∀ d ∈ c :: t, platform.Reads d) (h : outcome platform s (c :: t) = some context) :
    StartsWithToken (c :: t) := by
  rw [outcome_cons, feed_main hs, handlechr_of_not_space (hreads c List.mem_cons_self) hspace] at h
  split at h
  · next hexpect =>
    have hall : ∀ d ∈ s.expect.chars, d ∈ text ":,[\x7b]\x7d" ∨ d ∈ text "ntf\"" ∨
        d ∈ text "-0123456789" := by
      cases s.expect <;> decide
    rcases hall c hexpect with hpunct | hword | hnumber
    · simp at hpunct
      rcases hpunct with rfl | rfl | rfl | rfl | rfl | rfl
      · exact ⟨.colon, t, rfl, trivial, trivial⟩
      · exact ⟨.comma, t, rfl, trivial, trivial⟩
      · exact ⟨.opening .array, t, rfl, trivial, trivial⟩
      · exact ⟨.opening .object, t, rfl, trivial, trivial⟩
      · exact ⟨.closing .array, t, rfl, trivial, trivial⟩
      · exact ⟨.closing .object, t, rfl, trivial, trivial⟩
    · simp at hword
      rcases hword with rfl | rfl | rfl | rfl
      · obtain ⟨rest, rfl⟩ := outcome_literal_eq_some h (by decide)
        exact ⟨.leaf .null, rest, rfl, trivial, trivial⟩
      · obtain ⟨rest, rfl⟩ := outcome_literal_eq_some h (by decide)
        exact ⟨.leaf (.bool true), rest, rfl, trivial, trivial⟩
      · obtain ⟨rest, rfl⟩ := outcome_literal_eq_some h (by decide)
        exact ⟨.leaf (.bool false), rest, rfl, trivial, trivial⟩
      · obtain ⟨items, rest, ht, hvalid⟩ := outcome_scanning_eq_some .plain
          (fun d hd => hreads d (List.mem_cons_of_mem _ hd)) h
        refine ⟨.leaf (.string items), rest, ?_, hvalid, trivial⟩
        rw [List.nil_append] at ht
        simp [Token.spelling, Leaf.spelling, quoted, ht]
    · rw [switch_number hnumber] at h
      exact outcome_number_eq_some hnumber h
  · cases h

/-- An accepted text is a list of tokens. -/
theorem spaced_of_outcome (hs : s.mode = .main) (hreads : ∀ c ∈ t, platform.Reads c)
    (h : outcome platform s t = some context) : ∃ tokens, Spaced tokens t := by
  induction hn : t.length using Nat.strong_induction_on generalizing s t with
  | _ n ih =>
    cases t with
    | nil => exact ⟨[], .nil rfl⟩
    | cons c t =>
      by_cases hspace : isSpace c
      · rw [outcome_cons_of (feed_space hs hspace)] at h
        have hshort : t.length < n := by rw [← hn, List.length_cons]; omega
        obtain ⟨tokens, htokens⟩ := ih t.length hshort hs
          (fun d hd => hreads d (List.mem_cons_of_mem _ hd)) h rfl
        exact ⟨tokens, htokens.space hspace⟩
      · obtain ⟨token, rest, ht, hvalid, hends⟩ :=
          outcome_cons_eq_some hs (Bool.eq_false_iff.mpr hspace) hreads h
        rw [ht] at hreads h hn
        rw [outcome_token hs hvalid hends fun d hd => hreads d (List.mem_append_left _ hd)] at h
        obtain ⟨s', htake, h⟩ := Option.bind_eq_some_iff.mp h
        have hshort : rest.length < n := by
          obtain ⟨d, u, hspelling, -, -⟩ := Token.spelling_eq_cons hvalid
          rw [← hn, hspelling, List.length_append, List.length_cons]
          omega
        obtain ⟨tokens, htokens⟩ := ih rest.length hshort (mode_take hs htake)
          (fun d hd => hreads d (List.mem_append_right _ hd)) h rfl
        rw [ht]
        exact ⟨token :: tokens, htokens.token token hvalid hends⟩

end Parser

private theorem Token.reads {token : Token} (hvalid : token.Valid)
    (hstring : ∀ items, token = .leaf (.string items) →
      ∀ c ∈ items.flatMap Item.spelling, platform.Reads c) :
    ∀ c ∈ token.spelling, platform.Reads c := by
  have hall : ∀ {t : Text}, (∀ c ∈ t, c ≠ 0 ∧ c < 128) → ∀ c ∈ t, platform.Reads c :=
    fun h c hc => reads_of_lt (h c hc)
  cases token with
  | opening kind => cases kind <;> exact hall (by decide)
  | closing kind => cases kind <;> exact hall (by decide)
  | colon => exact hall (by decide)
  | comma => exact hall (by decide)
  | leaf l =>
    cases l with
    | null => exact hall (by decide)
    | bool value => cases value <;> exact hall (by decide)
    | number spelling => exact fun c hc => Parser.reads_numberChars (hvalid.2.1 c hc)
    | string items =>
      intro c hc
      rcases List.mem_cons.mp hc with rfl | hc
      · exact reads_of_lt (by decide)
      · rcases List.mem_append.mp hc with hc | hc
        · exact hstring items rfl c hc
        · rw [List.mem_singleton.mp hc]
          exact reads_of_lt (by decide)

variable {t : Text}

/-- Only the characters of strings may be ones that the parser cannot take. -/
theorem Spaced.reads {tokens : List Token} (h : Spaced tokens t)
    (hstrings : ∀ items, Token.leaf (.string items) ∈ tokens →
      ∀ c ∈ items.flatMap Item.spelling, platform.Reads c) : ∀ c ∈ t, platform.Reads c := by
  have hspaces : ∀ {w : Text}, w.all isSpace → ∀ c ∈ w, platform.Reads c := by
    intro w hw c hc
    have hall : ∀ d ∈ [ascii ' ', ascii '\t', ascii '\n', ascii '\r'], d ≠ 0 ∧ d < 128 := by decide
    exact reads_of_lt (hall c (by simpa [isSpace] using List.all_eq_true.mp hw c hc))
  induction h with
  | nil hw => exact hspaces hw
  | cons hw hvalid hends hrest ih =>
    intro c hc
    rcases List.mem_append.mp hc with hc | hc
    · exact hspaces hw c hc
    · rcases List.mem_append.mp hc with hc | hc
      · exact Token.reads hvalid
          (fun items hitems => hstrings items (hitems ▸ List.mem_cons_self)) c hc
      · exact ih (fun items hitems => hstrings items (List.mem_cons_of_mem _ hitems)) c hc

/-- What the parser returns is what it makes of the tokens of the text. -/
theorem parsejson_eq_some_iff {context : Context} (hreads : ∀ c ∈ t, platform.Reads c) :
    parsejson platform t = some context ↔ ∃ tokens, Spaced tokens t ∧
      (run (Parser.take platform) .init tokens).bind (Parser.finish platform) = some context := by
  constructor
  · intro h
    obtain ⟨tokens, htokens⟩ := Parser.spaced_of_outcome rfl hreads h
    exact ⟨tokens, htokens, (Parser.outcome_spaced rfl htokens hreads).symm.trans h⟩
  · rintro ⟨tokens, htokens, h⟩
    exact (Parser.outcome_spaced rfl htokens hreads).trans h

end TweakTool.Json
