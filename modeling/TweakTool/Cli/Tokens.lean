import Mathlib.Algebra.Order.BigOperators.Group.List
import Mathlib.Algebra.Order.Group.Nat
import Mathlib.Data.List.TakeWhile
import TweakTool.Common.Variant
import TweakTool.Lib.Bytes

/-! # Tokens of a line

`stringutil.c` of the command line client: a line is cut into tokens at separators that are not
escaped, and each token loses its escape characters.

A pointer into a string is given by the text that it points to. Allocations succeed. -/

namespace TweakTool.Cli

open TweakTool.Lib

def separators : Text := text " \r\n\t"

def backslash : UInt8 := ascii '\\'

def mergeTokens (tokens : List Text) (separator : Text) : Text := separator.intercalate tokens

section Code

variable (escape : UInt8) (seps : Text)

def trimleft (str : Text) : Text := str.dropWhile (· ∈ seps)

/-- `tweak_app_cl_strpbrk_unescaped_no_null`, with the text before the result: the first separator
that does not follow an escape character in the text. `prev` is the character before `arg`. -/
def strpbrkUnescapedNoNull : (prev : Option UInt8) → (arg : Text) → Text × Text
  | _, [] => ([], [])
  | prev, c :: arg =>
    if c ∈ seps ∧ prev ≠ some escape then ([], c :: arg)
    else
      let (before, result) := strpbrkUnescapedNoNull (some c) arg
      (c :: before, result)

/-- `tweak_app_cl_unescape_str` of a text of the given length. It is after a character has been
copied that an escape character is skipped, so the first character always stays. -/
def unescapeStr : Text → Text
  | [] => []
  | [c] => [c]
  | c :: d :: rest =>
    if d = escape then c :: unescapeStr rest else c :: unescapeStr (d :: rest)

/-- The loop of `tweak_app_cl_tokenize`, with the tokens as they stand in the line. -/
def tokensLoop : Nat → Text → List Text
  | 0, _ => []
  | fuel + 1, line =>
    match trimleft seps line with
    | [] => []
    | c :: rest =>
      let (token, p) := strpbrkUnescapedNoNull escape seps none (c :: rest)
      token :: tokensLoop fuel p

/-- `tweak_app_cl_tokenize`; no line has more tokens than characters. -/
def tokenize (line : Text) : List Text :=
  (tokensLoop escape seps line.length line).map (unescapeStr escape)

end Code

/-! ## Where tokens end -/

section Splitting

variable {escape : UInt8} {seps : Text}

/-- Every separator in the text follows an escape character. -/
def Guarded (escape : UInt8) (seps : Text) : (prev : Option UInt8) → Text → Prop
  | _, [] => True
  | prev, c :: t => (c ∈ seps → prev = some escape) ∧ Guarded escape seps (some c) t

/-- A token that ends here: at the end of the line, or at a separator that is not escaped. -/
def EndsAt (escape : UInt8) (seps : Text) (last : Option UInt8) (rest : Text) : Prop :=
  ∀ c ∈ rest.head?, c ∈ seps ∧ last ≠ some escape

theorem getLast?_cons_or (prev : Option UInt8) (c : UInt8) (t : Text) :
    (c :: t).getLast?.or prev = t.getLast?.or (some c) := by
  rw [List.getLast?_cons]
  cases t.getLast? <;> rfl

private theorem strpbrkUnescapedNoNull_append {prev : Option UInt8} {before rest : Text}
    (hguarded : Guarded escape seps prev before)
    (hends : EndsAt escape seps (before.getLast?.or prev) rest) :
    strpbrkUnescapedNoNull escape seps prev (before ++ rest) = (before, rest) := by
  induction before generalizing prev with
  | nil =>
    cases rest with
    | nil => rfl
    | cons c rest =>
      have hc := hends c rfl
      rw [List.nil_append, strpbrkUnescapedNoNull, if_pos ⟨hc.1, by simpa using hc.2⟩]
  | cons c before ih =>
    have hnot : ¬ (c ∈ seps ∧ prev ≠ some escape) := fun h => h.2 (hguarded.1 h.1)
    rw [getLast?_cons_or] at hends
    rw [List.cons_append, strpbrkUnescapedNoNull, if_neg hnot, ih hguarded.2 hends]

/-- The text is cut at the first separator that is not guarded. -/
theorem strpbrkUnescapedNoNull_spec (escape : UInt8) (seps : Text) (prev : Option UInt8) (arg : Text) :
    ∃ before rest, arg = before ++ rest ∧ Guarded escape seps prev before ∧
      EndsAt escape seps (before.getLast?.or prev) rest := by
  induction arg generalizing prev with
  | nil => exact ⟨[], [], rfl, trivial, by rintro c ⟨⟩⟩
  | cons c arg ih =>
    by_cases hc : c ∈ seps ∧ prev ≠ some escape
    · refine ⟨[], c :: arg, rfl, trivial, ?_⟩
      rintro d ⟨⟩
      simpa using hc
    · obtain ⟨before, rest, rfl, hguarded, hends⟩ := ih (some c)
      refine ⟨c :: before, rest, rfl, ⟨fun hsep => ?_, hguarded⟩, ?_⟩
      · by_contra hprev
        exact hc ⟨hsep, hprev⟩
      · rwa [getLast?_cons_or]

/-- A token as it stands in a line, and what follows it. -/
structure Token (escape : UInt8) (seps token rest : Text) : Prop where
  start : ∃ c t, token = c :: t ∧ c ∉ seps
  guarded : Guarded escape seps none token
  ends : EndsAt escape seps token.getLast? rest

/-- The tokens of a line, with separators around them. -/
inductive Splits (escape : UInt8) (seps : Text) : List Text → Text → Prop
  | nil {gap : Text} : (∀ c ∈ gap, c ∈ seps) → Splits escape seps [] gap
  | cons {gap token rest : Text} {tokens : List Text} : (∀ c ∈ gap, c ∈ seps) →
    Token escape seps token rest → Splits escape seps tokens rest →
    Splits escape seps (token :: tokens) (gap ++ (token ++ rest))

private theorem trimleft_append {gap : Text} (hgap : ∀ c ∈ gap, c ∈ seps) (rest : Text) :
    trimleft seps (gap ++ rest) = trimleft seps rest :=
  List.dropWhile_append_of_pos fun c hc => decide_eq_true (hgap c hc)

variable {tokens : List Text} {line : Text}

private theorem Splits.tokensLoop (h : Splits escape seps tokens line) {fuel : Nat}
    (hfuel : line.length ≤ fuel) : tokensLoop escape seps fuel line = tokens := by
  induction h generalizing fuel with
  | @nil gap hgap =>
    have htrim : trimleft seps gap = [] := by simpa [trimleft] using trimleft_append hgap []
    cases fuel with
    | zero => rfl
    | succ fuel => rw [Cli.tokensLoop, htrim]
  | @cons gap token rest tokens hgap htoken hsplits ih =>
    obtain ⟨c, t, rfl, hc⟩ := htoken.start
    have htrim : trimleft seps (gap ++ (c :: t ++ rest)) = c :: (t ++ rest) := by
      rw [trimleft_append hgap, trimleft, List.cons_append, List.dropWhile_cons_of_neg]
      simpa using hc
    have hspan := strpbrkUnescapedNoNull_append htoken.guarded (by simpa using htoken.ends)
    rw [List.cons_append] at hspan
    cases fuel with
    | zero => simp at hfuel
    | succ fuel =>
      simp only [List.length_append, List.length_cons] at hfuel
      rw [Cli.tokensLoop, htrim]
      simp only [hspan]
      rw [ih (by omega)]

/-- Every line splits into tokens. -/
theorem exists_splits (escape : UInt8) (seps line : Text) :
    ∃ tokens, Splits escape seps tokens line := by
  induction hn : line.length using Nat.strongRecOn generalizing line with
  | ind n ih =>
    have hline : line.takeWhile (· ∈ seps) ++ trimleft seps line = line :=
      List.takeWhile_append_dropWhile
    have hgap : ∀ c ∈ line.takeWhile (· ∈ seps), c ∈ seps := fun c hc => by
      simpa using List.mem_takeWhile_imp hc
    cases htrim : trimleft seps line with
    | nil =>
      rw [htrim, List.append_nil] at hline
      rw [← hline]
      exact ⟨[], .nil hgap⟩
    | cons c arg =>
      have hc : c ∉ seps := by
        have := List.head?_dropWhile_not (fun d => decide (d ∈ seps)) line
        rw [trimleft] at htrim
        simpa [htrim] using this
      rw [htrim] at hline
      obtain ⟨before, rest, harg, hguarded, hends⟩ :=
        strpbrkUnescapedNoNull_spec escape seps none (c :: arg)
      rw [Option.or_none] at hends
      cases before with
      | nil => -- a token is not empty
        rw [List.nil_append] at harg
        rw [← harg] at hends
        exact absurd (hends c rfl).1 hc
      | cons d before =>
        rw [(List.cons.inj harg).1] at hc
        rw [harg] at hline
        have hlength : rest.length < n := by
          rw [← hn, ← hline]
          simp only [List.length_append, List.length_cons]
          omega
        obtain ⟨tokens, htokens⟩ := ih rest.length hlength rest rfl
        rw [← hline]
        exact ⟨_, .cons hgap ⟨⟨d, before, rfl, hc⟩, hguarded, hends⟩ htokens⟩

/-- The tokens are those of the loop, unescaped. -/
theorem Splits.tokenize_eq (h : Splits escape seps tokens line) :
    tokenize escape seps line = tokens.map (unescapeStr escape) := by
  rw [tokenize, h.tokensLoop (Nat.le_refl _)]

theorem Splits.gap {gap : Text} (hgap : ∀ c ∈ gap, c ∈ seps) (h : Splits escape seps tokens line) :
    Splits escape seps tokens (gap ++ line) := by
  cases h with
  | nil hgap' => exact .nil (List.forall_mem_append.mpr ⟨hgap, hgap'⟩)
  | @cons gap' token rest tokens hgap' htoken hsplits =>
    rw [← List.append_assoc]
    exact .cons (List.forall_mem_append.mpr ⟨hgap, hgap'⟩) htoken hsplits

private theorem Splits.token (h : Splits escape seps tokens line) :
    ∀ token ∈ tokens, ∃ rest, Token escape seps token rest := by
  induction h with
  | nil => rintro _ ⟨⟩
  | cons hgap htoken hsplits ih => exact List.forall_mem_cons.mpr ⟨⟨_, htoken⟩, ih⟩

private theorem Splits.mem (h : Splits escape seps tokens line) :
    ∀ token ∈ tokens, ∀ c ∈ token, c ∈ line := by
  induction h with
  | nil => simp
  | cons hgap htoken hsplits ih =>
    intro token htoken' c hc
    simp only [List.mem_append]
    rcases List.mem_cons.mp htoken' with rfl | htoken'
    · exact .inr (.inl hc)
    · exact .inr (.inr (ih token htoken' c hc))

theorem Splits.eq_nil (h : Splits escape seps tokens line) (hline : ∀ c ∈ line, c ∈ seps) :
    tokens = [] := by
  cases h with
  | nil => rfl
  | @cons gap token rest tokens hgap htoken hsplits =>
    obtain ⟨c, t, rfl, hc⟩ := htoken.start
    exact absurd (hline c (by simp)) hc

/-- No token ends with the escape character where the line does not. -/
theorem Splits.getLast?_ne (h : Splits escape seps tokens line)
    (hline : line.getLast? ≠ some escape) : ∀ token ∈ tokens, token.getLast? ≠ some escape := by
  induction h with
  | nil => rintro _ ⟨⟩
  | @cons gap token rest tokens hgap htoken hsplits ih =>
    cases rest with
    | nil =>
      rw [hsplits.eq_nil (by rintro c ⟨⟩), List.forall_mem_singleton]
      obtain ⟨c, t, rfl, -⟩ := htoken.start
      simpa [List.getLast?_append] using hline
    | cons d rest =>
      refine List.forall_mem_cons.mpr ⟨(htoken.ends d rfl).2, ih ?_⟩
      simpa [List.getLast?_append] using hline

/-- Separators belong to no token, unless they are escaped. -/
theorem Splits.count (hescape : escape ∉ seps) (h : Splits escape seps tokens line) :
    line.count escape = (tokens.map (List.count escape)).sum := by
  have hnone : ∀ {gap : Text}, (∀ c ∈ gap, c ∈ seps) → gap.count escape = 0 :=
    fun hgap => List.count_eq_zero.mpr fun hmem => hescape (hgap _ hmem)
  induction h with
  | nil hgap => exact hnone hgap
  | cons hgap htoken hsplits ih =>
    rw [List.count_append, List.count_append, hnone hgap, Nat.zero_add, ih, List.map_cons,
      List.sum_cons]

end Splitting

/-! ## Escape characters -/

section Escapes

variable {escape : UInt8}

/-- Unescaping leaves out characters. -/
theorem unescapeStr_sublist (escape : UInt8) (t : Text) : (unescapeStr escape t).Sublist t := by
  induction t using unescapeStr.induct escape with
  | case1 => exact .slnil
  | case2 c => exact .refl _
  | case3 c rest ih =>
    rw [unescapeStr, if_pos rfl]
    exact (ih.cons escape).cons_cons c
  | case4 c d rest hd ih =>
    rw [unescapeStr, if_neg hd]
    exact ih.cons_cons c

/-- The other characters are kept. -/
theorem filter_unescapeStr (escape : UInt8) (t : Text) :
    (unescapeStr escape t).filter (· ≠ escape) = t.filter (· ≠ escape) := by
  induction t using unescapeStr.induct escape with
  | case1 => rfl
  | case2 c => rfl
  | case3 c rest ih =>
    rw [unescapeStr, if_pos rfl, List.filter_cons, ih, List.filter_cons, List.filter_cons_of_neg]
    simp
  | case4 c d rest hd ih =>
    rw [unescapeStr, if_neg hd, List.filter_cons, ih]
    exact (List.filter_cons (p := fun x => decide (x ≠ escape))).symm

/-- It leaves out nothing but escape characters. -/
theorem countP_unescapeStr {p : UInt8 → Bool} (hp : p escape = false) (t : Text) :
    (unescapeStr escape t).countP p = t.countP p := by
  induction t using unescapeStr.induct escape with
  | case1 => rfl
  | case2 c => rfl
  | case3 c rest ih => simp [unescapeStr, List.countP_cons, ih, hp]
  | case4 c d rest hd ih => rw [unescapeStr, if_neg hd, List.countP_cons, List.countP_cons, ih]

variable {t : Text}

/-- A text without fewer escape characters is the same. -/
theorem unescapeStr_eq_of_count (h : t.count escape ≤ (unescapeStr escape t).count escape) :
    unescapeStr escape t = t := by
  have hlength : ∀ l : Text, l.length = l.count escape + (l.filter (· ≠ escape)).length := by
    intro l
    have := List.length_eq_countP_add_countP (· == escape) (l := l)
    rw [List.count, this, List.countP_eq_length_filter (p := fun c => decide ¬ (c == escape) = true)]
    simp
  refine (unescapeStr_sublist escape t).eq_of_length_le ?_
  rw [hlength t, hlength (unescapeStr escape t), filter_unescapeStr]
  omega

private theorem unescapeStr_cons (escape c : UInt8) (t : Text) :
    ∃ t', unescapeStr escape (c :: t) = c :: t' := by
  cases t with
  | nil => exact ⟨[], rfl⟩
  | cons d t =>
    rw [unescapeStr]
    split
    · exact ⟨_, rfl⟩
    · exact ⟨_, rfl⟩

private theorem unescapeStr_eq_self_iff {c : UInt8} :
    unescapeStr escape (c :: t) = c :: t ↔ escape ∉ t := by
  induction t generalizing c with
  | nil => simp [unescapeStr]
  | cons d t ih =>
    rw [unescapeStr]
    by_cases hd : d = escape
    · rw [if_pos hd]
      refine iff_of_false ?_ (by simp [hd])
      intro heq
      have hle := (unescapeStr_sublist escape t).length_le
      have := congrArg List.length heq
      simp only [List.length_cons] at this
      omega
    · rw [if_neg hd, List.cons.injEq, ih, List.mem_cons, not_or]
      simp [Ne.symm hd]

theorem getLast?_unescapeStr (h : t.getLast? ≠ some escape) :
    (unescapeStr escape t).getLast? = t.getLast? := by
  induction t using unescapeStr.induct escape with
  | case1 => rfl
  | case2 c => rfl
  | case3 c rest ih =>
    cases rest with
    | nil => simp at h
    | cons e rest =>
      obtain ⟨t', ht'⟩ := unescapeStr_cons escape e rest
      rw [List.getLast?_cons_cons, List.getLast?_cons_cons] at h ⊢
      rw [unescapeStr, if_pos rfl, ht', List.getLast?_cons_cons, ← ht', ih h]
  | case4 c d rest hd ih =>
    obtain ⟨t', ht'⟩ := unescapeStr_cons escape d rest
    rw [List.getLast?_cons_cons] at h ⊢
    rw [unescapeStr, if_neg hd, ht', List.getLast?_cons_cons, ← ht', ih h]

/-- A token begins with no separator and has only characters of its line. -/
theorem mem_tokenize {seps line w : Text} (hw : w ∈ tokenize escape seps line) :
    (∃ c t, w = c :: t ∧ c ∉ seps) ∧ ∀ c ∈ w, c ∈ line := by
  obtain ⟨tokens, htokens⟩ := exists_splits escape seps line
  rw [htokens.tokenize_eq] at hw
  obtain ⟨token, htoken, rfl⟩ := List.mem_map.mp hw
  obtain ⟨rest, htoken'⟩ := htokens.token token htoken
  obtain ⟨c, t, rfl, hc⟩ := htoken'.start
  obtain ⟨t', ht'⟩ := unescapeStr_cons escape c t
  refine ⟨⟨c, t', ht', hc⟩, fun d hd => htokens.mem _ htoken d ?_⟩
  exact (unescapeStr_sublist escape _).subset hd

end Escapes

/-! ## Words -/

private theorem backslash_not_mem : backslash ∉ separators := by decide

/-- A token that is its own value. A backslash can only be its first character, and guards the
character after it then. -/
def Word : Text → Prop
  | [] => False
  | c :: rest => c ∉ separators ∧ backslash ∉ rest ∧
    if c = backslash then rest ≠ [] ∧ ∀ d ∈ rest.tail, d ∉ separators
    else ∀ d ∈ rest, d ∉ separators

instance : DecidablePred Word
  | [] => .isFalse id
  | _ :: _ => inferInstanceAs (Decidable (_ ∧ _ ∧ _))

variable {escape : UInt8} {seps : Text}

theorem guarded_append {prev : Option UInt8} {a b : Text} :
    Guarded escape seps prev (a ++ b) ↔
      Guarded escape seps prev a ∧ Guarded escape seps (a.getLast?.or prev) b := by
  induction a generalizing prev with
  | nil => simp [Guarded]
  | cons c a ih => rw [List.cons_append, Guarded, Guarded, ih, getLast?_cons_or, and_assoc]

theorem guarded_iff {prev : Option UInt8} {t : Text} (hprev : prev ≠ some escape) (ht : escape ∉ t) :
    Guarded escape seps prev t ↔ ∀ c ∈ t, c ∉ seps := by
  induction t generalizing prev with
  | nil => simp [Guarded]
  | cons c t ih =>
    rw [List.mem_cons, not_or] at ht
    rw [Guarded, ih (by simpa using Ne.symm ht.1) ht.2, List.forall_mem_cons]
    simp [hprev]

theorem word_iff {w : Text} :
    Word w ↔ (∃ c t, w = c :: t ∧ c ∉ separators) ∧ Guarded backslash separators none w ∧
      w.getLast? ≠ some backslash ∧ unescapeStr backslash w = w := by
  cases w with
  | nil => simp [Word]
  | cons c t =>
    have hstart : (∃ c' t', c :: t = c' :: t' ∧ c' ∉ separators) ↔ c ∉ separators := by
      constructor
      · rintro ⟨c', t', ⟨⟩, hc⟩
        exact hc
      · exact fun hc => ⟨c, t, rfl, hc⟩
    rw [hstart, unescapeStr_eq_self_iff, Word, Guarded]
    by_cases ht : backslash ∈ t
    · simp [ht]
    · by_cases hc : c = backslash
      · subst hc
        cases t with
        | nil => simp
        | cons d t =>
          have hd : d ≠ backslash := by
            rintro rfl
            exact ht List.mem_cons_self
          have ht' : backslash ∉ t := fun h => ht (List.mem_cons_of_mem _ h)
          have hlast : (d :: t).getLast? ≠ some backslash := fun h => ht (List.mem_of_getLast? h)
          rw [if_pos rfl, Guarded, guarded_iff (by simpa using hd) ht']
          simp [ht, hlast, backslash_not_mem]
      · have hlast : (c :: t).getLast? ≠ some backslash := by
          intro h
          rcases List.mem_cons.mp (List.mem_of_getLast? h) with h | h
          · exact hc h.symm
          · exact ht h
        rw [if_neg hc, guarded_iff (by simpa using hc) ht]
        simp [ht, hlast]

/-- A word is a token where a separator follows. -/
theorem Word.token {w rest : Text} (hw : Word w) (hrest : ∀ c ∈ rest.head?, c ∈ separators) :
    Token backslash separators w rest := by
  obtain ⟨hstart, hguarded, hlast, -⟩ := word_iff.mp hw
  exact ⟨hstart, hguarded, fun c hc => ⟨hrest c hc, hlast⟩⟩

/-- Words that are joined by single spaces are the tokens. -/
theorem splits_mergeTokens {words : List Text} (hwords : ∀ w ∈ words, Word w) {tail : Text}
    (htail : ∀ c ∈ tail, c ∈ separators) :
    Splits backslash separators words (mergeTokens words (text " ") ++ tail) := by
  induction words with
  | nil => exact .nil htail
  | cons w words ih =>
    obtain ⟨hw, hwords⟩ := List.forall_mem_cons.mp hwords
    cases words with
    | nil =>
      have hmerge : mergeTokens [w] (text " ") ++ tail = [] ++ (w ++ tail) := by simp [mergeTokens]
      rw [hmerge]
      exact .cons (by simp) (hw.token fun c hc => htail c (List.mem_of_head? hc)) (.nil htail)
    | cons w' words =>
      have hspace : ∀ c ∈ text " ", c ∈ separators := by decide
      have hmerge : mergeTokens (w :: w' :: words) (text " ") ++ tail =
          [] ++ (w ++ (text " " ++ (mergeTokens (w' :: words) (text " ") ++ tail))) := by
        simp [mergeTokens, List.intercalate_cons_cons]
      rw [hmerge]
      refine .cons (by simp) (hw.token ?_) ((ih hwords).gap hspace)
      rintro c ⟨⟩
      decide

variable {line : Text}

/-- Words are read as they are. -/
theorem Splits.tokenize_words {words : List Text} (h : Splits backslash separators words line)
    (hwords : ∀ w ∈ words, Word w) : tokenize backslash separators line = words := by
  rw [h.tokenize_eq]
  conv_rhs => rw [← List.map_id words]
  exact List.map_congr_left fun w hw => (word_iff.mp (hwords w hw)).2.2.2

theorem mem_mergeTokens {tokens : List Text} {separator : Text} {c : UInt8}
    (h : c ∈ mergeTokens tokens separator) : c ∈ separator ∨ ∃ token ∈ tokens, c ∈ token := by
  induction tokens with
  | nil => simp [mergeTokens] at h
  | cons token tokens ih =>
    cases tokens with
    | nil => exact .inr ⟨token, List.mem_cons_self, by simpa [mergeTokens] using h⟩
    | cons next tokens =>
      rw [mergeTokens, List.intercalate_cons_cons, List.mem_append, List.mem_append] at h
      rcases h with (h | h) | h
      · exact .inr ⟨token, List.mem_cons_self, h⟩
      · exact .inl h
      · rcases ih h with h | ⟨token', htoken', h⟩
        · exact .inl h
        · exact .inr ⟨token', List.mem_cons_of_mem _ htoken', h⟩

/-! ## Lines that are not changed -/

/-- A sum that is not less than another one, term by term, is only equal to it term by term. -/
theorem forall_le_of_sum_le {α : Type} {l : List α} {f g : α → Nat} (hle : ∀ x ∈ l, f x ≤ g x)
    (hsum : (l.map g).sum ≤ (l.map f).sum) : ∀ x ∈ l, g x ≤ f x := by
  intro x hx
  by_contra hlt
  exact absurd hsum (Nat.not_le.mpr (List.sum_lt_sum f g hle ⟨x, hx, Nat.not_le.mp hlt⟩))

private theorem count_mergeTokens (tokens : List Text) :
    (mergeTokens tokens (text " ")).count backslash = (tokens.map (List.count backslash)).sum := by
  induction tokens with
  | nil => rfl
  | cons token tokens ih =>
    cases tokens with
    | nil => simp [mergeTokens]
    | cons token' tokens =>
      have hspace : (text " ").count backslash = 0 := by decide
      rw [mergeTokens] at ih ⊢
      rw [List.intercalate_cons_cons, List.count_append, List.count_append, hspace, ih]
      simp only [List.map_cons, List.sum_cons]
      omega

/-- One separator at least stands before each token but the first one. -/
theorem Splits.length_le {tokens : List Text} (h : Splits escape seps tokens line) :
    (mergeTokens (tokens.map (unescapeStr escape)) (text " ")).length ≤ line.length ∧
      (tokens ≠ [] → (∃ c ∈ line.head?, c ∈ seps) →
        (mergeTokens (tokens.map (unescapeStr escape)) (text " ")).length + 1 ≤ line.length) := by
  induction h with
  | nil => exact ⟨Nat.zero_le _, fun h => absurd rfl h⟩
  | @cons gap token rest tokens hgap htoken hsplits ih =>
    have htokenLe := (unescapeStr_sublist escape token).length_le
    have hmerge : (mergeTokens ((token :: tokens).map (unescapeStr escape)) (text " ")).length ≤
        (token ++ rest).length := by
      rw [List.length_append]
      cases tokens with
      | nil =>
        simp only [mergeTokens, List.map_cons, List.map_nil, List.intercalate_singleton]
        omega
      | cons token' tokens =>
        have hrest : ∃ c ∈ rest.head?, c ∈ seps := by
          cases rest with
          | nil => cases hsplits.eq_nil (by rintro c ⟨⟩)
          | cons d rest => exact ⟨d, rfl, (htoken.ends d rfl).1⟩
        have hle := ih.2 (by simp) hrest
        rw [mergeTokens] at hle ⊢
        rw [List.map_cons, List.map_cons, List.intercalate_cons_cons, ← List.map_cons,
          List.length_append, List.length_append]
        have hspace : (text " ").length = 1 := rfl
        omega
    refine ⟨by rw [List.length_append]; omega, ?_⟩
    rintro - ⟨c, hc, hsep⟩
    cases gap with
    | nil =>
      -- the line would begin with a token
      obtain ⟨d, t, rfl, hd⟩ := htoken.start
      cases hc
      exact absurd hsep hd
    | cons d gap =>
      rw [List.cons_append, List.length_cons, List.length_append]
      omega

/-- A line that loses no backslash consists of words. -/
theorem word_of_count (hlast : line.getLast? ≠ some backslash) (hcount : line.count backslash ≤
      (mergeTokens (tokenize backslash separators line) (text " ")).count backslash) :
    ∀ w ∈ tokenize backslash separators line, Word w := by
  obtain ⟨tokens, htokens⟩ := exists_splits backslash separators line
  rw [count_mergeTokens, htokens.tokenize_eq, htokens.count backslash_not_mem, List.map_map] at hcount
  rw [htokens.tokenize_eq, List.forall_mem_map]
  have hsame := forall_le_of_sum_le (l := tokens)
    (fun token _ => (unescapeStr_sublist backslash token).count_le backslash) hcount
  intro token htoken
  rw [unescapeStr_eq_of_count (hsame token htoken)]
  obtain ⟨rest, htoken'⟩ := htokens.token token htoken
  exact word_iff.mpr ⟨htoken'.start, htoken'.guarded, htokens.getLast?_ne hlast token htoken,
    unescapeStr_eq_of_count (hsame token htoken)⟩

end TweakTool.Cli
