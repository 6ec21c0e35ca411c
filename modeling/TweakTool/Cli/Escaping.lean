import TweakTool.Cli.Tokens

/-! # Escaping

What the tokenizer is the inverse of: tokens in which separators and escape characters are guarded by
an escape character, with separators between them.

Both helpers of the tokenizer look at one neighbour of a character only. The one that splits takes a
separator after an escape character to be escaped, although that character may itself be an escaped
one; and the one that unescapes never drops the first character of a token. -/

namespace TweakTool.Cli

open TweakTool.Lib

section Escaping

variable (escape : UInt8) (seps : Text)

/-- An escape character before each separator and each escape character. -/
def escapeStr (token : Text) : Text :=
  token.flatMap fun c => if c ∈ seps ∨ c = escape then [escape, c] else [c]

structure Piece (seps : Text) where
  token : Text
  gap : Text
  nonempty : token ≠ []
  separating : ∀ c ∈ gap, c ∈ seps

/-- No two tokens run together. -/
def Apart {seps : Text} : List (Piece seps) → Prop
  | [] => True
  | piece :: pieces => (pieces ≠ [] → piece.gap ≠ []) ∧ Apart pieces

def joinEscaped {seps : Text} (pieces : List (Piece seps)) : Text :=
  pieces.flatMap fun piece => escapeStr escape seps piece.token ++ piece.gap

/-- The first character that is not an escape character is not a separator, and if separators follow
then the last one is not an escape character. -/
structure Recovered {seps : Text} (piece : Piece seps) : Prop where
  start : ∀ c ∈ (piece.token.dropWhile (· = escape)).head?, c ∉ seps
  «end» : piece.gap ≠ [] → piece.token.getLast? ≠ some escape

variable {escape seps}

/-! ## Unescaping -/

theorem escapeStr_cons_special {c : UInt8} (h : c ∈ seps ∨ c = escape) (t : Text) :
    escapeStr escape seps (c :: t) = escape :: c :: escapeStr escape seps t := by
  rw [escapeStr, List.flatMap_cons, if_pos h]
  rfl

theorem escapeStr_cons_plain {c : UInt8} (h : ¬ (c ∈ seps ∨ c = escape)) (t : Text) :
    escapeStr escape seps (c :: t) = c :: escapeStr escape seps t := by
  rw [escapeStr, List.flatMap_cons, if_neg h]
  rfl

/-- After a character that was copied, everything is as it should be. -/
theorem unescapeStr_cons_escapeStr (c : UInt8) (t : Text) :
    unescapeStr escape (c :: escapeStr escape seps t) = c :: t := by
  induction t generalizing c with
  | nil => rfl
  | cons d t ih =>
    by_cases hd : d ∈ seps ∨ d = escape
    · rw [escapeStr_cons_special hd, unescapeStr, if_pos rfl, ih]
    · rw [escapeStr_cons_plain hd, unescapeStr, if_neg (not_or.mp hd).2, ih]

private theorem unescapeStr_escapeStr_iff (hescape : escape ∉ seps) (t : Text) :
    unescapeStr escape (escapeStr escape seps t) = t ↔
      ∀ c ∈ (t.dropWhile (· = escape)).head?, c ∉ seps := by
  induction t with
  | nil => simp [escapeStr, unescapeStr]
  | cons c t ih =>
    by_cases hc : c = escape
    · -- the escape character is copied, and the one that it stands for is dropped
      subst hc
      rw [escapeStr_cons_special (.inr rfl), unescapeStr, if_pos rfl, List.cons_inj_right, ih,
        List.dropWhile_cons_of_pos (by simp)]
    · rw [List.dropWhile_cons_of_neg (by simpa using hc), List.head?_cons]
      by_cases hsep : c ∈ seps
      · rw [escapeStr_cons_special (.inl hsep), unescapeStr, if_neg hc]
        constructor
        · intro h
          exact absurd (List.cons.inj h).1.symm hc
        · intro h
          exact absurd hsep (h c rfl)
      · rw [escapeStr_cons_plain (not_or.mpr ⟨hsep, hc⟩), unescapeStr_cons_escapeStr]
        simpa using hsep

/-! ## Splitting -/

/-- No separator is left without an escape character. -/
theorem guarded_escapeStr (hescape : escape ∉ seps) (prev : Option UInt8) (t : Text) :
    Guarded escape seps prev (escapeStr escape seps t) := by
  induction t generalizing prev with
  | nil => trivial
  | cons c t ih =>
    by_cases hc : c ∈ seps ∨ c = escape
    · rw [escapeStr_cons_special hc]
      exact ⟨fun h => absurd h hescape, fun _ => rfl, ih _⟩
    · rw [escapeStr_cons_plain hc]
      exact ⟨fun h => absurd h (not_or.mp hc).1, ih _⟩

theorem getLast?_escapeStr (t : Text) : (escapeStr escape seps t).getLast? = t.getLast? := by
  induction t with
  | nil => rfl
  | cons c t ih =>
    by_cases hc : c ∈ seps ∨ c = escape
    · rw [escapeStr_cons_special hc, List.getLast?_cons_cons, List.getLast?_cons, List.getLast?_cons, ih]
    · rw [escapeStr_cons_plain hc, List.getLast?_cons, List.getLast?_cons, ih]

private theorem escapeStr_start (hescape : escape ∉ seps) {t : Text} (ht : t ≠ []) :
    ∃ c rest, escapeStr escape seps t = c :: rest ∧ c ∉ seps := by
  obtain ⟨c, t, rfl⟩ := List.exists_cons_of_ne_nil ht
  by_cases hc : c ∈ seps ∨ c = escape
  · exact ⟨escape, _, escapeStr_cons_special hc t, hescape⟩
  · exact ⟨c, _, escapeStr_cons_plain hc t, (not_or.mp hc).1⟩

private theorem countP_escapeStr (t : Text) :
    (escapeStr escape seps t).countP (· ≠ escape) = t.countP (· ≠ escape) := by
  induction t with
  | nil => rfl
  | cons c t ih =>
    by_cases hc : c ∈ seps ∨ c = escape
    · rw [escapeStr_cons_special hc, List.countP_cons, List.countP_cons, List.countP_cons, ih]
      simp
    · rw [escapeStr_cons_plain hc, List.countP_cons, List.countP_cons, ih]

/-- The search goes on behind a text in which all separators are escaped. -/
theorem strpbrkUnescapedNoNull_guarded {prev : Option UInt8} {before : Text}
    (hguarded : Guarded escape seps prev before) (rest : Text) :
    (strpbrkUnescapedNoNull escape seps prev (before ++ rest)).1 =
      before ++ (strpbrkUnescapedNoNull escape seps (before.getLast?.or prev) rest).1 := by
  induction before generalizing prev with
  | nil => rfl
  | cons c before ih =>
    have hnot : ¬ (c ∈ seps ∧ prev ≠ some escape) := fun h => h.2 (hguarded.1 h.1)
    rw [List.cons_append, strpbrkUnescapedNoNull, if_neg hnot, getLast?_cons_or]
    exact congrArg (c :: ·) (ih hguarded.2)

private theorem tokenize_start {c : UInt8} (hc : c ∉ seps) (line : Text) :
    ∃ tokens, tokenize escape seps (c :: line) =
      unescapeStr escape (strpbrkUnescapedNoNull escape seps none (c :: line)).1 :: tokens := by
  have htrim : trimleft seps (c :: line) = c :: line :=
    List.dropWhile_cons_of_neg (by simpa using hc)
  rw [tokenize, List.length_cons, tokensLoop, htrim]
  exact ⟨_, rfl⟩

/-- Separators at the start of a line do not count. -/
theorem tokenize_gap {gap : Text} (hgap : ∀ c ∈ gap, c ∈ seps) (line : Text) :
    tokenize escape seps (gap ++ line) = tokenize escape seps line := by
  obtain ⟨tokens, h⟩ := exists_splits escape seps line
  rw [h.tokenize_eq, (h.gap hgap).tokenize_eq]

private theorem tokenize_token {token rest : Text} (h : Token escape seps token rest) :
    tokenize escape seps (token ++ rest) = unescapeStr escape token :: tokenize escape seps rest := by
  obtain ⟨tokens, htokens⟩ := exists_splits escape seps rest
  have hsplits : Splits escape seps (token :: tokens) ([] ++ (token ++ rest)) :=
    .cons (by simp) h htokens
  exact hsplits.tokenize_eq.trans (by rw [htokens.tokenize_eq, List.map_cons])

/-- A token that ends with an escape character swallows the separator after it. -/
theorem tokenize_swallows (hescape : escape ∉ seps) {token : Text} (htoken : token ≠ [])
    (hlast : token.getLast? = some escape) (d : UInt8) (rest : Text) (hd : d ∈ seps) :
    (tokenize escape seps (escapeStr escape seps token ++ d :: rest)).head? ≠ some token := by
  have hguarded := guarded_escapeStr hescape none token
  have hfirst := strpbrkUnescapedNoNull_guarded hguarded (d :: rest)
  rw [getLast?_escapeStr, hlast, Option.some_or, strpbrkUnescapedNoNull, if_neg (by simp)] at hfirst
  obtain ⟨c, t, hstart, hc⟩ := escapeStr_start hescape htoken
  rw [hstart, List.cons_append] at hfirst ⊢
  obtain ⟨tokens, htokens⟩ := tokenize_start hc (t ++ d :: rest)
  rw [htokens, hfirst, List.head?_cons]
  -- there is one character too many
  intro heq
  have hcount := congrArg (List.countP (· ≠ escape)) (Option.some.inj heq)
  have hne : d ≠ escape := fun h => hescape (h ▸ hd)
  rw [countP_unescapeStr (by simp), ← hstart, List.countP_append, countP_escapeStr,
    List.countP_cons, if_pos (by simpa using hne)] at hcount
  omega

/-! ## Lines -/

theorem joinEscaped_cons (piece : Piece seps) (pieces : List (Piece seps)) :
    joinEscaped escape (piece :: pieces) =
      escapeStr escape seps piece.token ++ (piece.gap ++ joinEscaped escape pieces) := by
  rw [joinEscaped, List.flatMap_cons, List.append_assoc]
  rfl

/-- A token that is recovered, and what comes after it. -/
theorem tokenize_piece (hescape : escape ∉ seps) {piece : Piece seps} {pieces : List (Piece seps)}
    (hapart : Apart (piece :: pieces))
    (hend : piece.gap ≠ [] → piece.token.getLast? ≠ some escape) :
    tokenize escape seps (joinEscaped escape (piece :: pieces)) =
      unescapeStr escape (escapeStr escape seps piece.token) ::
        tokenize escape seps (joinEscaped escape pieces) := by
  have htoken : Token escape seps (escapeStr escape seps piece.token)
      (piece.gap ++ joinEscaped escape pieces) := by
    refine ⟨escapeStr_start hescape piece.nonempty, guarded_escapeStr hescape none _, ?_⟩
    intro c hc
    rw [getLast?_escapeStr]
    cases hgap : piece.gap with
    | nil =>
      have hpieces : pieces = [] := by
        by_contra h
        exact hapart.1 h hgap
      rw [hgap, hpieces] at hc
      cases hc
    | cons d gap =>
      rw [hgap] at hc
      obtain rfl : d = c := Option.some.inj hc
      exact ⟨piece.separating d (by rw [hgap]; exact List.mem_cons_self), hend (by simp [hgap])⟩
  rw [joinEscaped_cons, tokenize_token htoken, tokenize_gap piece.separating]

/-- The tokenizer finds the tokens of a line exactly if each of them is recovered. -/
theorem tokenize_joinEscaped_iff (hescape : escape ∉ seps) {lead : Text} (hlead : ∀ c ∈ lead, c ∈ seps)
    {pieces : List (Piece seps)} (hapart : Apart pieces) :
    tokenize escape seps (lead ++ joinEscaped escape pieces) = pieces.map Piece.token ↔
      ∀ piece ∈ pieces, Recovered escape piece := by
  rw [tokenize_gap hlead]
  induction pieces with
  | nil => simp [joinEscaped, tokenize, tokensLoop]
  | cons piece pieces ih =>
    rw [List.map_cons, List.forall_mem_cons]
    by_cases hend : piece.gap ≠ [] → piece.token.getLast? ≠ some escape
    · rw [tokenize_piece hescape hapart hend, List.cons.injEq, unescapeStr_escapeStr_iff hescape,
        ih hapart.2]
      exact and_congr_left' ⟨fun h => ⟨h, hend⟩, fun h => h.start⟩
    · obtain ⟨hgap, hlast⟩ := Classical.not_imp.mp hend
      obtain ⟨d, gap, hd⟩ := List.exists_cons_of_ne_nil hgap
      have hswallow := tokenize_swallows hescape piece.nonempty (not_not.mp hlast) d
        (gap ++ joinEscaped escape pieces) (piece.separating d (by rw [hd]; exact List.mem_cons_self))
      rw [joinEscaped_cons, hd, List.cons_append]
      constructor
      · intro h
        rw [h] at hswallow
        exact absurd rfl hswallow
      · rintro ⟨hrecovered, -⟩
        exact absurd hrecovered.end hend

end Escaping

/-- A space within a token, and a backslash at the start of one. -/
def twoPieces : List (Piece separators) :=
  [⟨text "a b", text " ", by decide, by decide⟩, ⟨text "\\c", [], by decide, by decide⟩]

theorem tokenize_twoPieces :
    tokenize backslash separators (text " " ++ joinEscaped backslash twoPieces) =
      [text "a b", text "\\c"] := by
  have hapart : Apart twoPieces := ⟨fun _ => by decide, fun h => absurd rfl h, trivial⟩
  refine (tokenize_joinEscaped_iff (by decide) (by decide) hapart).mpr ?_
  rw [twoPieces, List.forall_mem_cons, List.forall_mem_singleton]
  refine ⟨⟨?_, by decide⟩, ?_, by decide⟩
  · intro c hc
    obtain rfl : ascii 'a' = c := Option.some.inj hc
    decide
  · intro c hc
    obtain rfl : ascii 'c' = c := Option.some.inj hc
    decide

/-- A token that begins with a space comes back with the backslash. -/
theorem tokenize_leading_space :
    tokenize backslash separators (joinEscaped backslash
        ([⟨text " a", [], by decide, by decide⟩] : List (Piece separators))) =
      [text "\\ a"] ∧ text "\\ a" ≠ text " a" := by
  decide

end TweakTool.Cli
