import Mathlib.Data.List.TakeWhile

/-! # Lines

A file that is read line by line: each line has its line break at the end, except that the last one
may lack it. -/

namespace TweakTool.Lib

variable {α : Type} [DecidableEq α] {brk : α}

/-- The lines of a file. -/
def lines (brk : α) : List α → List (List α)
  | [] => []
  | c :: rest =>
    if c = brk then [c] :: lines brk rest
    else
      match lines brk rest with
      | [] => [[c]]
      | line :: more => (c :: line) :: more

/-- What is left of the first line of a text that is printed with a line break after it. -/
def firstLine (brk : α) (text : List α) : List α := text.takeWhile (· ≠ brk)

/-- The lines of such a text after the first one. -/
def moreLines (brk : α) (text : List α) : List (List α) := (lines brk (text ++ [brk])).tail

theorem lines_break (rest : List α) : lines brk (brk :: rest) = [brk] :: lines brk rest := by
  rw [lines, if_pos rfl]

/-- Characters before a line belong to the line. -/
theorem lines_append_of_cons {before rest line : List α} {more : List (List α)}
    (hbefore : brk ∉ before) (h : lines brk rest = line :: more) :
    lines brk (before ++ rest) = (before ++ line) :: more := by
  induction before with
  | nil => exact h
  | cons c before ih =>
    rw [List.mem_cons, not_or] at hbefore
    rw [List.cons_append, lines, if_neg (Ne.symm hbefore.1), ih hbefore.2]
    rfl

theorem lines_line {line : List α} (hline : brk ∉ line) (rest : List α) :
    lines brk (line ++ brk :: rest) = (line ++ [brk]) :: lines brk rest :=
  lines_append_of_cons hline (lines_break rest)

theorem firstLine_line {line : List α} (hline : brk ∉ line) (rest : List α) :
    firstLine brk (line ++ brk :: rest) = line := by
  rw [firstLine, List.takeWhile_append_of_pos, List.takeWhile_cons_of_neg, List.append_nil]
  · simp
  · intro c hc
    rw [decide_eq_true_eq]
    rintro rfl
    exact hline hc

theorem firstLine_of_not_mem {text : List α} (h : brk ∉ text) : firstLine brk text = text := by
  refine List.takeWhile_eq_self_iff.mpr fun c hc => ?_
  rw [decide_eq_true_eq]
  rintro rfl
  exact h hc

theorem moreLines_of_not_mem {text : List α} (h : brk ∉ text) : moreLines brk text = [] := by
  rw [moreLines, lines_line h]
  rfl

theorem moreLines_line {line : List α} (hline : brk ∉ line) (rest : List α) :
    moreLines brk (line ++ brk :: rest) = lines brk (rest ++ [brk]) := by
  rw [moreLines, List.append_assoc, List.cons_append, lines_line hline]
  rfl

/-- A text has no line break, or ends its first line with the first one. -/
theorem exists_line (brk : α) (text : List α) :
    brk ∉ text ∨ ∃ line rest, brk ∉ line ∧ text = line ++ brk :: rest := by
  by_cases h : brk ∈ text
  · obtain ⟨line, rest, rfl, hline⟩ := List.eq_append_cons_of_mem h
    exact .inr ⟨line, rest, hline, rfl⟩
  · exact .inl h

/-- A text that is printed in a line of its own. -/
theorem lines_text (text : List α) :
    lines brk (text ++ [brk]) = (firstLine brk text ++ [brk]) :: moreLines brk text := by
  rcases exists_line brk text with h | ⟨line, rest, hline, rfl⟩
  · rw [lines_line h, firstLine_of_not_mem h, moreLines_of_not_mem h]
    rfl
  · rw [firstLine_line hline, moreLines_line hline, List.append_assoc, List.cons_append,
      lines_line hline]

theorem lines_append_break (text rest : List α) :
    lines brk (text ++ brk :: rest) = lines brk (text ++ [brk]) ++ lines brk rest := by
  induction text with
  | nil =>
    rw [List.nil_append, List.nil_append, lines_break, lines_break]
    rfl
  | cons c text ih =>
    rw [List.cons_append, List.cons_append, lines, lines, ih]
    split
    · rfl
    · rw [lines_text]
      rfl

/-- A text that is printed after another one, in a line of their own. -/
theorem lines_labelled {label : List α} (hlabel : brk ∉ label) (text rest : List α) :
    lines brk (label ++ (text ++ brk :: rest)) =
      (label ++ (firstLine brk text ++ [brk])) :: (moreLines brk text ++ lines brk rest) := by
  have htext : lines brk (text ++ brk :: rest) =
      (firstLine brk text ++ [brk]) :: (moreLines brk text ++ lines brk rest) := by
    rw [lines_append_break, lines_text]
    rfl
  rw [lines_append_of_cons hlabel htext]

end TweakTool.Lib
