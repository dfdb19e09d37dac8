import Mathlib
import Storyboard.Text.Trim

/-!
# Lines of growing texts

A text is cut behind its last line end.  What stands before the cut has its lines for good, and what
stands behind it is one line more that a longer text may go on with.
-/

namespace Storyboard.Text

variable {cs line : List Char}

/-- The text up to its last line end. -/
def finished (cs : List Char) : List Char := cs.rdropWhile (· != '\n')

/-- What stands behind the last line end. -/
def unfinished (cs : List Char) : List Char := cs.rtakeWhile (· != '\n')

theorem finished_append_unfinished (cs : List Char) : finished cs ++ unfinished cs = cs :=
  List.rdropWhile_append_rtakeWhile

theorem newline_not_mem_unfinished (cs : List Char) : '\n' ∉ unfinished cs := by
  intro h
  have hne := List.mem_rtakeWhile_imp h
  exact absurd hne (by decide)

theorem finished_cases (cs : List Char) :
    finished cs = [] ∨ ∃ front, finished cs = front ++ ['\n'] := by
  by_cases h : finished cs = []
  · exact Or.inl h
  · have hlast : ¬ ((finished cs).getLast h != '\n') = true := List.rdropWhile_last_not _ _ h
    have heq : (finished cs).getLast h = '\n' := by simpa using hlast
    exact Or.inr ⟨(finished cs).dropLast, by rw [← heq, List.dropLast_append_getLast h]⟩

theorem unfinished_append_newline (cs : List Char) : unfinished (cs ++ ['\n']) = [] :=
  List.rtakeWhile_concat_neg _ _ _ (by decide)

/-- A line end closes the lines before it. -/
theorem linesFrom_append_newline (line cs rest : List Char) :
    linesFrom line (cs ++ '\n' :: rest) = linesFrom line (cs ++ ['\n']) ++ lines rest := by
  induction cs generalizing line with
  | nil => rfl
  | cons c cs ih =>
    rw [List.cons_append, List.cons_append, linesFrom, linesFrom]
    split
    · rw [ih, List.cons_append]
    · exact ih _

/-- What is added behind a line end has lines of its own. -/
theorem lines_append (h : unfinished cs = []) (rest : List Char) :
    lines (cs ++ rest) = lines cs ++ lines rest := by
  have hfinished := finished_append_unfinished cs
  rw [h, List.append_nil] at hfinished
  obtain hnil | ⟨front, hfront⟩ := finished_cases cs
  · rw [← hfinished, hnil]
    rfl
  · rw [← hfinished, hfront, List.append_assoc]
    exact linesFrom_append_newline [] front rest

theorem linesFrom_of_not_mem (line : List Char) (h : '\n' ∉ cs) :
    linesFrom line cs = linesFrom (cs.reverse ++ line) [] := by
  induction cs generalizing line with
  | nil => rfl
  | cons c cs ih =>
    rw [List.mem_cons, not_or] at h
    have hc : (c == '\n') = false := beq_false_of_ne (Ne.symm h.1)
    calc linesFrom line (c :: cs) = linesFrom (c :: line) cs := by
          rw [linesFrom, hc, if_neg Bool.false_ne_true]
      _ = linesFrom (cs.reverse ++ c :: line) [] := ih _ h.2
      _ = linesFrom ((c :: cs).reverse ++ line) [] := by
          rw [List.reverse_cons, List.append_assoc, List.singleton_append]

/-- A text without a line end is one line, unless it is empty. -/
theorem lines_of_not_mem (h : '\n' ∉ cs) : lines cs = if cs.isEmpty then [] else [cs] := by
  rw [lines, linesFrom_of_not_mem [] h, linesFrom, List.append_nil, List.reverse_reverse,
    List.isEmpty_reverse]

theorem linesFrom_newline (line : List Char) (h : '\n' ∉ cs) :
    linesFrom line (cs ++ ['\n']) = [dropReturn (line.reverse ++ cs)] := by
  induction cs generalizing line with
  | nil => rw [List.append_nil]; rfl
  | cons c cs ih =>
    rw [List.mem_cons, not_or] at h
    have hc : (c == '\n') = false := beq_false_of_ne (Ne.symm h.1)
    rw [List.cons_append, linesFrom, hc, if_neg Bool.false_ne_true, ih _ h.2, List.reverse_cons,
      List.append_assoc, List.singleton_append]

/-- A text with its only line end behind it is one line. -/
theorem lines_newline (h : '\n' ∉ cs) : lines (cs ++ ['\n']) = [dropReturn cs] :=
  linesFrom_newline [] h

theorem dropReturn_of_getLast (h : line.getLast? ≠ some '\r') : dropReturn line = line := by
  unfold dropReturn
  split
  next rest hrest =>
    rw [List.getLast?_eq_head?_reverse, hrest] at h
    exact absurd rfl h
  next => rfl

end Storyboard.Text
