import Storyboard.Proofs.Source.CallStatement
import Storyboard.Proofs.Source.LoopHeader
import Storyboard.Proofs.Text.Lines
import Storyboard.Source.Line

/-!
# Statements on lines of their own

A text that has no comment, no outer blanks and no line end, and is no header of a definition, is
scanned as it stands (`scanFrom_statement`).  So is the header of a loop over listed scalars, and so
is a call of `push` with a scalar, which is found with that one argument and with nothing else but
what is called inside the argument (`calls_pushOf`).
-/

namespace Storyboard.Source

open Literal (chars joinedChars)

/-! ## Comments -/

/-- A comment is looked for behind the text as if the text were not there. -/
def HasNoComment (text : List Char) : Prop :=
  ∀ rest, stripCommentFrom none false (text ++ rest) = text ++ stripCommentFrom none false rest

theorem HasNoComment.append {text more : List Char} (h : HasNoComment text)
    (hmore : HasNoComment more) : HasNoComment (text ++ more) := by
  intro rest
  rw [List.append_assoc, h, hmore, List.append_assoc]

theorem HasNoComment.stripComment {text : List Char} (h : HasNoComment text) :
    stripComment text = text := by
  have hend := h []
  rw [List.append_nil, stripCommentFrom, List.append_nil] at hend
  exact hend

/-- Neither a quote nor a backslash nor a hash. -/
def isUnmarked (c : Char) : Bool := !isQuote c && c != '\\' && c != '#'

theorem hasNoComment_of_unmarked {text : List Char} (h : text.all isUnmarked = true) :
    HasNoComment text := by
  intro rest
  induction text with
  | nil => rfl
  | cons c text ih =>
    rw [List.all_cons, Bool.and_eq_true] at h
    obtain ⟨hc, htext⟩ := h
    simp only [isUnmarked, Bool.and_eq_true, Bool.not_eq_true', bne_iff_ne] at hc
    obtain ⟨⟨hquote, hguard⟩, hhash⟩ := hc
    rw [List.cons_append, List.cons_append, ← ih htext]
    simp [stripCommentFrom, quoteAfter, hquote, hguard, hhash]

/-- A text without its own quote and a backslash inside hides its hashes. -/
theorem hasNoComment_text {s : String} (h : (Literal.text s).hasPlainTexts = true) :
    HasNoComment (chars true (.text s)) := by
  have hguarded : ∀ body : List Char,
      body.all (fun c => c != '\'' && c != '\\' && c != '\n') = true → IsGuarded '\'' body := by
    intro body hbody
    induction body with
    | nil => exact .nil
    | cons c body ih =>
      rw [List.all_cons, Bool.and_eq_true] at hbody
      simp only [Bool.and_eq_true, bne_iff_ne] at hbody
      exact .plain hbody.1.1.2 hbody.1.1.1 (ih hbody.2)
  intro rest
  rw [chars, if_pos rfl, List.cons_append, List.append_assoc]
  show '\'' :: stripCommentFrom (some '\'') false (s.toList ++ '\'' :: rest) = _
  rw [stripCommentFrom_guarded (hguarded _ h) (by decide)]
  simp

variable {value : Literal} {values : List Literal}

theorem hasNoComment_chars (hscalar : value.isScalar = true) (hplain : value.hasPlainTexts = true) :
    HasNoComment (chars true value) := by
  by_cases htext : ∃ s, value = .text s
  · obtain ⟨s, rfl⟩ := htext
    exact hasNoComment_text hplain
  · refine hasNoComment_of_unmarked (List.all_eq_true.mpr fun c hc => ?_)
    have hbare := Literal.isBare_of_mem_chars hscalar (fun s hs => htext ⟨s, hs⟩) c hc
    have hmarks := Literal.beq_of_starts hbare ['"', '\'', '\\', '#'] (by decide)
    simp only [List.forall_mem_cons, beq_eq_false_iff_ne] at hmarks
    simp [isUnmarked, isQuote, hmarks]

theorem hasNoComment_joinedChars (hscalar : ∀ value ∈ values, value.isScalar = true)
    (hplain : ∀ value ∈ values, value.hasPlainTexts = true) : HasNoComment (joinedChars values) := by
  induction values with
  | nil => exact fun _ => rfl
  | cons value values ih =>
    obtain ⟨hvalue, hvalues⟩ := List.forall_mem_cons.mp hscalar
    obtain ⟨hvaluePlain, hvaluesPlain⟩ := List.forall_mem_cons.mp hplain
    have hrest : HasNoComment (Literal.itemsChars values) := by
      cases values with
      | nil => exact fun _ => rfl
      | cons next values =>
        rw [Literal.itemsChars_cons]
        have hcomma : HasNoComment [',', ' '] := hasNoComment_of_unmarked rfl
        exact hcomma.append (ih hvalues hvaluesPlain)
    rw [joinedChars]
    exact (hasNoComment_chars hvalue hvaluePlain).append hrest

theorem hasNoComment_listedHeader (hscalar : ∀ value ∈ values, value.isScalar = true)
    (hplain : ∀ value ∈ values, value.hasPlainTexts = true) :
    HasNoComment (listedHeader values) := by
  have hfront : HasNoComment ['f', 'o', 'r', ' ', 'v', ' ', 'i', 'n', ' ', '['] :=
    hasNoComment_of_unmarked rfl
  have hback : HasNoComment [']', ':'] := hasNoComment_of_unmarked rfl
  have hwhole := (hfront.append (hasNoComment_joinedChars hscalar hplain)).append hback
  rw [listedHeader, Literal.chars_list]
  simpa using hwhole

theorem hasNoComment_pushOf {arg : List Char} (h : HasNoComment arg) : HasNoComment (pushOf arg) := by
  have hfront : HasNoComment ['s', '.', 'p', 'u', 's', 'h', '('] :=
    hasNoComment_of_unmarked rfl
  have hback : HasNoComment [')'] := hasNoComment_of_unmarked rfl
  exact hfront.append (h.append hback)

/-! ## Lines -/

/-- A text that stands on a line as it is and starts no definition. -/
structure IsStatement (text : List Char) : Prop where
  nonempty : text ≠ []
  comment : stripComment text = text
  trimmed : Text.IsTrimmed text
  newline : '\n' ∉ text
  isClassHeader : isClassHeader text = false
  defParams : defParams? text = none

theorem IsStatement.isLine {text : List Char} (h : IsStatement text) :
    '\n' ∉ text ∧ text.getLast? ≠ some '\r' := by
  refine ⟨h.newline, fun hlast => ?_⟩
  have hblank := h.trimmed.finish '\r' hlast
  exact absurd hblank (by decide)

/-- A statement outside of definitions is scanned as it stands. -/
theorem scanFrom_statement {text : List Char} (h : IsStatement text) (number : Nat)
    (rest : List (List Char)) :
    scanFrom [] number (text :: rest) =
      lineIn [] number 0 text :: scanFrom [] (number + 1) rest := by
  have hindent : indentation text = 0 := by
    obtain ⟨c, cs, rfl⟩ := List.exists_cons_of_ne_nil h.nonempty
    have hc := h.trimmed.start c rfl
    rw [indentation, List.takeWhile_cons_of_neg (by simp [hc])]
    rfl
  rw [scanFrom, h.comment, Text.trim_of_isTrimmed h.trimmed]
  dsimp only
  rw [if_neg (by simpa using h.nonempty), hindent]
  simp [enclosing, blocksBelow, h.isClassHeader, h.defParams]

/-- Texts with a line end behind each of them. -/
def unlines (texts : List (List Char)) : List Char := texts.flatMap (· ++ ['\n'])

theorem lines_unlines {texts : List (List Char)}
    (h : ∀ text ∈ texts, '\n' ∉ text ∧ text.getLast? ≠ some '\r') :
    Text.lines (unlines texts) = texts := by
  induction texts with
  | nil => rfl
  | cons text texts ih =>
    obtain ⟨⟨hnewline, hreturn⟩, htexts⟩ := List.forall_mem_cons.mp h
    have hfirst : Text.lines (text ++ ['\n']) = [text] := by
      rw [Text.lines_newline hnewline, Text.dropReturn_of_getLast hreturn]
    rw [unlines, List.flatMap_cons, Text.lines_append (Text.unfinished_append_newline text), hfirst,
      ← unlines, ih htexts]
    rfl

/-! ## Calls of `push` -/

/-- A scalar is pushed by a statement of its own. -/
theorem isStatement_pushOf (hscalar : value.isScalar = true) (hplain : value.hasPlainTexts = true) :
    IsStatement (pushOf (chars true value)) where
  nonempty := List.cons_ne_nil _ _
  comment := (hasNoComment_pushOf (hasNoComment_chars hscalar hplain)).stripComment
  trimmed := Text.isTrimmed_cons_concat (['.', 'p', 'u', 's', 'h', '('] ++ chars true value) rfl rfl
  newline := by
    have hnone : '\n' ∉ chars true value := by
      refine Literal.not_mem_chars rfl (by decide) hscalar fun s hs hmem => ?_
      subst hs
      have hline := List.all_eq_true.mp hplain _ hmem
      exact absurd hline (by decide)
    simp [pushOf, hnone]
  isClassHeader := rfl
  defParams := rfl

theorem isStatement_listedHeader (hscalar : ∀ value ∈ values, value.isScalar = true)
    (hplain : ∀ value ∈ values, value.hasPlainTexts = true) : IsStatement (listedHeader values) where
  nonempty := List.cons_ne_nil _ _
  comment := (hasNoComment_listedHeader hscalar hplain).stripComment
  trimmed := Text.isTrimmed_cons_concat
    (['o', 'r', ' ', 'v', ' ', 'i', 'n', ' '] ++ chars true (.list values)) rfl rfl
  newline := by
    have hnone : '\n' ∉ chars true (.list values) := by
      refine Literal.not_mem_chars_list rfl (by decide) hscalar fun s hs hmem => ?_
      have hline := List.all_eq_true.mp (hplain _ hs) _ hmem
      exact absurd hline (by decide)
    simp [listedHeader, hnone]
  isClassHeader := rfl
  defParams := rfl

/-- Of a call of `push` with one argument, that call is found, and then those inside it. -/
theorem calls_pushOf {arg : List Char} (h : IsArgument arg) :
    calls (pushOf arg) = ⟨some ['s'], "push", [arg]⟩ :: calls (arg ++ [')']) := by
  have hcallee : IsCallee ['s', '.', 'p', 'u', 's', 'h'] (some ['s']) ['p', 'u', 's', 'h'] :=
    ⟨rfl, List.all_eq_true.mp rfl, rfl⟩
  have hcall := calls_callText hcallee (List.forall_mem_singleton.mpr h)
  rwa [callText, argsText, List.intercalate_singleton] at hcall

end Storyboard.Source
