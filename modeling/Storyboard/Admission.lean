import Storyboard.Syntax.Statement
import Storyboard.Text.Case
import Storyboard.Text.Search

/-!
# Admission

A program is looked at before any story is told of it: it must not be empty, too long, ill-formed or
too deep in loops.  One that speaks of no data structure is admitted as a generic one.
-/

namespace Storyboard.Admission

/-- What a program was found to be. -/
inductive Verdict where
  | empty
  | tooLong
  | illFormed
  | tooManyLoops
  | generic
  | suitable
  deriving DecidableEq

/-- The number of lines that a program has at most. -/
def maxLines : Nat := 1000

/-- The number of loops that a program has at most. -/
def maxLoops : Nat := 10

/-- Words that speak of data structures and algorithms. -/
def vocabulary : List (List Char) :=
  ["stack", "queue", "linked", "list", "tree", "graph", "sort", "search", "insert", "delete",
    "enqueue", "dequeue", "push", "pop"].map String.toList

/-- The program speaks of a data structure or an algorithm, in letters of either case. -/
def speaksOfStructures (code : List Char) : Bool :=
  let folded := code.map Text.fold
  vocabulary.any fun word => Text.occursIn word folded

/-- Judges a program. -/
def judge (code : String) : Verdict :=
  let text := code.toList
  let trimmed := Text.trim text
  if trimmed.isEmpty then .empty
  else if maxLines < (Text.lines trimmed).length then .tooLong
  else
    let program := Syntax.Program.ofCode text
    if !program.isWellFormed then .illFormed
    else if maxLoops < Syntax.Statement.loopsOf program.statements then .tooManyLoops
    else if speaksOfStructures text then .suitable
    else .generic

namespace Verdict

/-- The program may be told. -/
def isAdmitted : Verdict → Bool
  | generic | suitable => true
  | empty | tooLong | illFormed | tooManyLoops => false

/-- The name of the category. -/
def category : Verdict → String
  | empty | illFormed => "invalid"
  | tooLong => "too_long"
  | tooManyLoops => "too_deep"
  | generic => "generic"
  | suitable => "valid"

/-- The reason in words. -/
def reason : Verdict → String
  | empty => "empty code"
  | tooLong => "code too long for visualization"
  | illFormed => "syntax error"
  | tooManyLoops => "too many loops for animation"
  | generic => "generic code, universal fallback only"
  | suitable => "code suitable for visualization"

end Verdict

end Storyboard.Admission
