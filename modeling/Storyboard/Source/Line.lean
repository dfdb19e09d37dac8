import Storyboard.Source.Quotes

/-!
# Lines of source text

`scan` lists the lines of a program that are neither blank nor a mere comment, each with its number,
its indentation and what encloses it: class bodies, function bodies, and the parameters of the
innermost function.  Enclosure is read off the indentation of the headers.
-/

namespace Storyboard.Source

/-- A line that holds code. -/
structure Line where
  /-- Counted from one. -/
  number : Nat
  indent : Nat
  /-- Without its comment and outer blanks. -/
  text : List Char
  /-- The line starts a class or a function. -/
  isHeader : Bool
  inClass : Bool
  inDef : Bool
  /-- The parameters of the innermost enclosing function. -/
  params : List (List Char)

namespace Line

/-- The name before the first dot or bracket is a parameter. -/
def isParam (line : Line) (name : Option (List Char)) : Bool :=
  match name with
  | none => false
  | some name => line.params.contains (baseName name)

/-- An operation on this line belongs to a definition: the line is a header, lies in a class body,
or works on the parameters of its function. -/
def isDefinition (line : Line) (receiver operand : Option (List Char)) : Bool :=
  line.isHeader || line.inClass || line.isParam receiver || line.isParam operand

end Line

/-- A header whose body may still go on. -/
inductive Block where
  | classBody (indent : Nat)
  | defBody (indent : Nat) (params : List (List Char))

namespace Block

/-- The indentation of the header. -/
def indent : Block → Nat
  | classBody indent => indent
  | defBody indent _ => indent

/-- The block is a class body. -/
def isClass : Block → Bool
  | classBody _ => true
  | defBody .. => false

/-- The parameters of a function body. -/
def params? : Block → Option (List (List Char))
  | classBody _ => none
  | defBody _ params => some params

end Block

/-- The width of the leading blanks; a tab counts four. -/
def indentation (raw : List Char) : Nat :=
  ((raw.takeWhile Text.isBlank).map fun c => if c == '\t' then 4 else 1).foldl (· + ·) 0

/-- The name of a parameter without stars, annotation and default; `self` is not counted. -/
def paramName? (param : List Char) : Option (List Char) :=
  let unstarred := param.dropWhile (· == '*')
  let name := Text.trim (unstarred.takeWhile fun c => c != ':' && c != '=')
  if name.isEmpty || name == ['s', 'e', 'l', 'f'] then none else some name

/-- The parameters of a function header. -/
def defParams? (text : List Char) : Option (List (List Char)) := do
  let start := ((Text.dropPrefix? "async".toList text).bind Text.someBlanks?).getD text
  let afterDef ← (Text.dropPrefix? "def".toList start).bind Text.someBlanks?
  let (_, afterName) ← Text.someRun? Text.isWord afterDef
  let inside ← Text.blanksThen? '(' afterName
  if inside.contains ')' then some ((splitArgs (inside.takeWhile (· != ')'))).filterMap paramName?)
  else none

/-- The text is a class header. -/
def isClassHeader (text : List Char) : Bool := "class ".toList.isPrefixOf text

/-- The blocks that enclose a line of the given indentation. -/
def enclosing (blocks : List Block) (indent : Nat) : List Block :=
  blocks.dropWhile fun block => decide (indent ≤ block.indent)

/-- The line of a nonempty text below the given blocks, innermost first. -/
def lineIn (blocks : List Block) (number indent : Nat) (text : List Char) : Line where
  number := number
  indent := indent
  text := text
  isHeader := isClassHeader text || (defParams? text).isSome
  inClass := blocks.any Block.isClass
  inDef := blocks.any fun block => block.params?.isSome
  params := (blocks.findSome? Block.params?).getD []

/-- The blocks below a line, the one that it starts included. -/
def blocksBelow (blocks : List Block) (indent : Nat) (text : List Char) : List Block :=
  if isClassHeader text then .classBody indent :: blocks
  else
    match defParams? text with
    | some params => .defBody indent params :: blocks
    | none => blocks

/-- The lines from number `number` on, below the given blocks. -/
def scanFrom : List Block → Nat → List (List Char) → List Line
  | _, _, [] => []
  | blocks, number, raw :: rest =>
    let text := Text.trim (stripComment raw)
    if text.isEmpty then scanFrom blocks (number + 1) rest
    else
      let indent := indentation raw
      let outer := enclosing blocks indent
      lineIn outer number indent text :: scanFrom (blocksBelow outer indent text) (number + 1) rest

/-- The lines of a program that hold code. -/
def scan (code : String) : List Line := scanFrom [] 1 (Text.lines code.toList)

end Storyboard.Source
