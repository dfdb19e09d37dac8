import Storyboard.Syntax.Expression
import Storyboard.Text.Trim

/-!
# Statements

The statements of a program, as far as a story can be told of them: calls, assignments, loops and
returns, and what groups them.  Blocks are told apart by indentation alone: a block opens where the
line after a colon is indented more than the block around it, and closes before the first line that
is indented less than its first one.
-/

namespace Storyboard.Syntax

/-- A statement, with the line that it starts on. -/
inductive Statement where
  | call (line : Nat) (function arguments : List Char)
  | assign (line : Nat) (target value : List Char)
  | update (line : Nat) (target operator value : List Char)
  /-- The text starts with the keyword. -/
  | return (line : Nat) (text : List Char)
  /-- The header is the first line of the text of the loop; the statements after the loop that
  belong to it are part of its body. -/
  | loop (line : Nat) (header : List Char) (body : List Statement)
  /-- A statement that does nothing but hold others. -/
  | group (body : List Statement)

namespace Statement

mutual

/-- The number of loops in a statement. -/
def loops : Statement → Nat
  | loop _ _ body => loopsOf body + 1
  | group body => loopsOf body
  | _ => 0

/-- The number of loops in statements. -/
def loopsOf : List Statement → Nat
  | [] => 0
  | statement :: rest => statement.loops + loopsOf rest

/-- The depth to which loops are nested in a statement. -/
def depth : Statement → Nat
  | loop _ _ body => depthOf body + 1
  | group body => depthOf body
  | _ => 0

/-- The greatest depth of statements. -/
def depthOf : List Statement → Nat
  | [] => 0
  | statement :: rest => max statement.depth (depthOf rest)

end

end Statement

/-- The statements of a text, and whether all of it fits the grammar. -/
structure Program where
  statements : List Statement
  isWellFormed : Bool

/-- Statements that have been read, and the tokens after them. -/
abbrev Read := Option (List Statement × List Token)

/-- The characters of the text from `start` to `stop`. -/
def slice (code : List Char) (start stop : Nat) : List Char := (code.drop start).take (stop - start)

/-- The line of the text on which a token starts, from the token on and without outer blanks. -/
def headerAt (code : List Char) (t : Token) : List Char :=
  Text.trim ((code.drop t.start).takeWhile (· != '\n'))

/-- Operators that update their target. -/
def updateOps : List String :=
  ["+=", "-=", "*=", "/=", "//=", "%=", "**=", "@=", ">>=", "<<=", "&=", "^=", "|="]

/-- All of the items may be assigned to. -/
def areTargets (items : List (Token × Expression)) : Bool := items.all fun (_, e) => e.isTarget

/-- The right-hand side of an assignment, which may be another assignment: where it ends, and what
follows it. -/
def rightSide : Nat → List Token → Option (Nat × List Token)
  | 0, _ => none
  | fuel + 1, tokens =>
    match keyword? "yield" tokens with
    | some (t, rest) => (yielded (fuelFor tokens) t rest).map fun e => (e.stop, e.rest)
    | none => do
      let (items, stop, rest) ← sequence (fuelFor tokens) tokens
      match op? "=" rest with
      | some (_, rest) => if areTargets items then rightSide fuel rest else none
      | none => return (stop, rest)

/-- The calls among the items of an expression statement. -/
def callsOf (code : List Char) (items : List (Token × Expression)) : List Statement :=
  items.filterMap fun (first, e) =>
    e.call?.map fun shape =>
      .call first.line (slice code first.start shape.functionStop)
        (slice code shape.argumentsStart e.stop)

/-- An assignment of what follows the equals sign. -/
def assignment (code : List Char) (first : Token) (targetStop : Nat) (value : List Token) :
    Read := do
  let start ← value.head?
  let (stop, rest) ← rightSide value.length value
  return ([.assign first.line (slice code first.start targetStop) (slice code start.start stop)],
    rest)

/-- The operator of an update at the front of the tokens, and what follows it. -/
def updateOp? : List Token → Option (Token × List Token)
  | [] => none
  | t :: rest =>
    match t.kind with
    | .op text => if updateOps.contains text then some (t, rest) else none
    | _ => none

/-- What goes on with the targets that start with `first` and end at `stop`: an assignment, an
annotation or an update. -/
def afterTargets (code : List Char) (first : Token) (stop : Nat) (tokens : List Token) : Read :=
  match op? "=" tokens, op? ":" tokens, updateOp? tokens with
  | some (_, value), _, _ => assignment code first stop value
  | _, some (_, annotation), _ => do
    let annotation ← expression (fuelFor tokens) annotation
    match op? "=" annotation.rest with
    | some (_, value) => assignment code first stop value
    | none => return ([], annotation.rest)
  | _, _, some (operator, value) => do
    let start ← value.head?
    let (valueStop, rest) ← rightSide 1 value
    return ([.update first.line (slice code first.start stop)
      (slice code operator.start operator.stop) (slice code start.start valueStop)], rest)
  | none, none, none => none

/-- An expression, an assignment or an update. -/
def expressionStatement (code : List Char) (tokens : List Token) : Read := do
  let first ← tokens.head?
  match keyword? "yield" tokens with
  | some (t, rest) => (yielded (fuelFor tokens) t rest).map fun e => ([], e.rest)
  | none =>
    let (items, stop, rest) ← sequence (fuelFor tokens) tokens
    let updated? := if areTargets items then afterTargets code first stop rest else none
    return updated?.getD (callsOf code items, rest)

/-- A name with dots. -/
def dotted : List Token → Option (List Token)
  | [] => none
  | t :: rest =>
    match t.kind, rest with
    | .name _, ⟨.op ".", _, _, _, _⟩ :: more => dotted more
    | .name _, rest => some rest
    | _, _ => none

/-- What follows another name that something is imported under. -/
def alias? (tokens : List Token) : Option (List Token) :=
  match keyword? "as" tokens with
  | some (_, rest) => (name? rest).map Prod.snd
  | none => some tokens

/-- Imported names, separated by commas. -/
def importedNames : Nat → (parenthesized : Bool) → List Token → Option (List Token)
  | 0, _, _ => none
  | fuel + 1, parenthesized, tokens => do
    let rest ← (dotted tokens).bind alias?
    match op? "," rest with
    | some (_, rest) =>
      if parenthesized && (op? ")" rest).isSome then return rest
      else importedNames fuel parenthesized rest
    | none => return rest

/-- The module after `from`, up to `import`. -/
def importSource : List Token → (dots : Bool) → Option (List Token)
  | [], _ => none
  | t :: rest, dots =>
    match t.kind with
    | .op "." | .op "..." => importSource rest true
    | .keyword "import" => if dots then some rest else none
    | _ => (dotted (t :: rest)).bind fun rest => (keyword? "import" rest).map Prod.snd

/-- What follows the names that are imported from a module. -/
def importedFrom (tokens : List Token) : Option (List Token) :=
  match op? "*" tokens, op? "(" tokens with
  | some (_, rest), _ => some rest
  | none, some (_, rest) =>
    (importedNames tokens.length true rest).bind fun rest => (op? ")" rest).map Prod.snd
  | none, none => importedNames tokens.length false tokens

/-- Names separated by commas. -/
def names : List Token → Option (List Token)
  | [] => none
  | t :: rest =>
    match t.kind, rest with
    | .name _, ⟨.op ",", _, _, _, _⟩ :: more => names more
    | .name _, rest => some rest
    | _, _ => none

/-- A return, after its keyword. -/
def returned (code : List Char) (t : Token) (tokens : List Token) : List Statement × List Token :=
  match sequence (fuelFor tokens) tokens with
  | some (_, stop, rest) => ([.return t.line (slice code t.start stop)], rest)
  | none => ([.return t.line (slice code t.start t.stop)], tokens)

/-- A raise, after its keyword. -/
def raised (tokens : List Token) : Option (List Token) :=
  match sequence (fuelFor tokens) tokens with
  | none => some tokens
  | some (_, _, rest) =>
    match keyword? "from" rest with
    | some (_, rest) => (expression (fuelFor rest) rest).map Expression.rest
    | none => some rest

/-- An assertion, after its keyword. -/
def asserted (tokens : List Token) : Option (List Token) := do
  let (_, _, rest) ← sequence (fuelFor tokens) tokens
  return rest

/-- The token can only start another expression. -/
def startsOperand (t : Token) : Bool :=
  match t.kind with
  | .name _ | .number | .string => true
  | .keyword text => ["None", "True", "False", "lambda"].contains text
  | _ => false

/-- A statement with a word that is no keyword before its operands. -/
def wordStatement? (words : List String) : List Token → Option (List Token)
  | t :: operand :: rest =>
    match t.kind with
    | .name text =>
      if words.contains text && startsOperand operand then
        (sequence (fuelFor rest + 16) (operand :: rest)).map fun (_, _, rest) => rest
      else none
    | _ => none
  | _ => none

/-- The definition of a name for a type. -/
def typeStatement? : List Token → Option (List Token)
  | ⟨.name "type", _, _, _, _⟩ :: ⟨.name name, start, stop, line, indent⟩ :: rest => do
    let (_, _, rest) ←
      sequence (fuelFor rest + 16) (⟨.name name, start, stop, line, indent⟩ :: rest)
    let (_, value) ← op? "=" rest
    (expression (fuelFor value) value).map Expression.rest
  | _ => none

/-- A simple statement that starts with a keyword, after it. -/
def keywordStatement (code : List Char) (t : Token) (word : String) (rest : List Token) : Read :=
  let silent := fun rest : List Token => (([] : List Statement), rest)
  if word == "pass" || word == "break" || word == "continue" then some ([], rest)
  else if word == "return" then some (returned code t rest)
  else if word == "raise" then (raised rest).map silent
  else if word == "global" || word == "nonlocal" then (names rest).map silent
  else if word == "del" then (asserted rest).map silent
  else if word == "assert" then (asserted rest).map silent
  else if word == "import" then (importedNames rest.length false rest).map silent
  else if word == "from" then
    ((importSource rest false).bind importedFrom).map silent
  else expressionStatement code (t :: rest)

/-- A statement on part of a line. -/
def simpleStatement (code : List Char) (tokens : List Token) : Read :=
  match tokens with
  | [] => none
  | t :: rest =>
    match t.kind with
    | .keyword word => keywordStatement code t word rest
    | _ =>
      match (wordStatement? ["print", "exec"] tokens).orElse fun _ => typeStatement? tokens with
      | some rest => some ([], rest)
      | none => expressionStatement code tokens

/-- The simple statements up to the end of the line. -/
def simpleLine (code : List Char) : Nat → List Token → Read
  | 0, _ => none
  | fuel + 1, tokens => do
    let (first, rest) ← simpleStatement code tokens
    match rest with
    | [] => return (first, [])
    | t :: rest =>
      match t.kind with
      | .lineEnd => return (first, rest)
      | .op ";" =>
        match rest with
        | [] => return (first, [])
        | next :: more =>
          if next.kind = .lineEnd then return (first, more)
          else
            let (others, rest) ← simpleLine code fuel rest
            return (first ++ others, rest)
      | _ => none

/-- The tokens from the first colon outside brackets on; there is something before it. -/
def toColon (depth : Nat) (started : Bool) : List Token → Option (List Token)
  | [] => none
  | t :: rest =>
    if t.kind = .lineEnd || t.kind = .invalid then none
    else if depth = 0 && decide (t.kind = .op ":") then if started then some (t :: rest) else none
    else toColon (depthAfter depth t.kind) true rest

/-- The tokens after the brackets that hold the parameters of a type, if there are any. -/
def skipTypeParameters (tokens : List Token) : Option (List Token) :=
  match op? "[" tokens with
  | some (_, rest) => (subscripts (fuelFor rest) rest).map Prod.snd
  | none => some tokens

/-- The header of a function, after `def`, up to its colon. -/
def functionHeader (tokens : List Token) : Option (List Token) := do
  let (_, rest) ← name? tokens
  let rest ← skipTypeParameters rest
  let (_, rest) ← op? "(" rest
  let (_, rest) ← parameters (fuelFor rest) true ")" rest
  match op? "->" rest with
  | some (_, result) => (expression (fuelFor result) result).map Expression.rest
  | none => return rest

/-- The header of a class, after `class`, up to its colon. -/
def classHeader (tokens : List Token) : Option (List Token) := do
  let (_, rest) ← name? tokens
  let rest ← skipTypeParameters rest
  match op? "(" rest with
  | some (_, rest) => (arguments (fuelFor rest) rest).map Prod.snd
  | none => return rest

/-- Managed expressions with their names, separated by commas. -/
def managed : Nat → List Token → Option (List Token)
  | 0, _ => none
  | fuel + 1, tokens => do
    let first ← expression (fuelFor tokens) tokens
    let rest ←
      match keyword? "as" first.rest with
      | some (_, target) => (primary (fuelFor target) (skipOp "*" target)).map Expression.rest
      | none => some first.rest
    match op? "," rest with
    | some (_, rest) => return (managed fuel rest).getD rest
    | none => return rest

/-- The header of a block over managed expressions, up to its colon. -/
def managedHeader (tokens : List Token) : Option (List Token) :=
  let bare := (managed tokens.length tokens).bind fun rest => (op? ":" rest).map fun _ => rest
  bare.orElse fun _ => do
    let (_, rest) ← op? "(" tokens
    let rest ← managed tokens.length rest
    (op? ")" rest).map Prod.snd

/-- The header of a loop over items, after `for`, up to its colon. -/
def forHeader (tokens : List Token) : Option (List Token) := do
  let (_, rest) ← targets (fuelFor tokens) tokens
  let (_, rest) ← keyword? "in" rest
  let (_, _, rest) ← sequence (fuelFor rest) rest
  return rest

/-- The header of a handler, after `except`, up to its colon. -/
def handlerHeader (tokens : List Token) : Option (List Token) :=
  match expression (fuelFor tokens) (skipOp "*" tokens) with
  | none => some tokens
  | some e =>
    match keyword? "as" e.rest, op? "," e.rest with
    | some (_, rest), _ => (expression (fuelFor rest) rest).map Expression.rest
    | none, some (_, rest) => (expression (fuelFor rest) rest).map Expression.rest
    | none, none => some e.rest

/-- The header of a condition, up to its colon. -/
def conditionHeader (tokens : List Token) : Option (List Token) :=
  (expression (fuelFor tokens) tokens).map Expression.rest

/-- A clause that goes on with the statement before it: it is not indented less than the block
around it. -/
def clause? (level : Nat) (word : String) (tokens : List Token) : Option (List Token) :=
  match keyword? word tokens with
  | some (t, rest) => if level ≤ t.indent then some rest else none
  | none => none

/-- The line that the tokens start with is left out. -/
def skipLine (tokens : List Token) : List Token :=
  (tokens.dropWhile fun t => t.kind ≠ .lineEnd).tail

mutual

/-- The statements of a block of the given indentation, whether all of them fit the grammar, and
what follows the block. -/
def blockFrom (code : List Char) : Nat → (level : Nat) → List Token →
    List Statement × Bool × List Token
  | 0, _, tokens => ([], false, tokens)
  | _, _, [] => ([], true, [])
  | fuel + 1, level, t :: rest =>
    if t.indent < level then ([], true, t :: rest)
    else
      match statement code fuel level (t :: rest) with
      | some (here, ok, left) =>
        let (others, ok', left) := blockFrom code fuel level left
        (here ++ others, ok && ok', left)
      | none =>
        -- reading goes on behind the line that does not fit
        let (others, _, left) := blockFrom code fuel level (skipLine (t :: rest))
        (others, false, left)

/-- A statement in a block of the given indentation. -/
def statement (code : List Char) : Nat → (level : Nat) → List Token →
    Option (List Statement × Bool × List Token)
  | 0, _, _ => none
  | _, _, [] => none
  | fuel + 1, level, t :: rest =>
    match t.kind with
    | .keyword "async" =>
      match rest with
      | next :: more =>
        if next.kind = .keyword "for" || next.kind = .keyword "with" || next.kind = .keyword "def"
        then compound code fuel level t next more
        else none
      | [] => none
    | .op "@" => do
      let decorator ← expression (fuelFor rest) rest
      let next ← decorator.rest.head?
      if next.kind = .lineEnd then
        match decorator.rest.tail with
        | ⟨.op "@", _, _, _, _⟩ :: _ | ⟨.keyword "def", _, _, _, _⟩ :: _
        | ⟨.keyword "class", _, _, _, _⟩ :: _ | ⟨.keyword "async", _, _, _, _⟩ :: _ =>
          statement code fuel level decorator.rest.tail
        | _ => none
      else none
    | .name "match" =>
      -- the word is a keyword only where cases follow it
      (cases? code fuel level rest).orElse fun _ => simple code (t :: rest)
    | .keyword word =>
      if ["if", "while", "for", "try", "with", "def", "class"].contains word then
        compound code fuel level t t rest
      else simple code (t :: rest)
    | _ => simple code (t :: rest)

/-- A line of simple statements. -/
def simple (code : List Char) (tokens : List Token) : Option (List Statement × Bool × List Token) :=
  (simpleLine code tokens.length tokens).map fun (found, rest) => (found, true, rest)

/-- A statement with blocks; it starts at `first`, and `t` is the keyword that says what it is. -/
def compound (code : List Char) : Nat → (level : Nat) → (first t : Token) → List Token →
    Option (List Statement × Bool × List Token)
  | 0, _, _, _, _ => none
  | fuel + 1, level, first, t, rest =>
    match t.kind with
    | .keyword "if" => do
      let (body, ok, rest) ← suite code fuel level (← conditionHeader rest)
      let (more, ok', rest) ← alternatives code fuel level rest
      return ([.group (body ++ more)], ok && ok', rest)
    | .keyword "while" => do
      let (body, ok, rest) ← suite code fuel level (← conditionHeader rest)
      let (more, ok', rest) ← otherwise code fuel level "else" rest
      return ([.loop first.line (headerAt code first) (body ++ more)], ok && ok', rest)
    | .keyword "for" => do
      let (body, ok, rest) ← suite code fuel level (← forHeader rest)
      let (more, ok', rest) ← otherwise code fuel level "else" rest
      return ([.loop first.line (headerAt code first) (body ++ more)], ok && ok', rest)
    | .keyword "try" => do
      let (body, ok, rest) ← suite code fuel level rest
      let (handled, ok', rest') ← handlers code fuel level rest
      let (more, ok'', rest'') ← otherwise code fuel level "else" rest'
      let (last, ok''', rest''') ← otherwise code fuel level "finally" rest''
      -- a bare `try` is no statement: at least one clause has to follow its block
      if rest'''.length < rest.length then
        return ([.group (body ++ handled ++ more ++ last)], ok && ok' && ok'' && ok''', rest''')
      else none
    | .keyword "with" => do
      let (body, ok, rest) ← suite code fuel level (← managedHeader rest)
      return ([.group body], ok, rest)
    | .keyword "def" => do
      let (body, ok, rest) ← suite code fuel level (← functionHeader rest)
      return ([.group body], ok, rest)
    | .keyword "class" => do
      let (body, ok, rest) ← suite code fuel level (← classHeader rest)
      return ([.group body], ok, rest)
    | _ => none

/-- What a colon introduces: simple statements on the same line, a block, or nothing. -/
def suite (code : List Char) : Nat → (level : Nat) → List Token →
    Option (List Statement × Bool × List Token)
  | 0, _, _ => none
  | fuel + 1, level, tokens => do
    let (_, rest) ← op? ":" tokens
    match rest with
    | [] => return ([], true, [])
    | t :: below =>
      if t.kind = .lineEnd then
        match below with
        | [] => return ([], true, [])
        | next :: _ =>
          if level < next.indent then return blockFrom code fuel next.indent below
          else return ([], true, below)
      else simple code rest

/-- A clause that is only a word and what it introduces, if it stands here. -/
def otherwise (code : List Char) : Nat → (level : Nat) → (word : String) → List Token →
    Option (List Statement × Bool × List Token)
  | 0, _, _, _ => none
  | fuel + 1, level, word, tokens =>
    match clause? level word tokens with
    | some rest => suite code fuel level rest
    | none => some ([], true, tokens)

/-- Further conditions and the last alternative. -/
def alternatives (code : List Char) : Nat → (level : Nat) → List Token →
    Option (List Statement × Bool × List Token)
  | 0, _, _ => none
  | fuel + 1, level, tokens =>
    match clause? level "elif" tokens with
    | some rest => do
      let (body, ok, rest) ← suite code fuel level (← conditionHeader rest)
      let (more, ok', rest) ← alternatives code fuel level rest
      return (body ++ more, ok && ok', rest)
    | none => otherwise code fuel level "else" tokens

/-- The handlers of a `try`. -/
def handlers (code : List Char) : Nat → (level : Nat) → List Token →
    Option (List Statement × Bool × List Token)
  | 0, _, _ => none
  | fuel + 1, level, tokens =>
    match clause? level "except" tokens with
    | some rest => do
      let (body, ok, rest) ← suite code fuel level (← handlerHeader rest)
      let (more, ok', rest) ← handlers code fuel level rest
      return (body ++ more, ok && ok', rest)
    | none => some ([], true, tokens)

/-- The cases of a `match`, after it. -/
def cases? (code : List Char) : Nat → (level : Nat) → List Token →
    Option (List Statement × Bool × List Token)
  | 0, _, _ => none
  | fuel + 1, level, tokens => do
    let (_, _, rest) ← sequence (fuelFor tokens) tokens
    let (_, rest) ← op? ":" rest
    let stop ← rest.head?
    if stop.kind = .lineEnd then
      let first ← rest.tail.head?
      if level < first.indent && decide (first.kind = .name "case") then
        let (body, ok, rest) ← caseBlocks code fuel first.indent rest.tail
        return ([.group body], ok, rest)
      else none
    else none

/-- Cases in a block of the given indentation. -/
def caseBlocks (code : List Char) : Nat → (level : Nat) → List Token →
    Option (List Statement × Bool × List Token)
  | 0, _, _ => none
  | _, _, [] => some ([], true, [])
  | fuel + 1, level, t :: rest =>
    if t.indent < level then some ([], true, t :: rest)
    else if t.kind = .name "case" then do
      let (body, ok, rest) ← suite code fuel level (← toColon 0 false rest)
      let (more, ok', rest) ← caseBlocks code fuel level rest
      return (body ++ more, ok && ok', rest)
    else none

end

/-- Reads a program. -/
def Program.ofCode (code : List Char) : Program :=
  let all := tokens code
  let (statements, ok, rest) := blockFrom code (8 * all.length + 16) 0 all
  ⟨statements, ok && rest.isEmpty⟩

end Storyboard.Syntax
