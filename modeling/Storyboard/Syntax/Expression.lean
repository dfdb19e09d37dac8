import Storyboard.Syntax.Token

/-!
# Expressions

Recognisers of the expressions of a program.  They tell where an expression ends, whether it is a
call and whether it may be assigned to, and no more; all of them return nothing where the text does
not fit the grammar.  Fuel bounds the nesting, and `fuelFor` is enough of it.
-/

namespace Storyboard.Syntax

/-- Where the function of a call ends and its arguments start. -/
structure CallShape where
  functionStop : Nat
  argumentsStart : Nat

/-- An expression that has been recognised: its shape if it is a call, whether it may be assigned
to, where it ends, and the tokens after it. -/
structure Expression where
  call? : Option CallShape := none
  isTarget : Bool := false
  stop : Nat
  rest : List Token

/-- The same end, but no call and no target. -/
def Expression.plain (e : Expression) : Expression := { e with call? := none, isTarget := false }

/-- The first token is this operator; what follows it. -/
def op? (text : String) : List Token → Option (Token × List Token)
  | [] => none
  | t :: rest => if t.kind = .op text then some (t, rest) else none

/-- The first token is this keyword; what follows it. -/
def keyword? (text : String) : List Token → Option (Token × List Token)
  | [] => none
  | t :: rest => if t.kind = .keyword text then some (t, rest) else none

/-- The first token is a name; what follows it. -/
def name? : List Token → Option (Token × List Token)
  | [] => none
  | t :: rest =>
    match t.kind with
    | .name _ => some (t, rest)
    | _ => none

/-- The tokens after the operator, or all of them where it does not stand. -/
def skipOp (text : String) (tokens : List Token) : List Token :=
  (op? text tokens).elim tokens Prod.snd

/-- Operators between arithmetic operands. -/
def arithmeticOps : List String :=
  ["+", "-", "*", "/", "//", "%", "**", "@", "<<", ">>", "&", "|", "^"]

/-- Operators that compare. -/
def comparisonOps : List String := ["==", "!=", "<", ">", "<=", ">=", "<>"]

/-- The first token is one of the operators; what follows it. -/
def oneOfOps? (texts : List String) : List Token → Option (List Token)
  | [] => none
  | t :: rest =>
    match t.kind with
    | .op text => if texts.contains text then some rest else none
    | _ => none

/-- What follows an operator of comparison. -/
def comparison? (tokens : List Token) : Option (List Token) :=
  match oneOfOps? comparisonOps tokens with
  | some rest => some rest
  | none =>
    match tokens with
    | [] => none
    | t :: rest =>
      if t.kind = .keyword "in" then some rest
      else if t.kind = .keyword "is" then
        some ((keyword? "not" rest).elim rest Prod.snd)
      else if t.kind = .keyword "not" then (keyword? "in" rest).map Prod.snd
      else none

/-- What follows the strings at the front, and where the last of them ends. -/
def strings (stop : Nat) : List Token → Nat × List Token
  | [] => (stop, [])
  | t :: rest => if t.kind = .string then strings t.stop rest else (stop, t :: rest)

/-- An expression of one token, or of strings side by side. -/
def single? : List Token → Option Expression
  | [] => none
  | t :: rest =>
    match t.kind with
    | .name _ => some { isTarget := true, stop := t.stop, rest }
    | .number => some { stop := t.stop, rest }
    | .string =>
      let (stop, rest) := strings t.stop rest
      some { stop, rest }
    | .keyword text =>
      if text == "None" || text == "True" || text == "False" then some { stop := t.stop, rest }
      else none
    | .op text => if text == "..." then some { stop := t.stop, rest } else none
    | _ => none

/-- The bracket that closes an opening one. -/
def closingOf? (text : String) : Option String :=
  if text == "(" then some ")"
  else if text == "[" then some "]"
  else if text == "\x7b" then some "\x7d"
  else none

/-- The bracket that closes an expression stands here. -/
def closed? (close : String) (isTarget : Bool) (tokens : List Token) : Option Expression :=
  (op? close tokens).map fun (t, rest) => { isTarget, stop := t.stop, rest }

/-- What starts with the tokens is neither unpacked nor named. -/
def isBare (tokens : List Token) : Bool :=
  (oneOfOps? ["*", "**"] tokens).isNone &&
    ((name? tokens).bind fun (_, rest) => op? "=" rest).isNone

mutual

/-- An expression at the front of the tokens. -/
def expression : Nat → List Token → Option Expression
  | 0, _ => none
  | fuel + 1, tokens =>
    match keyword? "lambda" tokens with
    | some (_, rest) => do
      let body ← parameters fuel false ":" rest
      return (← expression fuel body.2).plain
    | none =>
      match (name? tokens).bind fun (_, rest) => op? ":=" rest with
      | some (_, value) => (expression fuel value).map Expression.plain
      | none => do
        let first ← disjunction fuel tokens
        let choice? := do
          let (_, condition) ← keyword? "if" first.rest
          let condition ← disjunction fuel condition
          let (_, alternative) ← keyword? "else" condition.rest
          return (← expression fuel alternative).plain
        return choice?.getD first

/-- Negations joined by `and` and `or`. -/
def disjunction : Nat → List Token → Option Expression
  | 0, _ => none
  | fuel + 1, tokens => do
    let first ← negation fuel tokens
    match (keyword? "and" first.rest).orElse fun _ => keyword? "or" first.rest with
    | some (_, rest) => (disjunction fuel rest).map Expression.plain
    | none => some first

/-- A comparison, possibly negated. -/
def negation : Nat → List Token → Option Expression
  | 0, _ => none
  | fuel + 1, tokens =>
    match keyword? "not" tokens with
    | some (_, rest) => (negation fuel rest).map Expression.plain
    | none => comparison fuel tokens

/-- Sums that are compared. -/
def comparison : Nat → List Token → Option Expression
  | 0, _ => none
  | fuel + 1, tokens => do
    let first ← arithmetic fuel tokens
    match comparison? first.rest with
    | some rest => (comparison fuel rest).map Expression.plain
    | none => some first

/-- Operands joined by arithmetic operators. -/
def arithmetic : Nat → List Token → Option Expression
  | 0, _ => none
  | fuel + 1, tokens => do
    let first ← operand fuel tokens
    match oneOfOps? arithmeticOps first.rest with
    | some rest => (arithmetic fuel rest).map Expression.plain
    | none => some first

/-- An operand with its signs. -/
def operand : Nat → List Token → Option Expression
  | 0, _ => none
  | fuel + 1, tokens =>
    match oneOfOps? ["+", "-", "~"] tokens with
    | some rest => (operand fuel rest).map Expression.plain
    | none =>
      match keyword? "await" tokens with
      | some (_, rest) => (operand fuel rest).map Expression.plain
      | none => primary fuel tokens

/-- A single thing or a bracketed one with what is applied to it. -/
def primary : Nat → List Token → Option Expression
  | 0, _ => none
  | fuel + 1, tokens =>
    match single? tokens with
    | some first => trailers fuel first
    | none =>
      match tokens with
      | ⟨.op text, _, _, _, _⟩ :: rest => do
        let close ← closingOf? text
        let first ← if text == "\x7b" then braced fuel rest else items fuel close rest
        trailers fuel first
      | _ => none

/-- Attributes, calls and subscripts that are applied to what stands before. -/
def trailers : Nat → Expression → Option Expression
  | 0, _ => none
  | fuel + 1, before =>
    match before.rest with
    | ⟨.op ".", _, _, _, _⟩ :: rest => do
      let (name, rest) ← name? rest
      trailers fuel { isTarget := true, stop := name.stop, rest }
    | ⟨.op "(", start, _, _, _⟩ :: rest => do
      let (stop, rest) ← arguments fuel rest
      trailers fuel { call? := some ⟨before.stop, start⟩, stop, rest }
    | ⟨.op "[", _, _, _, _⟩ :: rest => do
      let (stop, rest) ← subscripts fuel rest
      trailers fuel { isTarget := true, stop, rest }
    | _ => some before

/-- An item of a sequence, possibly unpacked. -/
def item : Nat → List Token → Option Expression
  | 0, _ => none
  | fuel + 1, tokens =>
    match keyword? "yield" tokens with
    | some (t, rest) => yielded fuel t rest
    | none => expression fuel (skipOp "*" tokens)

/-- What a generator yields, after its keyword. -/
def yielded : Nat → Token → List Token → Option Expression
  | 0, _, _ => none
  | fuel + 1, t, tokens =>
    match keyword? "from" tokens with
    | some (_, rest) => (expression fuel rest).map Expression.plain
    | none =>
      match sequence fuel tokens with
      | some (_, stop, rest) => some { stop, rest }
      | none => some { stop := t.stop, rest := tokens }

/-- Items up to the closing bracket, or one that a comprehension goes on with.  Items that may be
assigned to may be so together. -/
def items : Nat → (close : String) → List Token → Option Expression
  | 0, _, _ => none
  | fuel + 1, close, tokens =>
    (closed? close true tokens).orElse fun _ => do
      let first ← item fuel tokens
      match clausesAfter fuel tokens first.rest with
      | some rest => closed? close false rest
      | none => moreItems fuel close first

/-- Further items, each behind a comma, up to the closing bracket. -/
def moreItems : Nat → (close : String) → (before : Expression) → Option Expression
  | 0, _, _ => none
  | fuel + 1, close, before =>
    match op? "," before.rest with
    | none => closed? close before.isTarget before.rest
    | some (_, rest) =>
      (closed? close before.isTarget rest).orElse fun _ => do
        let next ← item fuel rest
        moreItems fuel close { next with isTarget := before.isTarget && next.isTarget }

/-- Arguments up to the closing parenthesis, or one that a comprehension goes on with. -/
def arguments : Nat → List Token → Option (Nat × List Token)
  | 0, _ => none
  | fuel + 1, tokens =>
    match op? ")" tokens with
    | some (t, rest) => some (t.stop, rest)
    | none => do
      let first ← argument fuel tokens
      match clausesAfter fuel tokens first.rest with
      | some rest => (op? ")" rest).map fun (t, rest) => (t.stop, rest)
      | none => moreArguments fuel first.rest

/-- An argument, possibly unpacked or named. -/
def argument : Nat → List Token → Option Expression
  | 0, _ => none
  | fuel + 1, tokens =>
    match (name? tokens).bind fun (_, rest) => op? "=" rest with
    | some (_, value) => expression fuel value
    | none => expression fuel (skipOp "**" (skipOp "*" tokens))

/-- Further arguments, each behind a comma, up to the closing parenthesis. -/
def moreArguments : Nat → List Token → Option (Nat × List Token)
  | 0, _ => none
  | fuel + 1, tokens =>
    match op? "," tokens with
    | none => (op? ")" tokens).map fun (t, rest) => (t.stop, rest)
    | some (_, rest) =>
      match op? ")" rest with
      | some (t, rest) => some (t.stop, rest)
      | none => do
        let next ← argument fuel rest
        moreArguments fuel next.rest

/-- The bounds of a slice after the first, each behind a colon. -/
def bounds : Nat → List Token → List Token
  | 0, tokens => tokens
  | fuel + 1, tokens =>
    match op? ":" tokens with
    | none => tokens
    | some (_, rest) =>
      match expression fuel rest with
      | some e => bounds fuel e.rest
      | none => bounds fuel rest

/-- Subscripts and slices up to the closing bracket. -/
def subscripts : Nat → List Token → Option (Nat × List Token)
  | 0, _ => none
  | fuel + 1, tokens => do
    let rest ←
      match expression fuel (skipOp "*" tokens) with
      | some e => some (bounds fuel e.rest)
      | none => (op? ":" tokens).map fun _ => bounds fuel tokens
    match op? "," rest with
    | some (_, rest) =>
      match op? "]" rest with
      | some (t, rest) => some (t.stop, rest)
      | none => subscripts fuel rest
    | none => (op? "]" rest).map fun (t, rest) => (t.stop, rest)

/-- Entries of a dictionary or items of a set up to the closing brace, or one that a comprehension
goes on with. -/
def braced : Nat → List Token → Option Expression
  | 0, _ => none
  | fuel + 1, tokens =>
    (closed? "\x7d" false tokens).orElse fun _ => do
      let (keyed, rest) ← entry fuel tokens
      match clausesAfter fuel tokens rest with
      | some rest => closed? "\x7d" false rest
      | none => moreEntries fuel keyed rest

/-- An entry of a dictionary or an item of a set: which of them it is, and what follows it. -/
def entry : Nat → List Token → Option (Bool × List Token)
  | 0, _ => none
  | fuel + 1, tokens =>
    match op? "**" tokens with
    | some (_, rest) => (expression fuel rest).map fun e => (true, e.rest)
    | none => do
      let key ← item fuel tokens
      match op? ":" key.rest with
      | some (_, rest) => (expression fuel rest).map fun e => (true, e.rest)
      | none => return (false, key.rest)

/-- Further entries or items, each behind a comma, up to the closing brace; they are all of the same
sort. -/
def moreEntries : Nat → (keyed : Bool) → List Token → Option Expression
  | 0, _, _ => none
  | fuel + 1, keyed, tokens =>
    match op? "," tokens with
    | none => closed? "\x7d" false tokens
    | some (_, rest) =>
      (closed? "\x7d" false rest).orElse fun _ => do
        let (nextKeyed, rest) ← entry fuel rest
        if nextKeyed = keyed then moreEntries fuel keyed rest else none

/-- The clauses of a comprehension over what starts with the given tokens; it may be neither
unpacked nor named. -/
def clausesAfter : Nat → (start rest : List Token) → Option (List Token)
  | 0, _, _ => none
  | fuel + 1, start, rest => if isBare start then clauses fuel rest else none

/-- The clauses of a comprehension, of which the first one iterates. -/
def clauses : Nat → List Token → Option (List Token)
  | 0, _ => none
  | fuel + 1, tokens => do
    let start := (keyword? "async" tokens).elim tokens Prod.snd
    let (_, rest) ← keyword? "for" start
    let (_, rest) ← targets fuel rest
    let (_, rest) ← keyword? "in" rest
    let source ← expression fuel rest
    let rest := conditions fuel source.rest
    return (clauses fuel rest).getD rest

/-- The conditions of a comprehension. -/
def conditions : Nat → List Token → List Token
  | 0, tokens => tokens
  | fuel + 1, tokens =>
    match keyword? "if" tokens with
    | none => tokens
    | some (_, rest) =>
      match expression fuel rest with
      | some condition => conditions fuel condition.rest
      | none => tokens

/-- Targets of a loop, separated by commas: where they end, and what follows them. -/
def targets : Nat → List Token → Option (Nat × List Token)
  | 0, _ => none
  | fuel + 1, tokens => do
    let first ← primary fuel (skipOp "*" tokens)
    if first.isTarget then
      match op? "," first.rest with
      | some (comma, rest) => return (targets fuel rest).getD (comma.stop, rest)
      | none => return (first.stop, first.rest)
    else none

/-- Parameters of a function up to the closing token; `typed` says that they may have
annotations. -/
def parameters : Nat → (typed : Bool) → (close : String) → List Token →
    Option (Nat × List Token)
  | 0, _, _, _ => none
  | fuel + 1, typed, close, tokens =>
    match op? close tokens with
    | some (t, rest) => some (t.stop, rest)
    | none => do
      let rest ← parameter fuel typed tokens
      match op? "," rest with
      | some (_, rest) => parameters fuel typed close rest
      | none => (op? close rest).map fun (t, rest) => (t.stop, rest)

/-- What follows one parameter. -/
def parameter : Nat → (typed : Bool) → List Token → Option (List Token)
  | 0, _, _ => none
  | fuel + 1, typed, tokens =>
    match op? "/" tokens with
    | some (_, rest) => some rest
    | none =>
      let starred := (op? "*" tokens).isSome
      match name? (skipOp "**" (skipOp "*" tokens)) with
      | none => if starred then some (skipOp "*" tokens) else none
      | some (_, rest) => do
        let rest ←
          match typed, op? ":" rest with
          | true, some (_, annotation) =>
            (expression fuel (skipOp "*" annotation)).map Expression.rest
          | _, _ => some rest
        match op? "=" rest with
        | some (_, value) => (expression fuel value).map Expression.rest
        | none => some rest

/-- Items separated by commas, the last of which may be followed by one: each item with its first
token, where the sequence ends, and what follows it. -/
def sequence : Nat → List Token → Option (List (Token × Expression) × Nat × List Token)
  | 0, _ => none
  | _, [] => none
  | fuel + 1, t :: rest => do
    let first ← expression fuel (skipOp "*" (t :: rest))
    match op? "," first.rest with
    | some (comma, rest) =>
      match sequence fuel rest with
      | some (more, stop, rest) => return ((t, first) :: more, stop, rest)
      | none => return ([(t, first)], comma.stop, rest)
    | none => return ([(t, first)], first.stop, first.rest)

end

/-- Enough fuel for the tokens. -/
def fuelFor (tokens : List Token) : Nat := 16 * tokens.length + 32

end Storyboard.Syntax
