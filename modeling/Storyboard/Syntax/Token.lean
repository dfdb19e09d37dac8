import Storyboard.Text.Blank
import Storyboard.Text.Case
import Storyboard.Text.Letter

/-!
# Tokens

The tokens of a program: names, keywords, numbers, strings, operators and the ends of logical lines.
Inside brackets and after a backslash a line goes on on the next one.  Every token knows where it
stands in the text, and the first token of a line how far it is indented.
-/

namespace Storyboard.Syntax

/-- What a token is. -/
inductive Kind where
  | name (text : String)
  | keyword (text : String)
  | number
  | string
  | op (text : String)
  | lineEnd
  /-- No token starts like this, or a string is not closed. -/
  | invalid
  deriving DecidableEq

/-- A token; its text goes from character `start` up to, but without, character `stop`. -/
structure Token where
  kind : Kind
  start : Nat
  stop : Nat
  /-- The source line on which it starts, counted from one. -/
  line : Nat
  /-- The indentation of the logical line that it belongs to. -/
  indent : Nat

/-- The words that are no names. -/
def keywords : List String :=
  ["False", "None", "True", "and", "as", "assert", "async", "await", "break", "class", "continue",
    "def", "del", "elif", "else", "except", "finally", "for", "from", "global", "if", "import",
    "in", "is", "lambda", "nonlocal", "not", "or", "pass", "raise", "return", "try", "while",
    "with", "yield"]

/-- Operators and delimiters, those that begin with others first. -/
def operators : List (List Char) :=
  ["**=", "//=", ">>=", "<<=", "...", "!=", "->", ":=", "+=", "-=", "*=", "/=", "%=", "&=", "|=",
    "^=", "@=", "==", "<=", ">=", "<>", "<<", ">>", "**", "//", "+", "-", "*", "/", "%", "@", "&",
    "|", "^", "~", "<", ">", "=", "(", ")", "[", "]", "\x7b", "\x7d", ",", ":", ";", "."].map
      String.toList

/-- What may precede the quote of a string, in lower case. -/
def stringMarks : List String := ["", "r", "b", "u", "f", "rb", "br", "fr", "rf"]

/-- The characters that separate tokens. -/
def isSpace (c : Char) : Bool :=
  Text.isBlank c || c == '\ufeff' || c == '\u2060' || c == '\u200b'

/-- A name may start with this character. -/
def startsName (c : Char) : Bool := c == '_' || Text.isLetter c

/-- The rest after the quotes that close a string, if they stand here. -/
def closing? (quote : Char) (triple : Bool) : List Char → Option (List Char)
  | a :: b :: c :: cs =>
    if triple then if a == quote && b == quote && c == quote then some cs else none
    else if a == quote then some (b :: c :: cs) else none
  | a :: cs => if !triple && a == quote then some cs else none
  | [] => none

mutual

/-- What follows the string whose quotes have been opened; `filled` says that braces in it hold
expressions. -/
def afterString : Nat → (filled : Bool) → (quote : Char) → (triple : Bool) → List Char →
    Option (List Char)
  | 0, _, _, _, _ => none
  | _, _, _, _, [] => none
  | fuel + 1, filled, quote, triple, c :: cs =>
    match closing? quote triple (c :: cs) with
    | some rest => some rest
    | none =>
      if c == '\\' then afterString fuel filled quote triple cs.tail
      else if c == '\n' && !triple then none
      else if filled && c == '\x7b' then
        -- a doubled brace stands for itself
        match cs with
        | '\x7b' :: rest => afterString fuel filled quote triple rest
        | _ =>
          match afterHole fuel 0 false cs with
          | some rest => afterString fuel filled quote triple rest
          | none => none
      else afterString fuel filled quote triple cs

/-- What follows the brace that closes an expression inside a string; `depth` counts the brackets
that are open in it, and `started` says that it is not empty. -/
def afterHole : Nat → (depth : Nat) → (started : Bool) → List Char → Option (List Char)
  | 0, _, _, _ => none
  | _, _, _, [] => none
  | fuel + 1, depth, started, c :: cs =>
    if c == '"' || c == '\'' then
      -- a string inside the expression, in which brackets do not count
      match cs with
      | a :: b :: rest =>
        if a == c && b == c then
          (afterString fuel false c true rest).bind (afterHole fuel depth true)
        else (afterString fuel false c false cs).bind (afterHole fuel depth true)
      | _ => none
    else if c == '(' || c == '[' || c == '\x7b' then afterHole fuel (depth + 1) true cs
    else if depth = 0 && c == '\x7d' then if started then some cs else none
    else if depth = 0 && c == ':' then if started then afterFormat fuel cs else none
    else if c == ')' || c == ']' || c == '\x7d' then afterHole fuel (depth - 1) true cs
    else afterHole fuel depth (started || !isSpace c) cs

/-- What follows the brace that closes an expression, from the format after its colon on. -/
def afterFormat : Nat → List Char → Option (List Char)
  | 0, _ => none
  | _, [] => none
  | fuel + 1, c :: cs =>
    if c == '\x7d' then some cs
    else if c == '\x7b' then (afterHole fuel 0 false cs).bind (afterFormat fuel)
    else afterFormat fuel cs

end

/-- The text after a string that starts with a quote here, its marks given in lower case. -/
def string? (marks : String) (cs : List Char) : Option (List Char) :=
  let filled := marks.toList.contains 'f'
  match cs with
  | a :: b :: c :: rest =>
    if a == b && b == c then afterString (2 * cs.length) filled a true rest
    else afterString (2 * cs.length) filled a false (b :: c :: rest)
  | a :: rest => afterString (2 * cs.length) filled a false rest
  | [] => none

/-- A quote. -/
def isQuote (c : Char) : Bool := c == '"' || c == '\''

/-- The text after digits, each run of which may be followed by one bar; `barred` says that none
may stand here. -/
def afterDigits (barred : Bool) : List Char → List Char
  | [] => []
  | c :: cs =>
    if c.isDigit then afterDigits false cs
    else if c == '_' && !barred then afterDigits true cs
    else c :: cs

/-- The text after digits of another base, each of which may be preceded by one bar. -/
def afterBasedDigits (isDigit : Char → Bool) : List Char → List Char
  | [] => []
  | [c] => if isDigit c then [] else [c]
  | c :: d :: cs =>
    if isDigit c then afterBasedDigits isDigit (d :: cs)
    else if c == '_' && isDigit d then afterBasedDigits isDigit cs
    else c :: d :: cs

/-- The digits of a base other than ten, by the letter that stands for it. -/
def digitsOfBase? (letter : Char) : Option (Char → Bool) :=
  if letter == 'x' || letter == 'X' then
    some fun c => c.isDigit || "abcdefABCDEF".toList.contains c
  else if letter == 'o' || letter == 'O' then some fun c => "01234567".toList.contains c
  else if letter == 'b' || letter == 'B' then some fun c => c == '0' || c == '1'
  else none

/-- The text after an exponent, if one stands here. -/
def afterExponent (cs : List Char) : List Char :=
  match cs with
  | e :: rest =>
    if e == 'e' || e == 'E' then
      let digits := match rest with
        | sign :: digits => if sign == '+' || sign == '-' then digits else rest
        | [] => []
      match digits with
      | d :: _ => if d.isDigit then afterDigits true digits else cs
      | [] => cs
    else cs
  | [] => []

/-- The text after one of the letters that may end a number. -/
def afterMark (marks : List Char) (cs : List Char) : List Char :=
  match cs with
  | c :: rest => if marks.contains c then rest else cs
  | [] => []

/-- The text after a decimal number. -/
def afterDecimal (cs : List Char) : List Char :=
  let afterPoint := match afterDigits true cs with
    | '.' :: rest => afterDigits true rest
    | rest => rest
  afterMark ['l', 'L', 'j', 'J'] (afterExponent afterPoint)

/-- The text after a number of another base, if one starts here. -/
def afterBased? (cs : List Char) : Option (List Char) :=
  match cs with
  | '0' :: letter :: rest => do
    let isDigit ← digitsOfBase? letter
    let after := afterBasedDigits isDigit rest
    if after.length < rest.length then return afterMark ['l', 'L'] after else none
  | _ => none

/-- The text after a number that starts here. -/
def afterNumber (cs : List Char) : List Char := (afterBased? cs).getD (afterDecimal cs)

/-- A number starts here. -/
def startsNumber : List Char → Bool
  | '.' :: c :: _ => c.isDigit
  | c :: _ => c.isDigit
  | [] => false

/-- A name, a keyword or a marked string, and what follows it. -/
def word (cs : List Char) : Kind × List Char :=
  let text := String.ofList (cs.takeWhile Text.isWord)
  let rest := cs.dropWhile Text.isWord
  let marks := Text.asciiLower text
  if stringMarks.contains marks && (rest.head?.any isQuote) then
    match string? marks rest with
    | some after => (.string, after)
    | none => (.invalid, [])
  else (if keywords.contains text then .keyword text else .name text, rest)

/-- The token at the front of a text that is not empty and starts with no blank. -/
def tokenAt (cs : List Char) : Kind × List Char :=
  if cs.head?.any startsName then word cs
  else if cs.head?.any isQuote then
    match string? "" cs with
    | some after => (.string, after)
    | none => (.invalid, [])
  else if startsNumber cs then (.number, afterNumber cs)
  else
    match operators.find? fun operator => operator.isPrefixOf cs with
    | some operator => (.op (String.ofList operator), cs.drop operator.length)
    | none => (.invalid, cs.tail)

/-- The number of brackets that are open after an operator. -/
def depthAfter (depth : Nat) (kind : Kind) : Nat :=
  match kind with
  | .op text =>
    if text == "(" || text == "[" || text == "\x7b" then depth + 1
    else if text == ")" || text == "]" || text == "\x7d" then depth - 1
    else depth
  | _ => depth

/-- The width of the blanks at the start of a line, after `width` of them; a tab counts eight, and
a page break starts anew. -/
def indentWidth (width : Nat) : List Char → Nat
  | [] => width
  | c :: cs =>
    if c == ' ' then indentWidth (width + 1) cs
    else if c == '\t' then indentWidth (width + 8) cs
    else if c == '\x0c' || c == '\r' then indentWidth 0 cs
    else width

/-- Where the reading of tokens stands. -/
structure Position where
  offset : Nat := 0
  line : Nat := 1
  /-- The indentation of the logical line. -/
  indent : Nat := 0
  /-- The number of open brackets. -/
  depth : Nat := 0
  /-- The logical line has had a token. -/
  started : Bool := false

/-- The position after some characters. -/
def Position.skip (p : Position) (passed : List Char) : Position :=
  { p with offset := p.offset + passed.length, line := p.line + passed.count '\n' }

/-- A line continues behind a backslash; the text of the next line. -/
def continued? : List Char → Option (List Char)
  | '\\' :: '\n' :: rest => some rest
  | '\\' :: '\r' :: '\n' :: rest => some rest
  | _ => none

/-- The characters of `cs` before its end part `rest`. -/
def passed (cs rest : List Char) : List Char := cs.take (cs.length - rest.length)

/-- The tokens of a text from a position on. -/
def tokensFrom : Nat → Position → List Char → List Token
  | 0, _, _ => []
  | _, p, [] => if p.started then [⟨.lineEnd, p.offset, p.offset, p.line, p.indent⟩] else []
  | fuel + 1, p, c :: cs =>
    if c == '\n' then
      let next := { p.skip [c] with indent := indentWidth 0 cs, started := false }
      -- between brackets a line goes on, and a line without tokens has no end
      if p.depth = 0 then
        if p.started then
          ⟨.lineEnd, p.offset, p.offset, p.line, p.indent⟩ :: tokensFrom fuel next cs
        else tokensFrom fuel next cs
      else tokensFrom fuel (p.skip [c]) cs
    else if isSpace c then tokensFrom fuel (p.skip [c]) cs
    else if c == '#' then
      let comment := (c :: cs).takeWhile (· != '\n')
      tokensFrom fuel (p.skip comment) ((c :: cs).dropWhile (· != '\n'))
    else
      match continued? (c :: cs) with
      | some rest => tokensFrom fuel (p.skip (passed (c :: cs) rest)) rest
      | none =>
        let (kind, rest) := tokenAt (c :: cs)
        let next := p.skip (passed (c :: cs) rest)
        ⟨kind, p.offset, next.offset, p.line, p.indent⟩ ::
          tokensFrom fuel { next with depth := depthAfter p.depth kind, started := true } rest

/-- The tokens of a program. -/
def tokens (code : List Char) : List Token :=
  tokensFrom (code.length + 1) { indent := indentWidth 0 code } code

end Storyboard.Syntax
