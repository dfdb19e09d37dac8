import Storyboard.Literal.Basic
import Storyboard.Decimal.Notation
import Storyboard.Decimal.Reader
import Storyboard.Text.Trim

/-!
# Reading literals

`readAt` reads a literal at the front of a text and returns what follows; `parse` reads a whole
text.  A failure carries its cause and the text from the place where reading stopped.
-/

namespace Storyboard.Literal

/-- Why a text is no literal. -/
inductive Cause where
  | endOfInput
  | unexpectedCharacter
  | noCommaOrClose
  | noColon
  | noCommaOrBrace
  | unterminated
  | badFloat
  | badInteger
  | identifier
  | trailing

/-- The wording of a cause. -/
def Cause.reason : Cause → String
  | endOfInput => "unexpected end of input"
  | unexpectedCharacter => "unexpected character"
  | noCommaOrClose => "expected ',' or closing bracket"
  | noColon => "expected ':' in dict"
  | noCommaOrBrace => "expected ',' or '\x7d' in dict"
  | unterminated => "unterminated string"
  | badFloat => "invalid float"
  | badInteger => "invalid integer"
  | identifier => "identifier is not a literal"
  | trailing => "trailing input after literal"

/-- A failure of reading: its cause, and the text that was not read. -/
structure Failure where
  cause : Cause
  rest : List Char

/-- The text without leading blanks, backslashes and comments. -/
def skipTrivia : Bool → List Char → List Char
  | _, [] => []
  | true, c :: cs => if c == '\n' then skipTrivia false cs else skipTrivia true cs
  | false, c :: cs =>
    if Text.isAsciiBlank c || c == '\\' then skipTrivia false cs
    else if c == '#' then skipTrivia true cs
    else c :: cs

/-- The text without leading trivia. -/
def skip (cs : List Char) : List Char := skipTrivia false cs

/-- The raw characters of a string up to its closing quote, and what follows the quote. -/
def quotedBody (quote : Char) : List Char → Except Failure (List Char × List Char)
  | [] => .error ⟨.unterminated, []⟩
  | '\\' :: c :: cs => (quotedBody quote cs).map fun (raw, rest) => ('\\' :: c :: raw, rest)
  | c :: cs =>
    if c == '\\' then .error ⟨.unterminated, cs⟩
    else if c == quote then .ok ([], cs)
    else if c == '\n' then .error ⟨.unterminated, c :: cs⟩
    else (quotedBody quote cs).map fun (raw, rest) => (c :: raw, rest)

/-- The text of a string: a backslash before `n` or `t` makes a line end or a tab, and before any
other character that character. -/
def unescape : List Char → List Char
  | [] => []
  | '\\' :: 'n' :: cs => '\n' :: unescape cs
  | '\\' :: 't' :: cs => '\t' :: unescape cs
  | '\\' :: c :: cs => c :: unescape cs
  | c :: cs => c :: unescape cs

/-- The characters of a number and what follows them; a sign belongs to it after an exponent
letter. -/
def numberRun : List Char → List Char × List Char
  | [] => ([], [])
  | e :: sign :: cs =>
    if (e == 'e' || e == 'E') && (sign == '-' || sign == '+') then
      let (run, rest) := numberRun cs
      (e :: sign :: run, rest)
    else if e.isDigit || e == '_' || e == '.' || e == 'e' || e == 'E' then
      let (run, rest) := numberRun (sign :: cs)
      (e :: run, rest)
    else ([], e :: sign :: cs)
  | c :: cs =>
    if c.isDigit || c == '_' || c == '.' || c == 'e' || c == 'E' then (c :: cs, []) else ([], c :: cs)

/-- A number at the front of the text: it is a double when it has a point or an exponent. -/
def number (cs : List Char) : Except Failure (Literal × List Char) :=
  let (sign, body) := match cs with
    | '-' :: rest => (['-'], rest)
    | '+' :: rest => (['+'], rest)
    | _ => ([], cs)
  let (run, rest) := numberRun body
  -- digits may be grouped by underscores, which do not count
  let digits := sign ++ run.filter (· != '_')
  if run.any fun c => c == '.' || c == 'e' || c == 'E' then
    match Decimal.float? digits with
    | some x => .ok (.float x, rest)
    | Option.none => .error ⟨.badFloat, rest⟩
  else
    match Decimal.int64? digits with
    | some n => .ok (.int n, rest)
    | Option.none => .error ⟨.badInteger, rest⟩

/-- An ASCII letter, digit or underscore. -/
def isKeywordChar (c : Char) : Bool := c.isAlphanum || c == '_'

/-- A named value at the front of the text. -/
def keyword (cs : List Char) : Except Failure (Literal × List Char) :=
  let rest := cs.dropWhile isKeywordChar
  match cs.takeWhile isKeywordChar with
  | ['T', 'r', 'u', 'e'] => .ok (.bool true, rest)
  | ['F', 'a', 'l', 's', 'e'] => .ok (.bool false, rest)
  | ['N', 'o', 'n', 'e'] => .ok (.none, rest)
  | _ => .error ⟨.identifier, cs⟩

/-- What the items of a pair of parentheses denote: a single item without a comma is itself. -/
def parenthesized : List Literal → Bool → Literal
  | [item], false => item
  | items, _ => .tuple items

mutual

/-- A literal at the front of the text, after trivia. -/
def valueAt : Nat → List Char → Except Failure (Literal × List Char)
  | 0, cs => .error ⟨.endOfInput, cs⟩
  | fuel + 1, cs =>
    match skip cs with
    | [] => .error ⟨.endOfInput, []⟩
    | c :: rest =>
      if c == '[' then
        (itemsAt fuel ']' false rest).map fun (items, _, rest) => (.list items, rest)
      else if c == '(' then
        (itemsAt fuel ')' false rest).map fun (items, comma, rest) => (parenthesized items comma, rest)
      else if c == '\x7b' then
        (entriesAt fuel rest).map fun (entries, rest) => (.dict entries, rest)
      else if c == '"' || c == '\'' then
        (quotedBody c rest).map fun (raw, rest) => (.text (String.ofList (unescape raw)), rest)
      else if c.isDigit || c == '-' || c == '+' || c == '.' then number (c :: rest)
      else if c.isAlpha || c == '_' then keyword (c :: rest)
      else .error ⟨.unexpectedCharacter, c :: rest⟩

/-- Items up to the closing bracket, and whether the last of them is followed by a comma; `comma`
says whether a comma has just been read. -/
def itemsAt : Nat → Char → Bool → List Char → Except Failure (List Literal × Bool × List Char)
  | 0, _, _, cs => .error ⟨.endOfInput, cs⟩
  | fuel + 1, close, comma, cs =>
    let here := skip cs
    if here.head? == some close then .ok ([], comma, here.tail)
    else
      match valueAt fuel here with
      | .error e => .error e
      | .ok (item, rest) =>
        match skip rest with
        | [] => .error ⟨.noCommaOrClose, []⟩
        | c :: rest =>
          if c == ',' then
            (itemsAt fuel close true rest).map fun (items, comma, rest) => (item :: items, comma, rest)
          else if c == close then .ok ([item], false, rest)
          else .error ⟨.noCommaOrClose, c :: rest⟩

/-- Entries up to the closing brace. -/
def entriesAt : Nat → List Char → Except Failure (List (Literal × Literal) × List Char)
  | 0, cs => .error ⟨.endOfInput, cs⟩
  | fuel + 1, cs =>
    match skip cs with
    | '\x7d' :: rest => .ok ([], rest)
    | here =>
      match valueAt fuel here with
      | .error e => .error e
      | .ok (key, rest) =>
        match skip rest with
        | ':' :: rest =>
          match valueAt fuel rest with
          | .error e => .error e
          | .ok (value, rest) =>
            match skip rest with
            | ',' :: rest =>
              (entriesAt fuel rest).map fun (entries, rest) => ((key, value) :: entries, rest)
            | '\x7d' :: rest => .ok ([(key, value)], rest)
            | rest => .error ⟨.noCommaOrBrace, rest⟩
        | rest => .error ⟨.noColon, rest⟩

end

/-- Reads a literal at the front of a text. -/
def readAt (cs : List Char) : Except Failure (Literal × List Char) := valueAt (2 * cs.length + 2) cs

/-- Reads a text that is a literal and nothing but trivia after it. -/
def parse (cs : List Char) : Except Failure Literal :=
  match readAt cs with
  | .error e => .error e
  | .ok (value, rest) =>
    let rest := skip rest
    if rest.isEmpty then .ok value else .error ⟨.trailing, rest⟩

/-- The literal of a text, if it is one. -/
def parse? (cs : List Char) : Option Literal := (parse cs).toOption

/-- A quote character. -/
def isQuote (c : Char) : Bool := c == '"' || c == '\''

/-- Reads an operand: a literal, or else the text itself without outer blanks and quotes. -/
def lenient (cs : List Char) : Literal :=
  let trimmed := Text.trim cs
  match parse? trimmed with
  | some value => value
  | Option.none => .text (String.ofList (Text.dropEndWhile isQuote (trimmed.dropWhile isQuote)))

/-- The number of bytes that the characters take. -/
def byteLength (cs : List Char) : Nat := (cs.map Char.utf8Size).foldl (· + ·) 0

/-- How far into `text` a failure is, in bytes. -/
def Failure.offset (failure : Failure) (text : List Char) : Nat :=
  byteLength text - byteLength failure.rest

/-- The message of a failure. -/
def Failure.message (failure : Failure) (text : List Char) : String :=
  "invalid literal at offset " ++ Decimal.intText (failure.offset text) ++ ": " ++
    failure.cause.reason

end Storyboard.Literal
