import Storyboard.Text.Blank
import Storyboard.Text.Letter

/-!
# Searching a text

Looking for a given text at the front of another or anywhere in it, and the small recognisers that
the pattern searches of the library are put together from.
-/

namespace Storyboard.Text

/-- What follows `needle` at the front of the text. -/
def dropPrefix? : List Char → List Char → Option (List Char)
  | [], cs => some cs
  | _ :: _, [] => none
  | n :: ns, c :: cs => if n == c then dropPrefix? ns cs else none

/-- A text has exactly the beginnings that can be dropped from it. -/
theorem dropPrefix?_eq_some_iff {needle cs rest : List Char} :
    dropPrefix? needle cs = some rest ↔ cs = needle ++ rest := by
  induction needle generalizing cs with
  | nil => simp [dropPrefix?]
  | cons n ns ih =>
    cases cs with
    | nil => simp [dropPrefix?]
    | cons c cs =>
      by_cases h : n = c
      · subst h
        simp [dropPrefix?, ih]
      · simp [dropPrefix?, h, Ne.symm h]

@[simp] theorem dropPrefix?_append (needle rest : List Char) :
    dropPrefix? needle (needle ++ rest) = some rest :=
  dropPrefix?_eq_some_iff.mpr rfl

/-- What precedes `needle` at the end of the text. -/
def dropSuffix? (needle cs : List Char) : Option (List Char) :=
  (dropPrefix? needle.reverse cs.reverse).map List.reverse

theorem dropSuffix?_eq_some_iff {needle cs front : List Char} :
    dropSuffix? needle cs = some front ↔ cs = front ++ needle := by
  unfold dropSuffix?
  constructor
  · intro h
    obtain ⟨back, hback, rfl⟩ := Option.map_eq_some_iff.mp h
    have hcs := congrArg List.reverse (dropPrefix?_eq_some_iff.mp hback)
    simpa using hcs
  · rintro rfl
    rw [List.reverse_append, dropPrefix?_append, Option.map_some, List.reverse_reverse]

/-- `needle` stands somewhere in the text. -/
def occursIn (needle : List Char) : List Char → Bool
  | [] => needle.isEmpty
  | c :: cs => needle.isPrefixOf (c :: cs) || occursIn needle cs

/-- `needle` stands somewhere in the string. -/
def contains (s needle : String) : Bool := occursIn needle.toList s.toList

/-- The first place, from the left, at which `f` succeeds; `f` is given the character before. -/
def firstPlace {α : Type} (f : Option Char → List Char → Option α) :
    Option Char → List Char → Option α
  | before, [] => f before []
  | before, c :: cs => (f before (c :: cs)).orElse fun _ => firstPlace f (some c) cs

/-- The first success of `f` on the suffixes of the text, from the left. -/
def firstSuffix {α : Type} (f : List Char → Option α) (cs : List Char) : Option α :=
  firstPlace (fun _ => f) none cs

/-- The suffixes of the text that start a line, given whether the text itself does. -/
def lineStartsFrom : Bool → List Char → List (List Char)
  | start, [] => if start then [[]] else []
  | start, c :: cs =>
    let rest := lineStartsFrom (c == '\n') cs
    if start then (c :: cs) :: rest else rest

/-- The suffixes of the text that start at the beginning of a line. -/
def lineStarts (cs : List Char) : List (List Char) := lineStartsFrom true cs

/-- What follows the blanks at the front, of which there is at least one. -/
def someBlanks? : List Char → Option (List Char)
  | [] => none
  | c :: cs => if isBlank c then some (cs.dropWhile isBlank) else none

/-- The rest after an expected character. -/
def expect? (expected : Char) : List Char → Option (List Char)
  | [] => none
  | c :: cs => if c == expected then some cs else none

/-- The rest after optional blanks and an expected character. -/
def blanksThen? (expected : Char) (cs : List Char) : Option (List Char) :=
  expect? expected (cs.dropWhile isBlank)

/-- The longest nonempty run of characters that satisfy `p`, and what follows it. -/
def someRun? (p : Char → Bool) (cs : List Char) : Option (List Char × List Char) :=
  let run := cs.takeWhile p
  if run.isEmpty then none else some (run, cs.dropWhile p)

/-- A name: a run of word characters that starts with an ASCII letter or an underscore. -/
def name? : List Char → Option (List Char × List Char)
  | [] => none
  | c :: cs => if startsName c then some (c :: cs.takeWhile isWord, cs.dropWhile isWord) else none

/-- A character of a dotted name. -/
def isDotted (c : Char) : Bool := isWord c || c == '.'

/-- A dotted name: word characters and dots after an ASCII letter or an underscore. -/
def dottedName? : List Char → Option (List Char × List Char)
  | [] => none
  | c :: cs => if startsName c then some (c :: cs.takeWhile isDotted, cs.dropWhile isDotted) else none

/-- The character before is not part of a word. -/
def wordMayStart : Option Char → Bool
  | none => true
  | some c => !isWord c

/-- The text does not go on with a word character. -/
def wordMayEnd : List Char → Bool
  | [] => true
  | c :: _ => !isWord c

end Storyboard.Text
