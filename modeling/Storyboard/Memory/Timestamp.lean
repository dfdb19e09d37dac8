import Storyboard.Decimal.Notation
import Storyboard.Decimal.Reader
import Storyboard.Text.Trim

/-!
# Points in time

A point in time is a day and a time of that day in coordinated universal time.  Its text is a date
and a time with the offset of the clock; `read?` is lenient about blanks and the number of digits,
and `readStrict?` accepts what `write` writes for years of four digits.
-/

namespace Storyboard

/-- A point in time. -/
structure Timestamp where
  /-- Days since the first of January 1970. -/
  day : Int
  /-- Seconds since the start of the day. -/
  second : Nat
  /-- Billionths of a second; in a leap second there are more of them than a second has. -/
  nanos : Nat
  deriving DecidableEq

namespace Timestamp

/-- The start of 1970. -/
def epoch : Timestamp := ⟨0, 0, 0⟩

/-- The number of a day in the calendar. -/
def dayOfDate (year : Int) (month day : Nat) : Int :=
  let y := if month ≤ 2 then year - 1 else year
  let era := y.fdiv 400
  let yearOfEra := y - era * 400
  let dayOfYear : Int := (153 * ((month + 9) % 12) + 2) / 5 + day - 1
  era * 146097 + (yearOfEra * 365 + yearOfEra.fdiv 4 - yearOfEra.fdiv 100 + dayOfYear) - 719468

/-- Year, month and day of the number of a day. -/
def dateOfDay (day : Int) : Int × Nat × Nat :=
  let z := day + 719468
  let era := z.fdiv 146097
  let dayOfEra := (z - era * 146097).toNat
  let yearOfEra := (dayOfEra - dayOfEra / 1460 + dayOfEra / 36524 - dayOfEra / 146096) / 365
  let dayOfYear := dayOfEra - (365 * yearOfEra + yearOfEra / 4 - yearOfEra / 100)
  let shifted := (5 * dayOfYear + 2) / 153
  let month := if shifted < 10 then shifted + 3 else shifted - 9
  let year : Int := yearOfEra + era * 400 + if month ≤ 2 then 1 else 0
  (year, month, dayOfYear - (153 * shifted + 2) / 5 + 1)

/-- The year has a leap day. -/
def isLeap (year : Int) : Bool := year % 4 == 0 && (year % 100 != 0 || year % 400 == 0)

/-- The number of days of a month. -/
def monthLength (year : Int) (month : Nat) : Nat :=
  if month = 2 then if isLeap year then 29 else 28
  else if month = 4 ∨ month = 6 ∨ month = 9 ∨ month = 11 then 30
  else 31

/-- The years that there are dates for. -/
def isYear (year : Int) : Bool := decide (-262143 ≤ year ∧ year ≤ 262142)

/-- A number with leading zeros. -/
def padded (width n : Nat) : List Char :=
  let digits := Decimal.natDigits n
  List.replicate (width - digits.length) '0' ++ digits

/-- A year with four digits, or more with a sign. -/
def yearText (year : Int) : List Char :=
  if 0 ≤ year ∧ year ≤ 9999 then padded 4 year.toNat
  else (if year < 0 then '-' else '+') :: padded 4 year.natAbs

/-- The fraction of a second in as many groups of three digits as it needs. -/
def fractionText (nanos : Nat) : List Char :=
  if nanos = 0 then []
  else if nanos % 1000000 = 0 then '.' :: padded 3 (nanos / 1000000)
  else if nanos % 1000 = 0 then '.' :: padded 6 (nanos / 1000)
  else '.' :: padded 9 nanos

/-- The text of a point in time, followed by how the offset zero is to be written. -/
def write (offset : String) (t : Timestamp) : String :=
  let (year, month, day) := dateOfDay t.day
  let leap := if 1000000000 ≤ t.nanos then 1 else 0
  String.ofList (yearText year ++ '-' :: padded 2 month ++ '-' :: padded 2 day ++ 'T' ::
    padded 2 (t.second / 3600) ++ ':' :: padded 2 (t.second / 60 % 60) ++ ':' ::
    padded 2 (t.second % 60 + leap) ++ fractionText (t.nanos - leap * 1000000000)) ++ offset

/-- A date and a time as read, with the seconds that the clock is ahead. -/
structure Reading where
  year : Int
  month : Nat
  day : Nat
  hour : Nat
  minute : Nat
  second : Nat
  nanos : Nat
  offset : Int

/-- The point in time of a reading, if there is one. -/
def Reading.timestamp? (r : Reading) : Option Timestamp :=
  if isYear r.year && decide (1 ≤ r.month ∧ r.month ≤ 12) &&
      decide (1 ≤ r.day ∧ r.day ≤ monthLength r.year r.month) &&
      decide (r.hour ≤ 23 ∧ r.minute ≤ 59 ∧ r.second ≤ 60) &&
      decide (-86400 < r.offset ∧ r.offset < 86400) then
    -- a leap second is kept as a billion nanoseconds on top of second 59
    let (second, leap) := if r.second = 60 then (59, 1000000000) else (r.second, 0)
    let local_ : Int := r.hour * 3600 + r.minute * 60 + second - r.offset
    let day := dayOfDate r.year r.month r.day + local_.fdiv 86400
    -- the offset may lead out of the first or the last year
    if isYear (dateOfDay day).1 then
      some ⟨day, (local_.fmod 86400).toNat, r.nanos + leap⟩
    else none
  else none

/-- A number of at least one digit and at most `width` of them. -/
def number? (width : Nat) (cs : List Char) : Option (Nat × List Char) :=
  let digits := (cs.take width).takeWhile Char.isDigit
  if digits.isEmpty then none else some (Decimal.digitsValue 0 digits, cs.drop digits.length)

/-- A number after blanks. -/
def blanksNumber? (width : Nat) (cs : List Char) : Option (Nat × List Char) :=
  number? width (Text.trimStart cs)

/-- A year after blanks; with a sign it may have any number of digits. -/
def year? (cs : List Char) : Option (Int × List Char) :=
  match Text.trimStart cs with
  | '-' :: rest => (number? rest.length rest).map fun (n, rest) => (-(n : Int), rest)
  | '+' :: rest => (number? rest.length rest).map fun (n, rest) => ((n : Int), rest)
  | rest => (number? 4 rest).map fun (n, rest) => ((n : Int), rest)

/-- The billionths of a second after a point; digits beyond the ninth do not count. -/
def fraction? (cs : List Char) : Option (Nat × List Char) :=
  match cs with
  | '.' :: rest =>
    let digits := rest.takeWhile Char.isDigit
    if digits.isEmpty then none
    else
      let counted := digits.take 9
      some (Decimal.digitsValue 0 counted * Nat.pow 10 (9 - counted.length), rest.drop digits.length)
  | _ => some (0, cs)

/-- Two digits. -/
def twoDigits? (cs : List Char) : Option (Nat × List Char) :=
  match cs with
  | a :: b :: rest =>
    if a.isDigit && b.isDigit then some (Decimal.digitsValue 0 [a, b], rest) else none
  | _ => none

/-- The sign of an offset: a plus, a hyphen or a minus. -/
def offsetSign? (cs : List Char) : Option (Int × List Char) :=
  match cs with
  | '+' :: rest => some (1, rest)
  | '-' :: rest => some (-1, rest)
  | '\u2212' :: rest => some (-1, rest)
  | _ => none

/-- An offset of the clock in seconds: the letter of universal time, or hours and minutes with
colons and blanks between them. -/
def offset? (cs : List Char) : Option (Int × List Char) :=
  match cs with
  | 'Z' :: rest | 'z' :: rest => some (0, rest)
  | _ => do
    let (sign, rest) ← offsetSign? cs
    let (hours, rest) ← twoDigits? rest
    let (minutes, rest) ← twoDigits? (rest.dropWhile fun c => c == ':' || Text.isBlank c)
    if minutes ≤ 59 then return (sign * (hours * 3600 + minutes * 60), rest) else none

/-- An offset, or the name of universal time. -/
def namedOffset? (cs : List Char) : Option (Int × List Char) :=
  match cs with
  | a :: b :: c :: rest =>
    if [a, b, c].map Char.toUpper == ['U', 'T', 'C'] then some (0, rest) else offset? cs
  | _ => offset? cs

/-- Reads a date and a time, with blanks allowed between their parts. -/
def read? (text : String) : Option Timestamp := do
  let (year, rest) ← year? text.toList
  let rest ← Text.blanksThen? '-' rest
  let (month, rest) ← blanksNumber? 2 rest
  let rest ← Text.blanksThen? '-' rest
  let (day, rest) ← blanksNumber? 2 rest
  let rest ← match rest with
    | c :: rest => if c == 'T' || c == 't' || c == ' ' then some rest else none
    | [] => none
  let (hour, rest) ← blanksNumber? 2 rest
  let rest ← Text.blanksThen? ':' rest
  let (minute, rest) ← blanksNumber? 2 rest
  let rest ← Text.blanksThen? ':' rest
  let (second, rest) ← blanksNumber? 2 rest
  let (nanos, rest) ← fraction? rest
  let (offset, rest) ← namedOffset? (Text.trimStart rest)
  if (Text.trimStart rest).isEmpty then
    Reading.timestamp? ⟨year, month, day, hour, minute, second, nanos, offset⟩
  else none

/-- Reads what `write` writes; a year has four digits and no sign. -/
def readStrict? (text : String) : Option Timestamp :=
  if text.toList.head?.any Char.isDigit then read? text else none

end Timestamp

end Storyboard
