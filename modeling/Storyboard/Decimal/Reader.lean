import Storyboard.Text.Search

/-!
# Reading decimal numbers

`int64?` reads a signed whole number that fits 64 bits, `nat64?` an unsigned one, and `float?` a
decimal fraction with optional exponent, rounded to the nearest double.
-/

namespace Storyboard.Decimal

/-- The number that ASCII digits write after a leading part `acc`. -/
def digitsValue (acc : Nat) (digits : List Char) : Nat :=
  digits.foldl (fun n c => 10 * n + (c.toNat - '0'.toNat)) acc

/-- A nonempty run of ASCII digits and nothing else. -/
def nat? (cs : List Char) : Option Nat :=
  if !cs.isEmpty && cs.all Char.isDigit then some (digitsValue 0 cs) else none

/-- The text after an optional sign, and whether the sign is a minus. -/
def splitSign : List Char → Bool × List Char
  | '-' :: cs => (true, cs)
  | '+' :: cs => (false, cs)
  | cs => (false, cs)

/-- The integer lies in the range of 64-bit words with sign. -/
def fitsInt64 (n : Int) : Bool :=
  decide (Int64.minValue.toInt ≤ n) && decide (n ≤ Int64.maxValue.toInt)

/-- A signed decimal number that fits 64 bits. -/
def int64? (cs : List Char) : Option Int64 :=
  let (negative, digits) := splitSign cs
  match nat? digits with
  | none => none
  | some n =>
    let value : Int := if negative then -n else n
    if fitsInt64 value then some (Int64.ofInt value) else none

/-- An unsigned decimal number that fits 64 bits; a leading plus is allowed. -/
def nat64? (cs : List Char) : Option Nat :=
  let digits := match cs with
    | '+' :: rest => rest
    | _ => cs
  match nat? digits with
  | none => none
  | some n => if n < UInt64.size then some n else none

/-- The double nearest to `digits · 10^exponent`, where `digits` are decimal digits. -/
def nearest (digits : List Char) (exponent : Int) : Float :=
  let significant := digits.dropWhile (· == '0')
  let point := exponent + significant.length
  if significant.isEmpty || point < -330 then 0.0
  else if 310 < point then 1.0 / 0.0
  else Float.ofScientific (digitsValue 0 significant) (decide (exponent < 0)) exponent.natAbs

/-- An exponent part at the front, zero when there is none; nothing may follow it. -/
def exponent? : List Char → Option Int
  | [] => some 0
  | c :: cs =>
    if c == 'e' || c == 'E' then
      let (negative, digits) := splitSign cs
      (nat? digits).map fun n => if negative then -(n : Int) else n
    else none

/-- A decimal fraction with optional sign and exponent: at least one digit before or after the
point. -/
def float? (cs : List Char) : Option Float :=
  let (negative, body) := splitSign cs
  let whole := body.takeWhile Char.isDigit
  let afterWhole := body.dropWhile Char.isDigit
  let (fraction, tail) := match afterWhole with
    | '.' :: rest => (rest.takeWhile Char.isDigit, rest.dropWhile Char.isDigit)
    | rest => ([], rest)
  if whole.isEmpty && fraction.isEmpty then none
  else
    (exponent? tail).map fun e =>
      let x := nearest (whole ++ fraction) (e - fraction.length)
      if negative then -x else x

end Storyboard.Decimal
