import Storyboard.Decimal.Shortest

/-!
# Decimal notation

A number is written by its shortest digits in a style: positional between two powers of ten, and
with an exponent outside of them.  Three styles are in use: numbers in data, numbers shown as
literals, and numbers in prose.
-/

namespace Storyboard.Decimal

/-- The decisions of a style of writing. -/
structure Style where
  /-- Written positionally are the numbers from `10^(lowest - 1)` on … -/
  lowest : Int
  /-- … and below `10^highest`. -/
  highest : Int
  /-- A positive exponent carries its sign. -/
  signedExponent : Bool
  /-- A whole number ends in `.0`. -/
  pointZero : Bool
  tie : Tie

/-- Numbers in data: positional from 0.00001 to below 10^16. -/
def Style.data : Style := ⟨-4, 16, true, true, .toEven⟩

/-- Numbers shown as literals: positional from 0.0001 to below 10^16. -/
def Style.shown : Style := ⟨-3, 16, false, true, .up⟩

/-- Numbers in prose: always positional, and a whole number has no point. -/
def Style.prose : Style := ⟨-400, 400, false, false, .up⟩

/-- The decimal digits of a natural number. -/
def natDigits (n : Nat) : List Char := Nat.toDigits 10 n

/-- The decimal text of an integer. -/
def intText (n : Int) : String :=
  match n with
  | .ofNat m => String.ofList (natDigits m)
  | .negSucc m => String.ofList ('-' :: natDigits (m + 1))

/-- Positional notation of digits whose decimal point comes after `point` of them. -/
def positional (pointZero : Bool) (digits : List Char) (point : Int) : List Char :=
  if point ≤ 0 then '0' :: '.' :: (List.replicate (-point).toNat '0' ++ digits)
  else if digits.length ≤ point.toNat then
    digits ++ List.replicate (point.toNat - digits.length) '0' ++
      (if pointZero then ['.', '0'] else [])
  else digits.take point.toNat ++ '.' :: digits.drop point.toNat

/-- Exponent notation: one digit before the point. -/
def scientific (signedExponent : Bool) (digits : List Char) (exponent : Int) : List Char :=
  let mantissa :=
    match digits with
    | [d] => [d]
    | d :: rest => d :: '.' :: rest
    | [] => []
  let sign := if exponent < 0 then ['-'] else if signedExponent then ['+'] else []
  mantissa ++ 'e' :: (sign ++ natDigits exponent.natAbs)

/-- Writes a finite number without its sign. -/
def Style.magnitude (style : Style) (x : Float) : List Char :=
  let short := shortest style.tie x
  if short.digits = 0 then if style.pointZero then ['0', '.', '0'] else ['0']
  else
    let digits := natDigits short.digits
    let point := short.exponent + digits.length
    if style.lowest ≤ point ∧ point ≤ style.highest then positional style.pointZero digits point
    else scientific style.signedExponent digits (point - 1)

/-- Writes a number in a style. -/
def Style.write (style : Style) (x : Float) : String :=
  if x.isNaN then "NaN"
  else
    let sign := if isNegative x then ['-'] else []
    let body := if x.isInf then ['i', 'n', 'f'] else style.magnitude x
    String.ofList (sign ++ body)

end Storyboard.Decimal
