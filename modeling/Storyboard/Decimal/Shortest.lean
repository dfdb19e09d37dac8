/-!
# The shortest decimal of a floating-point number

A finite double is `m · 2^q`; the reals that round to it form an interval around it.  Of all
decimals in that interval `shortest` takes one with the fewest digits and, among those, the one
nearest to the number.  The search works on the decimal grids of one, two, …, seventeen digits in
exact arithmetic.
-/

namespace Storyboard.Decimal

/-- A finite double without its sign: the value is `mantissa · 2^exponent`. -/
structure Binary where
  mantissa : Nat
  exponent : Int

/-- The sign bit. -/
def isNegative (x : Float) : Bool := x.toBits >>> 63 == 1

/-- Mantissa and exponent of a finite double. -/
def Binary.ofFloat (x : Float) : Binary :=
  let bits := x.toBits.toNat
  let fraction : Nat := bits % Nat.pow 2 52
  let biased : Nat := bits / Nat.pow 2 52 % Nat.pow 2 11
  if biased = 0 then ⟨fraction, -1074⟩ else ⟨Nat.pow 2 52 + fraction, (biased : Int) - 1075⟩

/-- The numerator of a value over the denominator `scaleDown`. -/
def scaleUp (exponent : Int) : Nat := Nat.pow 2 exponent.toNat

/-- The power of two that a negative exponent divides by. -/
def scaleDown (exponent : Int) : Nat := Nat.pow 2 (-exponent).toNat

/-- How a decimal that lies exactly between two grid points is rounded. -/
inductive Tie where
  | toEven
  | up

/-- Positive quotient `numerator / denominator` with the half-widths of its rounding interval below
and above, all over four times the denominator, and whether the ends round to it as well. -/
structure Interval where
  numerator : Nat
  below : Nat
  above : Nat
  denominator : Nat
  closed : Bool

/-- The reals that round to the double; below a power of two the gap is half as wide. -/
def Binary.interval (b : Binary) : Interval :=
  let up := scaleUp b.exponent
  let narrow := b.mantissa == Nat.pow 2 52 && decide (-1074 < b.exponent)
  { numerator := 4 * b.mantissa * up
    below := if narrow then up else 2 * up
    above := 2 * up
    denominator := 4 * scaleDown b.exponent
    closed := b.mantissa % 2 == 0 }

/-- Ten to the power `e` as numerator and denominator. -/
def tenPower (e : Int) : Nat × Nat := (Nat.pow 10 e.toNat, Nat.pow 10 (-e).toNat)

/-- The grid point `digits · 10^exponent` lies in the interval. -/
def Interval.holds (i : Interval) (digits : Nat) (exponent : Int) : Bool :=
  let (up, down) := tenPower exponent
  let point := digits * up * i.denominator
  let low := (i.numerator - i.below) * down
  let high := (i.numerator + i.above) * down
  if i.closed then decide (low ≤ point) && decide (point ≤ high)
  else decide (low < point) && decide (point < high)

/-- The better of the two neighbours of the value on the grid of step `10^exponent`, if one of
them lies in the interval. -/
def Interval.onGrid (tie : Tie) (i : Interval) (exponent : Int) : Option Nat :=
  let (up, down) := tenPower exponent
  -- the quotient of these two is the value in steps of the grid
  let divisor := up * i.denominator
  let scaled := i.numerator * down
  let lower := scaled / divisor
  let twice := 2 * (scaled % divisor)
  match i.holds lower exponent && lower != 0, i.holds (lower + 1) exponent with
  | true, true =>
    if twice < divisor then some lower
    else if divisor < twice then some (lower + 1)
    else
      match tie with
      | .up => some (lower + 1)
      | .toEven => some (if lower % 2 == 0 then lower else lower + 1)
  | true, false => some lower
  | false, true => some (lower + 1)
  | false, false => none

/-- The least `n`, searched upward from `start`, with `numerator < denominator · 10^n`. -/
def powerAbove (numerator denominator : Nat) : Nat → Nat → Nat
  | 0, start => start
  | fuel + 1, start =>
    if numerator < denominator * Nat.pow 10 start then start
    else powerAbove numerator denominator fuel (start + 1)

/-- The greatest `n`, searched downward, with `numerator · 10^n < denominator`. -/
def powerBelow (numerator denominator : Nat) : Nat → Nat → Nat
  | 0, start => start
  | fuel + 1, start =>
    if numerator * Nat.pow 10 (start + 1) < denominator then
      powerBelow numerator denominator fuel (start + 1)
    else start

/-- The exponent `e` with `10^(e-1) ≤ value < 10^e`. -/
def Interval.magnitude (i : Interval) : Int :=
  if i.numerator < i.denominator then
    -(powerBelow i.numerator i.denominator 330 0 : Int)
  else powerAbove i.numerator i.denominator 310 1

/-- A decimal `digits · 10^exponent` whose last digit is not zero, or zero itself. -/
structure Digits where
  digits : Nat
  exponent : Int

/-- Moves trailing zeros of the digits into the exponent. -/
def stripZeros : Nat → Nat → Int → Digits
  | 0, digits, exponent => ⟨digits, exponent⟩
  | fuel + 1, digits, exponent =>
    if digits % 10 == 0 then stripZeros fuel (digits / 10) (exponent + 1) else ⟨digits, exponent⟩

/-- The first hit on the grids of `count`, `count + 1`, … digits. -/
def Interval.search (tie : Tie) (i : Interval) (magnitude : Int) : Nat → Nat → Digits
  | 0, _ => ⟨0, 0⟩
  | fuel + 1, count =>
    let exponent := magnitude - count
    match i.onGrid tie exponent with
    | some digits => stripZeros 20 digits exponent
    | none => i.search tie magnitude fuel (count + 1)

/-- The shortest decimal that reads back as the finite number `x`, without the sign. -/
def shortest (tie : Tie) (x : Float) : Digits :=
  let b := Binary.ofFloat x
  if b.mantissa = 0 then ⟨0, 0⟩
  else b.interval.search tie b.interval.magnitude 17 1

end Storyboard.Decimal
