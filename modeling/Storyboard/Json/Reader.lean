import Storyboard.Json.Tree
import Storyboard.Decimal.Reader

/-!
# What data text denotes

`parse?` reads a text into a canonical value.  A text of the grammar denotes no value when a number
in it is out of range, a surrogate stands alone, or it nests more than `depthLimit` deep.
-/

namespace Storyboard.Json

/-- How deep arrays and objects may nest. -/
def depthLimit : Nat := 127

/-- A number is a double, or an integer when it has neither fraction nor exponent and fits. -/
inductive Number where
  | int (n : Int)
  | float (x : Float)

/-- Digits are taken into the significand while it fits 64 bits; the rest are counted. -/
def takeDigits (significand : Nat) : List Char → Nat × List Char
  | [] => (significand, [])
  | c :: cs =>
    let next := significand * 10 + (c.toNat - '0'.toNat)
    if next < UInt64.size then takeDigits next cs else (significand, c :: cs)

/-- Scales by a power of ten that the table of powers holds, after as many divisions by the
greatest of them as a very small exponent needs. -/
def scale : Nat → Float → Int → Option Float
  | 0, x, _ => some x
  | fuel + 1, x, exponent =>
    if exponent.natAbs ≤ 308 then
      let power := Float.ofScientific 1 false exponent.natAbs
      if 0 ≤ exponent then
        let y := x * power
        if y.isInf then none else some y
      else some (x / power)
    else if x == 0.0 then some x
    else if 0 ≤ exponent then none
    else scale fuel (x / 1e308) (exponent + 308)

/-- The double `significand · 10^exponent`, unless it is too great. -/
def ofParts (negative : Bool) (significand : Nat) (exponent : Int) : Option Float :=
  (scale 8 significand.toUInt64.toFloat exponent).map fun x => if negative then -x else x

/-- The exponent that is written out, when it fits 32 bits. -/
def writtenExponent? (digits : List Char) : Option Nat :=
  let n := Decimal.digitsValue 0 (digits.dropWhile (· == '0'))
  if n < Nat.pow 2 31 then some n else none

/-- The double of a numeral with significand and decimal exponent read so far. -/
def withExponent (numeral : Numeral) (significand : Nat) (exponent : Int) : Option Float :=
  match numeral.exponent with
  | none => ofParts numeral.negative significand exponent
  | some (negative, digits) =>
    match writtenExponent? digits with
    | some n => ofParts numeral.negative significand (if negative then exponent - n else exponent + n)
    | none =>
      if significand != 0 && !negative then none
      else some (if numeral.negative then -0.0 else 0.0)

/-- The value of a numeral. -/
def Numeral.value? (numeral : Numeral) : Option Number :=
  let (significand, uncounted) := takeDigits 0 numeral.whole
  match numeral.fraction, numeral.exponent, uncounted with
  | none, none, [] =>
    if !numeral.negative then some (.int significand)
    else if significand == 0 then some (.float (-0.0))
    -- a negative integer beyond 64 bits becomes a double
    else if significand ≤ Nat.pow 2 63 then some (.int (-significand))
    else some (.float (-significand.toUInt64.toFloat))
  | fraction, _, _ =>
    let digits := fraction.getD []
    let (significand, rest) := takeDigits significand digits
    let taken := digits.length - rest.length
    (withExponent numeral significand (uncounted.length - taken : Int)).map .float

/-- A character that a UTF-16 unit stands for by itself. -/
def loneUnit? (n : Nat) : Option Char :=
  if 0xD800 ≤ n ∧ n < 0xE000 then none else some (Char.ofNat n)

/-- The text of the pieces of a string, unless a surrogate stands alone. -/
def join? : List Piece → Option (List Char)
  | [] => some []
  | .char c :: rest => (join? rest).map (c :: ·)
  | .unit high :: .unit low :: rest =>
    -- the first half of a pair needs the second one right behind it
    if 0xD800 ≤ high ∧ high < 0xDC00 then
      if 0xDC00 ≤ low ∧ low < 0xE000 then
        let c := Char.ofNat (0x10000 + (high - 0xD800) * 0x400 + (low - 0xDC00))
        (join? rest).map (c :: ·)
      else none
    else do
      let c ← loneUnit? high
      let cs ← join? (.unit low :: rest)
      return c :: cs
  | .unit n :: rest => do
    let c ← loneUnit? n
    let cs ← join? rest
    return c :: cs

/-- The text of a string. -/
def joinString? (pieces : List Piece) : Option String := (join? pieces).map String.ofList

mutual

/-- The value of a tree that may nest `depth` deep, members as written. -/
def Tree.value? (depth : Nat) : Tree → Option Json
  | .null => some .null
  | .bool b => some (.bool b)
  | .number numeral =>
    (numeral.value?).map fun
      | .int n => .int n
      | .float x => .float x
  | .string pieces => (joinString? pieces).map .str
  | .array items =>
    match depth with
    | 0 => none
    | depth + 1 => (itemValues? depth items).map .arr
  | .object members =>
    match depth with
    | 0 => none
    | depth + 1 => (memberValues? depth members).map .obj

/-- The values of items. -/
def itemValues? (depth : Nat) : List Tree → Option (List Json)
  | [] => some []
  | item :: rest =>
    match item.value? depth with
    | none => none
    | some value => (itemValues? depth rest).map (value :: ·)

/-- The keys and values of members. -/
def memberValues? (depth : Nat) : List (List Piece × Tree) → Option (List (String × Json))
  | [] => some []
  | (key, tree) :: rest =>
    match joinString? key, tree.value? depth with
    | some key, some value => (memberValues? depth rest).map ((key, value) :: ·)
    | _, _ => none

end

/-- The value of a text, members as written. -/
def parseAsWritten? (text : String) : Option Json := (Tree.read? text).bind (Tree.value? depthLimit)

/-- The value of a text. -/
def parse? (text : String) : Option Json := (parseAsWritten? text).map canonical

end Storyboard.Json
