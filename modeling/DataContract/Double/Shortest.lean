import DataContract.Double.Basic

/-!
# Shortest decimal text of a double

The text has the fewest significant digits that read back as the same double; of the decimals
with that many digits it is the one nearest to the double.  The reals that read back as a double
reach half way to its neighbours, both ends included when its significand is even.

Specification (`SPEC_FULL.md`, part II): section 10.4, the numbers of JSON.

Contents:

* `Double.shortest`: the digits and the place of the first one.
* `Double.render`: the text, positional when the first digit stands for a power of ten from
  `-5` to `15`, otherwise with an exponent.
-/

namespace DataContract.Double

/-! ## The reals that read back -/

/-- A positive double as a quotient, with the reals that read back as it. -/
structure Interval where
  /-- Numerator of the value. -/
  value : Nat
  /-- Numerator of the lower end. -/
  low : Nat
  /-- Numerator of the upper end. -/
  high : Nat
  /-- Common denominator. -/
  den : Nat
  /-- The ends read back too. -/
  closed : Bool

/-- The interval of a double.  Below a power of two the next double is only half as far away. -/
def interval (x : Double) : Interval :=
  let unit := pow2 x.exponent.toNat
  let atPower := x.significand == pow2 (precision - 1) && minExponent < x.exponent
  { value := 4 * x.significand * unit
    low := (4 * x.significand - if atPower then 1 else 2) * unit
    high := (4 * x.significand + 2) * unit
    den := 4 * x.den
    closed := x.significand % 2 == 0 }

/-- The decimal `digits * 10 ^ place` reads back. -/
def Interval.holds (i : Interval) (digits : Nat) (place : Int) : Bool :=
  let point := digits * pow10 place.toNat * i.den
  let low := i.low * pow10 (-place).toNat
  let high := i.high * pow10 (-place).toNat
  if i.closed then low ≤ point && point ≤ high else low < point && point < high

/-- The power of ten of the first digit of the value. -/
def Interval.leading (i : Interval) : Int :=
  if i.den ≤ i.value then ((Nat.toDigits 10 (i.value / i.den)).length : Int) - 1
  else
    match (List.range 400).find? fun k => i.den ≤ i.value * pow10 k with
    | some k => -(k : Int)
    | none => 0

/-- The nearer one of the two decimals with `count` digits around the value that read back. -/
def Interval.atLength? (i : Interval) (count : Nat) : Option (Nat × Int) :=
  let place := i.leading - count + 1
  let num := i.value * pow10 (-place).toNat
  let den := i.den * pow10 place.toNat
  let below := num / den
  let nearerFirst :=
    if 2 * (num % den) < den || (2 * (num % den) == den && below % 2 == 0) then [below, below + 1]
    else [below + 1, below]
  (nearerFirst.find? (i.holds · place)).map (·, place)

/-- A decimal without the zeros at its end. -/
def dropZeros : List Char → List Char
  | digits => (digits.reverse.dropWhile (· == '0')).reverse

/-- The digits of the shortest decimal that reads back, and the power of ten of the first one.
Seventeen digits always suffice. -/
def shortest (x : Double) : List Char × Int :=
  let i := x.interval
  match (List.range' 1 17).findSome? i.atLength? with
  | some (digits, place) =>
    let text := Nat.toDigits 10 digits
    (dropZeros text, place + text.length - 1)
  | none => (['0'], 0)

/-! ## The text -/

/-- The least power of ten of a first digit in positional text. -/
def minPositional : Int := -5

/-- The greatest power of ten of a first digit in positional text. -/
def maxPositional : Int := 15

/-- Digits with a point behind the first `whole` ones, and with zeros where digits lack. -/
def withPoint (digits : List Char) (whole : Nat) : List Char :=
  let fraction := digits.drop whole
  digits.take whole ++ List.replicate (whole - digits.length) '0' ++ '.' ::
    (if fraction.isEmpty then ['0'] else fraction)

/-- Positional text with at least one digit on both sides of the point. -/
def positional (digits : List Char) (leading : Int) : List Char :=
  if leading < 0 then '0' :: '.' :: List.replicate (leading.natAbs - 1) '0' ++ digits
  else withPoint digits (leading.toNat + 1)

/-- Text with a signed exponent, and with a point only before further digits. -/
def scientific (digits : List Char) (leading : Int) : List Char :=
  digits.take 1 ++ (if digits.length ≤ 1 then [] else '.' :: digits.drop 1) ++ 'e' ::
    (if leading < 0 then '-' else '+') :: Nat.toDigits 10 leading.natAbs

/-- The shortest text that reads back. -/
def render (x : Double) : String :=
  let magnitude :=
    if x.isZero then ['0', '.', '0']
    else
      let (digits, leading) := x.shortest
      if minPositional ≤ leading ∧ leading ≤ maxPositional then positional digits leading
      else scientific digits leading
  String.ofList (if x.negative then '-' :: magnitude else magnitude)

end DataContract.Double
