/-!
# Double precision numbers

A finite number of the binary64 format, with exact rounding: every operation computes a quotient
of natural numbers and takes the nearest double, of two equally near ones the one with the even
significand.

Specification (`SPEC_FULL.md`, part II): section 10.4, the numbers of JSON.

Contents:

* `Double`: sign, significand and exponent.
* `Double.ofRatio?`: the double nearest to a quotient.
* `Double.mul?`, `Double.div?`: rounded product and quotient.
* `Double.scaled?`: a significand times a power of ten, rounded at each step.
-/

namespace DataContract

/-- The number `±significand * 2 ^ exponent`.  A significand of 53 bits is preferred; fewer bits
stand only beside the least exponent, -1074. -/
structure Double where
  negative : Bool
  significand : Nat
  exponent : Int
  deriving DecidableEq, Inhabited, Repr

namespace Double

/-- A power of two. -/
def pow2 (k : Nat) : Nat := Nat.pow 2 k

/-- A power of ten. -/
def pow10 (k : Nat) : Nat := Nat.pow 10 k

/-- The number of bits of a full significand. -/
def precision : Nat := 53

/-- The least exponent. -/
def minExponent : Int := -1074

/-- The greatest exponent. -/
def maxExponent : Int := 971

/-- Positive or negative zero. -/
def zero (negative : Bool) : Double := ⟨negative, 0, minExponent⟩

/-- The number is positive or negative zero. -/
def isZero (x : Double) : Bool := x.significand == 0

/-- The quotient rounded to the nearest natural number, a half going to the even neighbour. -/
def roundHalfEven (num den : Nat) : Nat :=
  let floor := num / den
  let twice := 2 * (num % den)
  if den < twice || (twice == den && floor % 2 == 1) then floor + 1 else floor

/-- `num / den` in units of `2 ^ exponent`, rounded. -/
def inUnits (num den : Nat) (exponent : Int) : Nat :=
  roundHalfEven (num * pow2 (-exponent).toNat) (den * pow2 exponent.toNat)

/-- The exponent beside which the integer part of `num / den` has all bits of a significand. -/
def exponentFor (num den : Nat) : Int :=
  let guess : Int := num.log2 - den.log2 - precision
  let units := num * pow2 (-guess).toNat / (den * pow2 guess.toNat)
  max minExponent (if units < pow2 precision then guess else guess + 1)

/-- The double nearest to `±num / den`, none when that is beyond the greatest double. -/
def ofRatio? (negative : Bool) (num den : Nat) : Option Double :=
  if num = 0 then some (zero negative)
  else
    let exponent := exponentFor num den
    let significand := inUnits num den exponent
    let rounded : Double :=
      if significand = pow2 precision then ⟨negative, pow2 (precision - 1), exponent + 1⟩
      else ⟨negative, significand, exponent⟩
    if rounded.exponent ≤ maxExponent then some rounded else none

/-- The magnitude as a quotient: its numerator. -/
def num (x : Double) : Nat := x.significand * pow2 x.exponent.toNat

/-- The magnitude as a quotient: its denominator. -/
def den (x : Double) : Nat := pow2 (-x.exponent).toNat

/-- The rounded product. -/
def mul? (x y : Double) : Option Double :=
  ofRatio? (x.negative != y.negative) (x.num * y.num) (x.den * y.den)

/-- The rounded quotient; none also for a zero divisor. -/
def div? (x y : Double) : Option Double :=
  if y.isZero then none
  else ofRatio? (x.negative != y.negative) (x.num * y.den) (x.den * y.num)

/-! ## Powers of ten -/

/-- The greatest power of ten that is a double. -/
def maxTenPower : Nat := 308

/-- `10 ^ k`, rounded. -/
def tenPower? (k : Nat) : Option Double := ofRatio? false (pow10 k) 1

/-- `x / 10 ^ k`, dividing by the greatest power of ten as long as `k` exceeds it.  Zero is
reached after a few such divisions. -/
def shrink? (x : Double) (k : Nat) : Option Double :=
  if _h : k ≤ maxTenPower then (tenPower? k).bind x.div?
  else if x.isZero then some x
  else (tenPower? maxTenPower).bind fun ten => (x.div? ten).bind (shrink? · (k - maxTenPower))
termination_by k
decreasing_by simp only [maxTenPower] at *; omega

/-- `x * 10 ^ k`, none when out of range. -/
def grow? (x : Double) (k : Nat) : Option Double :=
  if k ≤ maxTenPower then (tenPower? k).bind x.mul?
  else if x.isZero then some x
  else none

/-- `±significand * 10 ^ power`.  The significand, the power of ten and the result are rounded
one after the other, so the result need not be the double nearest to the exact value. -/
def scaled? (negative : Bool) (significand : Nat) (power : Int) : Option Double :=
  (ofRatio? negative significand 1).bind fun x =>
    if power < 0 then x.shrink? power.natAbs else x.grow? power.natAbs

end Double

end DataContract
