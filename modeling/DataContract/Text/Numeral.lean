/-!
# Numerals

The values of digits, and the integers that fit 64 bits.

Specification (`SPEC_FULL.md`, part II): sections 10.3 and 10.4, the numbers of TOML and JSON.

Contents:

* `hexValue?`: the value of a hexadecimal digit.
* `valueIn`: the number that digits write in a base.
* `isSigned64`: the integers of 64 bits with a sign.
-/

namespace DataContract.Text

/-- The value of a hexadecimal digit. -/
def hexValue? (c : Char) : Option Nat :=
  if c.isDigit then some (c.toNat - '0'.toNat)
  else if 'a' ≤ c ∧ c ≤ 'f' then some (c.toNat - 'a'.toNat + 10)
  else if 'A' ≤ c ∧ c ≤ 'F' then some (c.toNat - 'A'.toNat + 10)
  else none

/-- The number that digits write in a base. -/
def valueIn (base : Nat) (digits : List Char) : Nat :=
  digits.foldl (fun n c => base * n + (hexValue? c).getD 0) 0

/-- The integers of 64 bits with a sign. -/
def isSigned64 (value : Int) : Bool := -0x8000000000000000 ≤ value && value ≤ 0x7FFFFFFFFFFFFFFF

end DataContract.Text
