/-!
# Blank characters

The characters with the Unicode property `White_Space`.  They separate the tokens of a type
expression and are cut off the end of a script.

Specification (`SPEC_FULL.md`, part II): section 4.0, what separates the tokens of the grammar.

Contents:

* `isBlank`: the test.
* `trimEnd`: a text without its trailing blanks.
-/

namespace DataContract.Text

/-- The 25 characters with the property `White_Space`. -/
def isBlank (c : Char) : Bool :=
  let n := c.toNat
  (0x9 ≤ n && n ≤ 0xD) || n == 0x20 || n == 0x85 || n == 0xA0 || n == 0x1680 ||
    (0x2000 ≤ n && n ≤ 0x200A) || n == 0x2028 || n == 0x2029 || n == 0x202F || n == 0x205F ||
    n == 0x3000

/-- The text without the blanks at its end. -/
def trimEnd (text : List Char) : List Char :=
  (text.reverse.dropWhile isBlank).reverse

end DataContract.Text
