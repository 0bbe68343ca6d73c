/-!
# Identifiers and quoted names

Names in code: an identifier stands as it is, any other name in double quotes.

Specification (`SPEC_FULL.md`, part II): section 3, legal identifiers.

Contents:

* `isIdentifier`: the names that are identifiers.
* `quoted`: a name between double quotes.
-/

namespace DataContract.Text

/-- A letter of ASCII or an underscore. -/
def isIdentifierStart (c : Char) : Bool := c.isAlpha || c == '_'

/-- A letter or digit of ASCII or an underscore. -/
def isIdentifierChar (c : Char) : Bool := c.isAlphanum || c == '_'

/-- The name begins with a letter or an underscore and goes on with letters, digits and underscores,
all of ASCII (section 3, `is_valid_identifier`). -/
def isIdentifier (name : String) : Bool :=
  match name.toList with
  | [] => false
  | c :: rest => isIdentifierStart c && rest.all isIdentifierChar

/-- A character between double quotes: a backslash stands before a quote or a backslash. -/
def escapeQuoted (c : Char) : List Char := if c = '"' ∨ c = '\\' then ['\\', c] else [c]

/-- The text with a backslash before every quote and every backslash. -/
def escaped (text : String) : String := String.ofList (text.toList.flatMap escapeQuoted)

/-- The text between double quotes. -/
def quoted (text : String) : String := "\"" ++ escaped text ++ "\""

end DataContract.Text
