import DataContract.Json.Basic

/-!
# Writing JSON

The text of a value, on one line or indented by two spaces a level.  Members are written in the
order in which the object lists them; characters outside ASCII stand as they are.

Specification (`SPEC_FULL.md`, part II): section 10.4, the JSON that is written.

Contents:

* `Json.quote`: a text as a string literal.
* `Json.compact`: the text without any blank.
* `Json.indented`: the text with one item or member a line.
-/

namespace DataContract.Json

/-! ## String literals -/

/-- A hexadecimal digit in lower case. -/
def hexDigit (n : Nat) : Char := Nat.digitChar (n % 16)

/-- A character within a string literal. -/
def escapeChar (c : Char) : List Char :=
  if c = '"' then ['\\', '"']
  else if c = '\\' then ['\\', '\\']
  else if c = '\x08' then ['\\', 'b']
  else if c = '\x0c' then ['\\', 'f']
  else if c = '\n' then ['\\', 'n']
  else if c = '\r' then ['\\', 'r']
  else if c = '\t' then ['\\', 't']
  else if c.toNat < 0x20 then ['\\', 'u', '0', '0', hexDigit (c.toNat / 16), hexDigit c.toNat]
  else [c]

/-- The string literal of a text. -/
def quote (text : String) : String :=
  "\"" ++ String.ofList (text.toList.flatMap escapeChar) ++ "\""

/-! ## On one line -/

mutual

/-- The text without any blank. -/
def compact : Json → String
  | .null => "null"
  | .bool value => if value then "true" else "false"
  | .number value => value.render
  | .string value => quote value
  | .array items => "[" ++ ",".intercalate (compactItems items) ++ "]"
  | .object members => "\x7b" ++ ",".intercalate (compactMembers members) ++ "\x7d"

/-- The texts of the items. -/
def compactItems : List Json → List String
  | [] => []
  | item :: items => item.compact :: compactItems items

/-- The texts of the members. -/
def compactMembers : List (String × Json) → List String
  | [] => []
  | (name, value) :: members => (quote name ++ ":" ++ value.compact) :: compactMembers members

end

/-! ## Indented -/

/-- The beginning of a line at a level of indentation. -/
def lineStart (level : Nat) : String := "\n" ++ String.ofList (List.replicate (2 * level) ' ')

/-- Entries on lines of their own between brackets that stand at a level of indentation. -/
def onLines (opening closing : String) (level : Nat) (entries : List String) : String :=
  if entries.isEmpty then opening ++ closing
  else
    opening ++ lineStart (level + 1) ++ ("," ++ lineStart (level + 1)).intercalate entries ++
      lineStart level ++ closing

mutual

/-- The indented text of a value that begins at a level of indentation. -/
def indentedAt (level : Nat) : Json → String
  | .array items => onLines "[" "]" level (indentedItems (level + 1) items)
  | .object members => onLines "\x7b" "\x7d" level (indentedMembers (level + 1) members)
  | .null => "null"
  | .bool value => if value then "true" else "false"
  | .number value => value.render
  | .string value => quote value

/-- The indented texts of the items. -/
def indentedItems (level : Nat) : List Json → List String
  | [] => []
  | item :: items => item.indentedAt level :: indentedItems level items

/-- The indented texts of the members. -/
def indentedMembers (level : Nat) : List (String × Json) → List String
  | [] => []
  | (name, value) :: members =>
    (quote name ++ ": " ++ value.indentedAt level) :: indentedMembers level members

end

/-- The text with one item or member a line. -/
def indented (value : Json) : String := value.indentedAt 0

end DataContract.Json
