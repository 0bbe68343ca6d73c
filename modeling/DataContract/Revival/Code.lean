import DataContract.Revival.Basic
import DataContract.Text.Blank
import DataContract.Text.Identifier
import DataContract.Text.Search

/-!
# The text of revival expressions

Revival expressions as TypeScript.

Specification (`SPEC_FULL.md`, part II): section 4.7, `Emit`.

Contents:

* `Revival.code`: the text of an expression.
-/

namespace DataContract

/-- Replaces every occurrence of a text. -/
def replaceText (pattern replacement text : String) : String :=
  String.ofList (Text.replaceAll pattern.toList replacement.toList text.toList)

/-- The script that is called with a value (`emit_custom`).  One of several lines becomes the body
of a function; a value that is no name is put in parentheses. -/
def scriptCall (script value : String) : String :=
  if '\n' ∈ script.toList then
    let body := String.ofList (Text.trimEnd (replaceText "$x" "x" script).toList)
    "((x) => \x7b\n" ++ body ++ "\n\x7d)(" ++ value ++ ")"
  else if Text.isIdentifier value then replaceText "$x" value script
  else replaceText "$x" ("(" ++ value ++ ")") script

/-- The access to a member. -/
def memberAccess (object property : String) : String :=
  if Text.isIdentifier property then object ++ "." ++ property
  else object ++ "[" ++ Text.quoted property ++ "]"

/-- The name of a field (`property_key`). -/
def fieldKey (name : String) : String := if Text.isIdentifier name then name else Text.quoted name

/-- The value itself if it is null, else what is made of it. -/
def unlessNull (value made : String) : String :=
  "(" ++ value ++ " == null ? " ++ value ++ " : " ++ made ++ ")"

namespace Revival

mutual

/-- The text of an expression (section 4.7, `Emit`). -/
def code : Revival → String
  | .value name => name
  | .member object property => memberAccess object.code property
  | .mapArray source param body =>
    let source := source.code
    unlessNull source (source ++ ".map((" ++ param ++ ") => " ++ body.code ++ ")")
  | .mapValues source param body =>
    let source := source.code
    unlessNull source ("Object.fromEntries(Object.entries(" ++ source ++ ").map(([k, " ++ param ++
      "]) => [k, " ++ body.code ++ "]))")
  | .construct className input =>
    let input := input.code
    unlessNull input ("new " ++ className ++ "(" ++ input ++ ")")
  | .enumLookup enumeration input =>
    let input := input.code
    "(typeof " ++ input ++ " === \"number\" ? " ++ input ++ " : " ++ enumeration ++ "[" ++ input ++
      " as keyof typeof " ++ enumeration ++ "])"
  | .date input =>
    let input := input.code
    "(" ++ input ++ " ? new Date(" ++ input ++ ") : null)"
  | .custom script input => scriptCall script input.code
  | .inlineObject _ input fields =>
    let input := input.code
    let entries := ("..." ++ input) :: fieldCodes fields
    unlessNull input ("\x7b " ++ ", ".intercalate entries ++ " \x7d")
  | .recursion className => "null /* recursion detected: " ++ className ++ " */"

/-- The texts of the fields that have an expression. -/
def fieldCodes : List (String × Option Revival) → List String
  | [] => []
  | (_, none) :: fields => fieldCodes fields
  | (name, some revival) :: fields =>
    (fieldKey name ++ ": " ++ revival.code) :: fieldCodes fields

end

end Revival

end DataContract
