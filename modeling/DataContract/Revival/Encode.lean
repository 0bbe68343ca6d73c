import DataContract.Json.Basic
import DataContract.Revival.Basic

/-!
# Revival expressions as JSON

An expression is an object that names its operation in the member `op`.

Specification (`SPEC_FULL.md`, part II): section 6, the output, and section 10.4.

Contents:

* `Revival.encode`: the value of an expression.
* `Revival.encode?`: the value of an expression that may be missing.
-/

namespace DataContract.Revival

mutual

/-- The value of an expression. -/
def encode : Revival → Json
  | .value name => .object [("op", .string "value"), ("name", .string name)]
  | .member object property =>
    .object [("op", .string "member"), ("object", object.encode), ("property", .string property)]
  | .mapArray source param body =>
    .object [("op", .string "map_array"), ("source", source.encode), ("param", .string param),
      ("body", body.encode)]
  | .mapValues source param body =>
    .object [("op", .string "map_values"), ("source", source.encode), ("param", .string param),
      ("body", body.encode)]
  | .construct className arg =>
    .object [("op", .string "construct"), ("class", .string className), ("value", arg.encode)]
  | .enumLookup enumeration arg =>
    .object [("op", .string "enum_lookup"), ("enumeration", .string enumeration),
      ("value", arg.encode)]
  | .date arg => .object [("op", .string "date"), ("value", arg.encode)]
  | .custom script arg =>
    .object [("op", .string "custom"), ("script", .string script), ("value", arg.encode)]
  | .inlineObject className arg fields =>
    .object [("op", .string "inline_object"), ("class", .string className), ("value", arg.encode),
      ("fields", .array (encodeFields fields))]
  | .recursion className =>
    .object [("op", .string "recursion_detected"), ("class", .string className)]

/-- The values of the fields of an object. -/
def encodeFields : List (String × Option Revival) → List Json
  | [] => []
  | (name, none) :: fields =>
    .object [("name", .string name), ("revive", .null)] :: encodeFields fields
  | (name, some revival) :: fields =>
    .object [("name", .string name), ("revive", revival.encode)] :: encodeFields fields

end

/-- The value of an expression, null for none. -/
def encode? (revival : Option Revival) : Json := revival.elim .null encode

end DataContract.Revival
