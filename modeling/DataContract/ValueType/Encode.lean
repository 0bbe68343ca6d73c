import DataContract.Json.Basic
import DataContract.ValueType.Basic

/-!
# Value types as JSON

Specification (`SPEC_FULL.md`, part II): section 6, the output, and section 10.4.

Contents:

* `ValueType.encode`, `ValueShape.encode`: a type and its shape as JSON values.
-/

namespace DataContract

mutual

/-- A type as a JSON value. -/
def ValueType.encode : ValueType → Json
  | ⟨name, shape, optional, userDefined⟩ =>
    .object [("name", .string name), ("shape", shape.encode), ("optional", .bool optional),
      ("user_defined", .bool userDefined)]

/-- A shape as a JSON value, which names its kind in the member `kind`. -/
def ValueShape.encode : ValueShape → Json
  | .scalar kind => .object [("kind", .string "scalar"), ("scalar", .string kind.word)]
  | .object => .object [("kind", .string "object")]
  | .enum => .object [("kind", .string "enum")]
  | .arrayOf element => .object [("kind", .string "array_of"), ("element", element.encode)]
  | .dictionary key value =>
    .object [("kind", .string "dictionary"), ("key", .string key.word), ("value", value.encode)]
  | .dictionaryOfArrays key element =>
    .object [("kind", .string "dictionary_of_arrays"), ("key", .string key.word),
      ("element", element.encode)]

end

end DataContract
