import DataContract.TypeExpr.Form

/-!
# Value types

The type of a value as the model shows it: what a type expression means once every discovered
type has its name.

Specification (`SPEC_FULL.md`, part II): section 3, Type Spec.

Contents:

* `ValueType`, `ValueShape`: the type of a value and its shape.
* `ValueType.withName`: another name for the innermost element.
* `ValueType.render`: the type annotation in TypeScript.
-/

namespace DataContract

/-- How the keys of a dictionary are represented. -/
inductive KeyKind where
  | numeric
  | string
  deriving DecidableEq, Inhabited, Repr

/-- The word for a kind of keys. -/
def KeyKind.word : KeyKind → String
  | .numeric => "numeric"
  | .string => "string"

mutual

/-- The type of a value (section 3, Type Spec). -/
structure ValueType where
  /-- The name of the innermost element. -/
  name : String
  shape : ValueShape
  /-- The type is nullable. -/
  optional : Bool
  /-- The innermost element is a discovered type. -/
  userDefined : Bool
  deriving DecidableEq, Repr

/-- The shape of a type. -/
inductive ValueShape where
  | scalar (kind : Scalar)
  | object
  | enum
  | arrayOf (element : ValueType)
  | dictionary (key : KeyKind) (value : ValueType)
  /-- A dictionary of which each value is an array of `element`. -/
  | dictionaryOfArrays (key : KeyKind) (element : ValueType)
  deriving DecidableEq, Repr

end

namespace ValueType

/-- The type of a scalar. -/
def scalar (kind : Scalar) : ValueType :=
  { name := kind.word, shape := .scalar kind, optional := false, userDefined := false }

/-- The type of no value. -/
def void : ValueType := scalar .void

/-- The type of any value. -/
def any : ValueType := scalar .any

instance : Inhabited ValueType := ⟨void⟩

/-! ## Shapes -/

/-- The type is void. -/
def isVoid (s : ValueType) : Bool := s.shape == .scalar .void

/-- The type is a date. -/
def isDate (s : ValueType) : Bool := s.shape == .scalar .date

/-- The type is an enumeration. -/
def isEnum (s : ValueType) : Bool := s.shape == .enum

/-- The type is an object. -/
def isObject (s : ValueType) : Bool := s.shape == .object

/-- The type is an array. -/
def isArray (s : ValueType) : Bool :=
  match s.shape with
  | .arrayOf _ => true
  | _ => false

/-- How the keys are represented, for a dictionary. -/
def keyKind? (s : ValueType) : Option KeyKind :=
  match s.shape with
  | .dictionary key _ | .dictionaryOfArrays key _ => some key
  | _ => none

end ValueType

/-! ## Renaming -/

mutual

/-- The type with another name for the innermost element (`rename`). -/
def ValueType.withName (name : String) : ValueType → ValueType
  | ⟨_, shape, optional, userDefined⟩ => ⟨name, shape.withName name, optional, userDefined⟩

/-- The shape with another name for the innermost element. -/
def ValueShape.withName (name : String) : ValueShape → ValueShape
  | .arrayOf element => .arrayOf (element.withName name)
  | .dictionary key value => .dictionary key (value.withName name)
  | .dictionaryOfArrays key element => .dictionaryOfArrays key (element.withName name)
  | .scalar kind => .scalar kind
  | .object => .object
  | .enum => .enum

end

/-! ## Type annotations -/

/-- The annotation of a scalar. -/
def Scalar.render : Scalar → String
  | .date => "Date"
  | kind => kind.word

/-- The annotation of a dictionary's keys. -/
def KeyKind.render : KeyKind → String
  | .numeric => "number"
  | .string => "string"

/-- The annotation of an array.  Behind a dictionary the brackets of an array would be hard to
find. -/
def arrayText (ofDictionary : Bool) (element : String) : String :=
  if ofDictionary then "Array<" ++ element ++ ">" else element ++ "[]"

/-- The annotation of a dictionary. -/
def dictionaryText (key : KeyKind) (value : String) : String :=
  "\x7b [key: " ++ key.render ++ "]: " ++ value ++ " \x7d"

mutual

/-- The annotation of a type. -/
def ValueType.render : ValueType → String
  | ⟨name, shape, _, _⟩ => shape.render name

/-- The annotation of a type of this shape with this name of the innermost element. -/
def ValueShape.render (name : String) : ValueShape → String
  | .scalar kind => kind.render
  | .object => name
  | .enum => name
  | .arrayOf element => arrayText element.keyKind?.isSome element.render
  | .dictionary key value => dictionaryText key value.render
  | .dictionaryOfArrays key element =>
    dictionaryText key (arrayText element.keyKind?.isSome element.render)

end

end DataContract
