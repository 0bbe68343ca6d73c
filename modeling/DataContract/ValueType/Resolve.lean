import DataContract.ValueType.Basic

/-!
# Resolving type expressions

The value type of a type expression, given the names of the discovered types.  Built-in
structure is unwrapped layer by layer; a type that is not built in is looked up by its identity,
and one that has no name may be any value.

Specification (`SPEC_FULL.md`, part II): section 4.1, the Type Shape Resolver with `resolve`.

Contents:

* `NameTable`: the names of the discovered types.
* `TypeExpr.keyKind`: how keys of a type are represented.
* `NameTable.resolve`: the value type of a type expression.
-/

namespace DataContract

/-- The kind of a discovered type. -/
inductive AssignedKind where
  | object
  | enum
  deriving DecidableEq, Inhabited, Repr

/-- The shape of a type of this kind. -/
def AssignedKind.shape : AssignedKind → ValueShape
  | .object => .object
  | .enum => .enum

/-- The name of a discovered type. -/
structure AssignedName where
  name : String
  kind : AssignedKind
  deriving DecidableEq, Inhabited, Repr

/-- The names of the discovered types by identity, in the order of discovery. -/
abbrev NameTable := List (String × AssignedName)

/-- How keys of this type are represented (section 4.1, `key_repr`).  One layer of nullable makes no
difference. -/
def TypeExpr.keyKind (key : TypeExpr) : KeyKind :=
  let form :=
    match key.form with
    | .nullable inner => inner.form
    | form => form
  match form with
  | .scalar _ true => .numeric
  | _ => .string

namespace ValueType

/-- The same type, nullable. -/
def asOptional (s : ValueType) : ValueType := { s with optional := true }

/-- An array of such elements. -/
def arrayOf (element : ValueType) : ValueType :=
  { name := element.name, shape := .arrayOf element, optional := false,
    userDefined := element.userDefined }

/-- A dictionary of such values.  Arrays that are not nullable become part of its shape
(section 4.1, the required collapse). -/
def dictionaryOf (key : KeyKind) (value : ValueType) : ValueType :=
  let shape :=
    match value.shape, value.optional with
    | .arrayOf element, false => .dictionaryOfArrays key element
    | _, _ => .dictionary key value
  { name := value.name, shape, optional := false, userDefined := value.userDefined }

end ValueType

namespace NameTable

/-- The value type of a type that is not built in (`resolve_declared`). -/
def lookUp (names : NameTable) (type : TypeExpr) : ValueType :=
  match names.lookup type.render with
  | some named =>
    { name := named.name, shape := named.kind.shape, optional := false, userDefined := true }
  | none => .any

/-- The value type of a type expression (section 4.1, `resolve_shape`). -/
def unwrap (names : NameTable) (type : TypeExpr) : ValueType :=
  match _h : type.form with
  | .void => .void
  | .scalar kind _ => .scalar kind
  | .nullable inner => (names.unwrap inner).asOptional
  | .sequence element => (names.unwrap element).arrayOf
  | .map key value => (names.unwrap value).dictionaryOf key.keyKind
  | .declared => names.lookUp type
termination_by type.size
decreasing_by
  all_goals exact TypeExpr.size_lt_of_mem_inner (by simp [_h, TypeExpr.Form.inner])

/-- The value type of a type expression (section 4.1, `resolve`).  A name given takes the place of
the one found. -/
def resolve (names : NameTable) (type : TypeExpr) (override : Option String) : ValueType :=
  let found := names.unwrap type
  override.elim found found.withName

end NameTable

end DataContract
