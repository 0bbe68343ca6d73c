import DataContract.Text.Search
import DataContract.TypeExpr.Basic

/-!
# Built-in types

What a type expression says on its own, before any declaration is looked at: scalars, nullables,
sequences and maps are known by their names.  A built-in name has no namespace or lies in
`System`.

Specification (`SPEC_FULL.md`, part II): section 4.1, what the Type Shape Resolver unwraps and
maps, and section 4.2 for the types that are never added.

Contents:

* `Scalar`: the built-in scalars.
* `TypeExpr.Form`, `TypeExpr.form`: the outermost form of a type expression.
* `shortName`: a name without namespace and arity.
* `TypeExpr.components`: the types within an expression that are not built in.
-/

namespace DataContract

/-- A scalar of the model. -/
inductive Scalar where
  | void
  | string
  | number
  | boolean
  | date
  | any
  deriving DecidableEq, Inhabited, Repr

/-- The word for a scalar. -/
def Scalar.word : Scalar → String
  | .void => "void"
  | .string => "string"
  | .number => "number"
  | .boolean => "boolean"
  | .date => "date"
  | .any => "any"

/-! ## Names -/

/-- The containers of items. -/
def sequenceNames : List String :=
  ["IEnumerable", "ICollection", "IList", "ISet", "List", "HashSet", "IReadOnlyList",
    "IReadOnlyCollection"]

/-- The containers of values under keys. -/
def mapNames : List String := ["IDictionary", "Dictionary", "IReadOnlyDictionary"]

/-- The numbers. -/
def numericNames : List String :=
  ["byte", "sbyte", "short", "ushort", "int", "uint", "long", "ulong", "float", "double",
    "decimal", "Byte", "SByte", "Int16", "UInt16", "Int32", "UInt32", "Int64", "UInt64", "Single",
    "Double", "Decimal"]

/-- The texts. -/
def stringNames : List String :=
  ["string", "String", "char", "Char", "Guid", "TimeSpan", "Uri"]

/-- The dates. -/
def dateNames : List String := ["DateTime", "DateTimeOffset", "DateOnly"]

/-- What may be any value. -/
def anyNames : List String := ["object", "Object", "dynamic"]

/-- The scalar of a built-in name (section 4.1, `scalar_kind`). -/
def Scalar.ofName? (name : String) : Option Scalar :=
  if name = "void" ∨ name = "Void" then some .void
  else if name ∈ stringNames then some .string
  else if name = "bool" ∨ name = "Boolean" then some .boolean
  else if name ∈ dateNames then some .date
  else if name ∈ anyNames then some .any
  else if name ∈ numericNames then some .number
  else none

/-- The namespace of the built-in types, with the dot behind it. -/
def systemNamespace : String := "System."

/-- The name without namespace of a type that lies in none or in the one of the built-in types
(`builtin_name`). -/
def systemName? (name : String) : Option String :=
  if '.' ∉ name.toList then some name
  else if systemNamespace.toList.isPrefixOf name.toList then
    some (String.ofList (Text.afterLast '.' name.toList))
  else none

/-- The name without namespace and arity (`simple_name`): what stands behind the last dot and before
a backtick. -/
def shortName (name : String) : String :=
  String.ofList (Text.beforeFirst '\x60' (Text.afterLast '.' name.toList))

/-! ## Forms -/

/-- The outermost form of a type expression. -/
inductive TypeExpr.Form where
  | void
  | scalar (kind : Scalar) (numeric : Bool)
  | nullable (inner : TypeExpr)
  | sequence (element : TypeExpr)
  | map (key value : TypeExpr)
  /-- Not built in. -/
  | declared
  deriving DecidableEq, Repr

namespace TypeExpr

/-- The item of which an array is written as a text. -/
def isByte : TypeExpr → Bool
  | .named name [] => systemName? name == some "byte" || systemName? name == some "Byte"
  | _ => false

/-- The form of a built-in name with arguments. -/
def builtinForm (builtin : String) : List TypeExpr → Form
  | [] =>
    match Scalar.ofName? builtin with
    | some kind => .scalar kind (builtin ∈ numericNames)
    | none => .declared
  | [inner] =>
    if builtin = "Nullable" then .nullable inner
    else if builtin ∈ sequenceNames then .sequence inner
    else .declared
  | [key, value] => if builtin ∈ mapNames then .map key value else .declared
  | _ => .declared

/-- The outermost form of an expression, which section 4.1 unwraps (`classify`). -/
def form : TypeExpr → Form
  | .void => .void
  | .array element => if element.isByte then .scalar .string false else .sequence element
  | .named name args =>
    match systemName? name with
    | none => .declared
    | some builtin => builtinForm builtin args

/-! ## What a form wraps is smaller -/

mutual

/-- The number of names, arrays and voids in an expression. -/
def size : TypeExpr → Nat
  | .void => 1
  | .array element => element.size + 1
  | .named _ args => sizes args + 1

/-- The size of several expressions. -/
def sizes : List TypeExpr → Nat
  | [] => 0
  | arg :: args => arg.size + sizes args

end

theorem size_pos (t : TypeExpr) : 0 < t.size := by
  cases t <;> simp [size]

/-- The expressions that a form wraps. -/
def Form.inner : Form → List TypeExpr
  | .nullable inner | .sequence inner => [inner]
  | .map key value => [key, value]
  | .void | .scalar _ _ | .declared => []

theorem size_lt_of_mem_inner {t u : TypeExpr} (h : u ∈ t.form.inner) : u.size < t.size := by
  cases t with
  | void => simp [form, Form.inner] at h
  | array element =>
    rw [form] at h
    split at h <;> simp_all [Form.inner, size]
  | named name args =>
    rw [form] at h
    split at h
    · simp [Form.inner] at h
    · unfold builtinForm at h
      split at h
      · split at h <;> simp [Form.inner] at h
      · split at h
        · simp_all [Form.inner, size, sizes]
        · split at h <;> simp_all [Form.inner, size, sizes]
      · split at h
        · rename_i key value _
          have := size_pos key
          have := size_pos value
          simp only [Form.inner, List.mem_cons, List.not_mem_nil, or_false] at h
          rcases h with rfl | rfl <;> simp only [size, sizes] <;> omega
        · simp [Form.inner] at h
      · simp [Form.inner] at h

/-! ## Components -/

/-- The types in an expression that are not built in, found by unwrapping nullables, sequences
and the keys and values of maps (section 4.2). -/
def components (t : TypeExpr) : List TypeExpr :=
  match _h : t.form with
  | .void | .scalar _ _ => []
  | .nullable inner | .sequence inner => inner.components
  | .map key value => key.components ++ value.components
  | .declared => [t]
termination_by t.size
decreasing_by all_goals exact size_lt_of_mem_inner (by simp [_h, Form.inner])

end TypeExpr

end DataContract
