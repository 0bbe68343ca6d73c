import DataContract.Catalog.Basic
import DataContract.TypeExpr.Form

/-!
# Natural names

The name that a discovered type would have if no other type had it: `Page`, `Page_of_Item`,
`Pair_of_int_and_Item`.

Specification (`SPEC_FULL.md`, part II): section 4.3, the friendly name.

Contents:

* `TypeExpr.nameAsArgument`: the name of a generic argument.
* `Description.naturalName`: the name of a type.
-/

namespace DataContract

/-- A name with the names of its arguments. -/
def nameOfArguments (name : String) (args : List String) : String :=
  name ++ "_of_" ++ "_and_".intercalate args

namespace TypeExpr

mutual

/-- The name of a generic argument (`argument_name`).  Arrays go by the name of their items. -/
def nameAsArgument : TypeExpr → String
  | .void => "void"
  | .array element => element.nameAsArgument
  | .named name [] => shortName name
  | .named name (arg :: args) =>
    nameOfArguments (shortName name) (arg.nameAsArgument :: namesAsArguments args)

/-- The names of generic arguments. -/
def namesAsArguments : List TypeExpr → List String
  | [] => []
  | arg :: args => arg.nameAsArgument :: namesAsArguments args

end

end TypeExpr

/-- The name of a type: the one given for it, or its short name with the names of its arguments
(section 4.3, `friendly_name`). -/
def Description.naturalName (d : Description) : String :=
  match d.nameOverride, d.genericArgs with
  | some name, _ => name
  | none, [] => d.shortName
  | none, args => nameOfArguments d.shortName (TypeExpr.namesAsArguments args)

end DataContract
