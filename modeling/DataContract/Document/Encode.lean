import DataContract.Document.Basic
import DataContract.Json.Basic

/-!
# Writing service documents

A document as a JSON value.  Every field is written, in the order of the declaration; a type
declaration begins with its kind, and type expressions are written in their canonical text.

Specification (`SPEC_FULL.md`, part II): section 10.4, serialization.

Contents:

* `Document.encode`: the value of a document.
-/

namespace DataContract

/-- The canonical text of a type expression as a value. -/
def TypeExpr.encode (type : TypeExpr) : Json := .string type.render

/-- A member of an enumeration as a value. -/
def EnumMember.encode (m : EnumMember) : Json :=
  .object [("name", .string m.name), ("value", .ofInt m.value)]

/-- A property as a value. -/
def DeclaredProperty.encode (p : DeclaredProperty) : Json :=
  .object [("name", .string p.name), ("type", p.type.encode),
    ("json_name", .ofString? p.jsonName), ("json_ignore", .bool p.jsonIgnore),
    ("type_override", .ofString? p.typeOverride), ("reviver", .ofString? p.reviver)]

/-- A type declaration as a value. -/
def DeclaredType.encode : DeclaredType → Json
  | .object d =>
    .object [("kind", .string "object"), ("name_override", .ofString? d.nameOverride),
      ("generic_params", .array (d.genericParams.map .string)),
      ("base", d.base.elim .null TypeExpr.encode),
      ("interfaces", .array (d.interfaces.map TypeExpr.encode)),
      ("known_inheritors", .array (d.knownInheritors.map TypeExpr.encode)),
      ("properties", .array (d.properties.map DeclaredProperty.encode))]
  | .enum d =>
    .object [("kind", .string "enum"), ("name_override", .ofString? d.nameOverride),
      ("members", .array (d.members.map EnumMember.encode))]

/-- A parameter of an operation as a value. -/
def DeclaredParameter.encode (p : DeclaredParameter) : Json :=
  .object [("name", .string p.name), ("type", p.type.encode), ("source", .string p.source.word),
    ("optional", .bool p.optional), ("binder", .bool p.binder)]

/-- An operation as a value. -/
def DeclaredOperation.encode (o : DeclaredOperation) : Json :=
  .object [("controller", .string o.controller), ("action", .ofString? o.action),
    ("method", .string o.method.word), ("route", .string o.route),
    ("route_prefix", .ofString? o.routePrefix),
    ("params", .array (o.params.map DeclaredParameter.encode)),
    ("response", o.response.encode), ("description", .ofString? o.description)]

/-- A parameter of a method as a value. -/
def DeclaredMethodParameter.encode (p : DeclaredMethodParameter) : Json :=
  .object [("name", .string p.name), ("type", p.type.encode)]

/-- A method as a value. -/
def DeclaredMethod.encode (m : DeclaredMethod) : Json :=
  .object [("name", .string m.name),
    ("params", .array (m.params.map DeclaredMethodParameter.encode)),
    ("returns", m.returns.encode)]

/-- An interface as a value. -/
def DeclaredInterface.encode (i : DeclaredInterface) : Json :=
  .object [("name", .string i.name), ("role", .string i.role.word),
    ("methods", .array (i.methods.map DeclaredMethod.encode))]

/-- A document as a value. -/
def Document.encode (d : Document) : Json :=
  .object [("types", .object (d.types.map fun (name, decl) => (name, decl.encode))),
    ("operations", .array (d.operations.map DeclaredOperation.encode)),
    ("interfaces", .array (d.interfaces.map DeclaredInterface.encode))]

end DataContract
