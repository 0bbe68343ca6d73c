import DataContract.Document.Basic

/-!
# Type catalogs

A catalog describes named types with all generic arguments filled in.  Whatever is compiled is
learnt from a catalog, so any source of type information can stand behind one.

Specification (`SPEC_FULL.md`, part II): section 4.0, `TypeCatalog` with its descriptors.

Contents:

* `Description`: what is known of a type.
* `Catalog`: describes types by name and arguments.
-/

namespace DataContract

/-- A property of a described type. -/
structure DescribedProperty where
  name : String
  type : TypeExpr
  /-- The name in serialized form, when it differs. -/
  jsonName : Option String
  /-- The name of the type that the model shows instead of the resolved one. -/
  typeOverride : Option String
  /-- The script that revives a value of the property. -/
  customReviver : Option String
  deriving DecidableEq, Inhabited, Repr

/-- The name of a property in serialized form. -/
def DescribedProperty.serializedName (p : DescribedProperty) : String := p.jsonName.getD p.name

/-- The structure of an object type. -/
structure DescribedObject where
  /-- The serialized properties, the type's own ones before the inherited ones. -/
  properties : List DescribedProperty
  base : Option TypeExpr
  interfaces : List TypeExpr
  /-- Types that stand in for this one. -/
  knownInheritors : List TypeExpr
  deriving DecidableEq, Inhabited, Repr

/-- The type lists a property of that name. -/
def DescribedObject.lists (o : DescribedObject) (name : String) : Bool :=
  o.properties.any (·.name == name)

/-- An object or an enumeration. -/
inductive Description.Kind where
  | object (description : DescribedObject)
  | enum (members : List EnumMember)
  deriving DecidableEq, Inhabited, Repr

/-- What is known of a type: a descriptor of section 4.0. -/
structure Description where
  /-- The canonical text of the type. -/
  identity : String
  /-- The name without namespace, arity and arguments. -/
  shortName : String
  /-- The name in the model, when it is not to be computed. -/
  nameOverride : Option String
  /-- The generic arguments. -/
  genericArgs : List TypeExpr
  kind : Description.Kind
  deriving DecidableEq, Inhabited, Repr

namespace Description

/-- The structure of an object type. -/
def object? (d : Description) : Option DescribedObject :=
  match d.kind with
  | .object o => some o
  | .enum _ => none

/-- The type is an enumeration. -/
def isEnum (d : Description) : Bool :=
  match d.kind with
  | .object _ => false
  | .enum _ => true

/-- The serialized properties, none for an enumeration. -/
def properties (d : Description) : List DescribedProperty :=
  (d.object?.map (·.properties)).getD []

/-- The types that stand in for this one. -/
def knownInheritors (d : Description) : List TypeExpr :=
  (d.object?.map (·.knownInheritors)).getD []

end Description

/-- Describes the type of a name with arguments, none for a type that is not known (section 4.0,
`TypeCatalog`). -/
abbrev Catalog := String → List TypeExpr → Option Description

/-- Describes the type that an expression names. -/
def Catalog.describe? (catalog : Catalog) : TypeExpr → Option Description
  | .named name args => catalog name args
  | .void | .array _ => none

end DataContract
