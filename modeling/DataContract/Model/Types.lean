import DataContract.Document.Basic
import DataContract.Revival.Basic
import DataContract.ValueType.Resolve

/-!
# Types of the model

The classes and enumerations of a model.

Specification (`SPEC_FULL.md`, part II): section 3, Compiled Class Spec and Compiled Enum Spec.

Contents:

* `ModelEnum`, `ModelClass`, `ModelProperty`: declarations.
* `ModelTypes`: all declarations of a model with the names that they were given.
* `ModelTypes.propertiesOf`: the properties of a class with the inherited ones.
-/

namespace DataContract

/-- An enumeration (section 3, Compiled Enum Spec). -/
structure ModelEnum where
  name : String
  /-- The members in ascending order of their values, those only whose names are identifiers. -/
  members : List EnumMember
  /-- The identity of the type. -/
  identity : String
  deriving DecidableEq, Inhabited, Repr

/-- A property of a class. -/
structure ModelProperty where
  /-- The name in serialized form. -/
  name : String
  type : ValueType
  /-- The script that takes the place of the innermost step of the revival. -/
  customReviver : Option String
  /-- The revival of the property of `data`. -/
  revival : Option Revival
  deriving Inhabited, Repr

/-- A class (section 3, Compiled Class Spec). -/
structure ModelClass where
  name : String
  /-- The name of a class that is declared before this one. -/
  superclass : Option String
  /-- The properties that are not inherited. -/
  properties : List ModelProperty
  /-- The identity of the type. -/
  identity : String
  deriving Inhabited, Repr

/-- The first property of that name. -/
def ModelClass.property? (c : ModelClass) (name : String) : Option ModelProperty :=
  c.properties.find? (·.name == name)

/-- The declarations of a model. -/
structure ModelTypes where
  enums : List ModelEnum
  classes : List ModelClass
  /-- The names of the discovered types. -/
  names : NameTable
  deriving Inhabited, Repr

/-- The class of that name. -/
def findClass (classes : List ModelClass) (name : String) : Option ModelClass :=
  classes.find? (·.name == name)

namespace ModelTypes

/-- The class of that name. -/
def class? (types : ModelTypes) (name : String) : Option ModelClass :=
  findClass types.classes name

/-- The enumeration of that name. -/
def enum? (types : ModelTypes) (name : String) : Option ModelEnum :=
  types.enums.find? (·.name == name)

/-- The name of a discovered type. -/
def assignedName? (types : ModelTypes) (identity : String) : Option String :=
  (types.names.lookup identity).map (·.name)

/-- The position of a class in the order of declaration. -/
def position? (types : ModelTypes) (name : String) : Option Nat :=
  types.classes.findIdx? (·.name == name)

/-- A class with the classes that it inherits from, itself first, at most as many as given. -/
def chain (types : ModelTypes) : Nat → Option ModelClass → List ModelClass
  | limit + 1, some c => c :: types.chain limit (c.superclass.bind types.class?)
  | _, _ => []

/-- The properties of a class with the inherited ones, those of the furthest class first
(`all_properties`). -/
def propertiesOf (types : ModelTypes) (name : String) : List ModelProperty :=
  (types.chain (types.classes.length + 1) (types.class? name)).reverse.flatMap (·.properties)

end ModelTypes

end DataContract
