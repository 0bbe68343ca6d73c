import DataContract.Discovery.Table
import DataContract.Naming.Natural
import DataContract.Naming.Order
import DataContract.Naming.Unique
import DataContract.Text.Identifier

/-!
# Naming the discovered types

Every discovered type gets a name of its own, and becomes a class or an enumeration.

A class inherits from its base type or, without one, from its first interface, if that is a
discovered object type.  It declares the properties that its superclass does not list; of several
with one name in serialized form only the first.

Specification (`SPEC_FULL.md`, part II): section 4.3, `assign_names`, and section 3 for the
properties that are not repeated.

Contents:

* `Table.names`: the names of the discovered types.
* `Table.classes`, `Table.enums`: the declarations in the order of discovery.
* `Table.declarations`: the declarations in their final order.
-/

namespace DataContract

/-- The kind of a described type. -/
def Description.assignedKind (d : Description) : AssignedKind := if d.isEnum then .enum else .object

/-- The type whose class is the superclass, as far as it is discovered (section 4.3). -/
def DescribedObject.parent? (o : DescribedObject) : Option TypeExpr :=
  o.base.orElse fun _ => o.interfaces.head?

/-- An enumeration's members in the model. -/
def modelMembers (members : List EnumMember) : List EnumMember :=
  (members.filter fun m => Text.isIdentifier m.name).mergeSort fun a b => a.value ≤ b.value

namespace Table

/-! ## Names -/

/-- The names of the discovered types, collisions resolved in the order of discovery
(section 4.3). -/
def names (table : Table) : NameTable :=
  (table.zip (uniqueNames [] (table.map (·.description.naturalName)))).map fun (entry, name) =>
    (entry.identity, { name, kind := entry.description.assignedKind })

/-! ## Declarations -/

/-- The discovered object type from which a type inherits, with the name of its class. -/
def parent? (table : Table) (names : NameTable) (o : DescribedObject) :
    Option (String × DescribedObject) := do
  let identity := (← o.parent?).render
  let named ← names.lookup identity
  guard (named.kind = .object)
  let entry ← table.entry? identity
  return (named.name, ← entry.description.object?)

/-- The properties that are declared, `taken` being the names in serialized form that are taken. -/
def declaredProperties (names : NameTable) (inherited : String → Bool) (taken : List String) :
    List DescribedProperty → List ModelProperty
  | [] => []
  | p :: rest =>
    if inherited p.name || p.serializedName ∈ taken then
      declaredProperties names inherited taken rest
    else
      { name := p.serializedName, type := names.resolve p.type p.typeOverride,
        customReviver := p.customReviver, revival := none } ::
        declaredProperties names inherited (p.serializedName :: taken) rest

/-- The class of an object type. -/
def classOf (table : Table) (names : NameTable) (name identity : String) (o : DescribedObject) :
    ModelClass :=
  let parent := table.parent? names o
  let inherited := fun property => parent.any fun (_, p) => p.lists property
  { name, superclass := parent.map (·.1)
    properties := declaredProperties names inherited [] o.properties
    identity }

/-- The discovered types with their names. -/
def named (table : Table) : List (Entry × String) :=
  table.zip (table.names.map (·.2.name))

/-- The classes in the order of discovery. -/
def classes (table : Table) : List ModelClass :=
  let names := table.names
  table.named.filterMap fun (entry, name) =>
    entry.description.object?.map (table.classOf names name entry.identity)

/-- The enumerations in the order of discovery. -/
def enums (table : Table) : List ModelEnum :=
  table.named.filterMap fun (entry, name) =>
    match entry.description.kind with
    | .enum members =>
      some { name, members := modelMembers members, identity := entry.identity }
    | .object _ => none

/-- The declarations of all discovered types: enumerations by name, classes in the order of
declaration (section 4.3, `assign_names`). -/
def declarations (table : Table) : ModelTypes :=
  { enums := table.enums.mergeSort fun a b => a.name ≤ b.name
    classes := declarationOrder table.classes
    names := table.names }

end Table

end DataContract
