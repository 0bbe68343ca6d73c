import DataContract.Catalog.Basic
import DataContract.TypeExpr.Form

/-!
# Describing declared types

The catalog of a document.  A described object lists its own properties and then, up the chain of
its base types, each property whose name has not been listed.  The chain ends where a base is
missing or not described as an object, and also behind an instantiation that is met again.

A chain whose arguments grow without end does not end.  Nothing bounds a chain beforehand, so a
type is described only when its chain ends.

Specification (`SPEC_FULL.md`, part II): section 4.0, `describe` for a service document.

Contents:

* `Document.object?`: the declaration of the object type that an expression names.
* `Document.ownProperties`, `Document.base?`: what such a type declares, and what it is based on.
* `Document.listed?`: the properties of a type with those of its base types.
* `Document.catalogOf`: describes types, given how properties are listed.
* `Document.catalog`: the catalog of a document.
-/

namespace DataContract

/-- Adds the properties whose names are not listed. -/
def addInherited (own inherited : List DescribedProperty) : List DescribedProperty :=
  inherited.foldl (fun all p => if all.any (·.name == p.name) then all else all ++ [p]) own

/-- The serialized properties of a declaration with all arguments filled in. -/
def DeclaredObject.ownProperties (decl : DeclaredObject) (args : List TypeExpr) :
    List DescribedProperty :=
  (decl.properties.filter (!·.jsonIgnore)).map fun p =>
    { name := p.name, type := p.type.substitute decl.genericParams args, jsonName := p.jsonName,
      typeOverride := p.typeOverride, customReviver := p.reviver }

namespace Document

/-- The declaration of the object type that an expression names, with the arguments: as many as the
declaration has parameters. -/
def object? (document : Document) : TypeExpr → Option (DeclaredObject × List TypeExpr)
  | .named name args =>
    match document.type? name with
    | some (.object decl) =>
      if decl.genericParams.length = args.length then some (decl, args) else none
    | some (.enum _) | none => none
  | .void | .array _ => none

/-- The serialized properties that the object type itself declares. -/
def ownProperties (document : Document) (t : TypeExpr) : List DescribedProperty :=
  match document.object? t with
  | some (decl, args) => decl.ownProperties args
  | none => []

/-- The base type of an object type. -/
def base? (document : Document) (t : TypeExpr) : Option TypeExpr :=
  match document.object? t with
  | some (decl, args) => decl.base.map (TypeExpr.substitute decl.genericParams args)
  | none => none

/-- The properties of a type with those of its base types, none if that has no end.  `visited` are
the instantiations from which the chain of base types has come here.  Section 4.0 merges inherited
properties from the base chain (`describe_with`). -/
def listed? (document : Document) (visited : List String) (t : TypeExpr) :
    Option (List DescribedProperty) :=
  match document.base? t with
  | none => some (document.ownProperties t)
  | some base =>
    if t.render ∈ visited then some (document.ownProperties t)
    else do
      -- elaborated apart from its arguments, the function leaves no source position in the term
      let inherited ← (by exact document.listed? :
        List String → TypeExpr → Option (List DescribedProperty)) (t.render :: visited) base
      return addInherited (document.ownProperties t) inherited
partial_fixpoint

/-- Describes a type, given how the properties of object types are listed. -/
def catalogOf (document : Document) (listed : TypeExpr → Option (List DescribedProperty)) :
    Catalog := fun name args =>
  let identity := (TypeExpr.named name args).render
  match document.type? name with
  | none => none
  | some (.enum decl) =>
    if args.isEmpty then
      some { identity, shortName := shortName name, nameOverride := decl.nameOverride,
             genericArgs := [], kind := .enum decl.members }
    else none
  | some (.object decl) =>
    if decl.genericParams.length = args.length then
      let instantiate := TypeExpr.substitute decl.genericParams args
      (listed (.named name args)).map fun properties =>
        { identity, shortName := shortName name, nameOverride := decl.nameOverride,
          genericArgs := args
          kind := .object
            { properties
              base := decl.base.map instantiate
              interfaces := decl.interfaces.map instantiate
              knownInheritors := decl.knownInheritors.map instantiate } }
    else none

/-- The catalog of a document (section 4.0, `describe`). -/
def catalog (document : Document) : Catalog := document.catalogOf (document.listed? [])

end Document

end DataContract
