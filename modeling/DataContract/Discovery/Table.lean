import DataContract.Catalog.Describe
import DataContract.Config.Basic
import DataContract.Discovery.Reason
import DataContract.TypeExpr.Form

/-!
# Discovering types

The table of the types that a model needs.  Roots are added with everything they wrap; a type
that enters the table at once brings in its known inheritors.  Passes then follow the properties
of all types in the table, until a pass adds nothing or the greatest number of passes is reached.

Known inheritors whose arguments grow without end make an addition endless.  Nothing bounds an
addition beforehand, so it has a result only when it ends.

Specification (`SPEC_FULL.md`, part II): section 4.2, the Type Graph Builder with `add_root`
and `compile`.

Contents:

* `Table`: the discovered types in the order of their discovery.
* `Scope`: what decides which types are discovered.
* `Scope.absorb?`: adds types and their known inheritors.
* `Scope.addRoot`: adds the types that an expression wraps.
* `Scope.pass`, `Scope.passes`: follow the properties.
-/

namespace DataContract

/-! ## Tables -/

/-- A discovered type. -/
structure Entry where
  /-- The canonical text of the type. -/
  identity : String
  description : Description
  reason : Reason
  deriving DecidableEq, Inhabited, Repr

/-- The discovered types in the order of their discovery (section 3, Discovery Table). -/
abbrev Table := List Entry

/-- The discovered type of that identity. -/
def Table.entry? (table : Table) (identity : String) : Option Entry :=
  table.find? (·.identity == identity)

/-- The type has been discovered. -/
def Table.holds (table : Table) (identity : String) : Bool :=
  table.any (·.identity == identity)

/-! ## Additions -/

/-- What decides which types are discovered. -/
structure Scope where
  catalog : Catalog
  config : Config

/-- A type to be looked at, and why. -/
abbrev Candidate := TypeExpr × Reason

/-- The types that an expression wraps, for one reason (`add_type`). -/
def TypeExpr.candidates (type : TypeExpr) (reason : Reason) : List Candidate :=
  type.components.map (·, reason)

namespace Scope

variable (scope : Scope)

/-- The entry of a candidate that is not in the table yet and may enter it. -/
def newcomer? (table : Table) : Candidate → Option Entry
  | (.named name args, reason) =>
    let identity := (TypeExpr.named name args).render
    if table.holds identity || scope.config.ignores name identity then none
    else (scope.catalog name args).map fun description => { identity, description, reason }
  | (.void, _) | (.array _, _) => none

/-- The first candidate that may enter the table, and the candidates behind it. -/
def firstNewcomer? (table : Table) : List Candidate → Option (Entry × List Candidate)
  | [] => none
  | candidate :: rest =>
    match scope.newcomer? table candidate with
    | some entry => some (entry, rest)
    | none => firstNewcomer? table rest

/-- The known inheritors of a discovered type (section 4.2, explicit subtypes). -/
def inheritors (entry : Entry) : List Candidate :=
  entry.description.knownInheritors.flatMap (·.candidates (.knownInheritorOf entry.identity))

/-- Adds candidates in their order, each one with its known inheritors before the next one
(`add_declared`); none if that has no end. -/
def absorb? (scope : Scope) (candidates : List Candidate) (table : Table) : Option Table :=
  match scope.firstNewcomer? table candidates with
  | some (entry, rest) => scope |>.absorb? (inheritors entry ++ rest) (table ++ [entry])
  | none => some table
partial_fixpoint

/-- Adds the types that an expression wraps (section 4.2, `add_root`).  An addition without an end
adds nothing. -/
def addRoot (table : Table) (type : TypeExpr) (reason : Reason) : Table :=
  (scope.absorb? (type.candidates reason) table).getD table

/-- Adds the types that each of several expressions wraps. -/
def addRoots (table : Table) (roots : List Candidate) : Table :=
  roots.foldl (fun table (type, reason) => scope.addRoot table type reason) table

/-! ## Passes -/

/-- The types that the properties of a discovered type wrap. -/
def propertyRoots (entry : Entry) : List Candidate :=
  entry.description.properties.map fun p => (p.type, .propertyOf entry.identity p.name)

/-- Follows the properties of all types that are in the table at the start. -/
def pass (table : Table) : Table := scope.addRoots table (table.flatMap propertyRoots)

/-- Passes until one adds nothing, at most as many as given (section 4.2).  Their number, with the
last one counted, goes with the table. -/
def passes : Nat → Table → Table × Nat
  | 0, table => (table, 0)
  | limit + 1, table =>
    let grown := scope.pass table
    if grown.length = table.length then (grown, 1)
    else
      let (final, count) := passes limit grown
      (final, count + 1)

/-- The table that discovery ends with, and the number of passes (section 4.2, `compile`). -/
def close (table : Table) : Table × Nat := scope.passes scope.config.maxPasses table

end Scope

/-- What is discovered of a document's types. -/
def Document.scope (document : Document) (config : Config) : Scope :=
  { catalog := document.catalog, config }

end DataContract
