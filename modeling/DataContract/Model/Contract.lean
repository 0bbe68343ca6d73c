import DataContract.Interface.Extract
import DataContract.Naming.Assign
import DataContract.Operation.Extract
import DataContract.Revival.Synthesis

/-!
# Contracts

The model of a service: its types with their revivals, its operations and its interfaces.

Specification (`SPEC_FULL.md`, part II): section 2, the Pipeline `compile(document, config)`.

Contents:

* `Contract`: the model.
* `Document.compile`: the model of a document.
-/

namespace DataContract

/-- A discovered type and the reason of its discovery. -/
structure Provenance where
  identity : String
  reason : Reason
  deriving DecidableEq, Inhabited, Repr

/-- Why each type of a table is part of the model. -/
def Table.provenance (table : Table) : List Provenance :=
  table.map fun entry => { identity := entry.identity, reason := entry.reason }

/-- The model of a service. -/
structure Contract where
  types : ModelTypes
  operations : List Operation
  interfaces : List Interface
  provenance : List Provenance
  /-- The number of discovery passes. -/
  passes : Nat
  deriving Inhabited, Repr

namespace Contract

/-- The first operation of that name. -/
def operation? (contract : Contract) (name : String) : Option Operation :=
  contract.operations.find? (·.name == name)

/-- The class of that name. -/
def class? (contract : Contract) (name : String) : Option ModelClass :=
  contract.types.class? name

end Contract

/-! ## Revivals -/

/-- The parameter with its revival. -/
def Parameter.revived (p : Parameter) (types : ModelTypes) (mode : ObjectRevival) : Parameter :=
  { p with revival := types.revivalOf mode p.type none (.value p.name) }

/-- The operation with the revivals of its parameters and response (`attach_operation_revivals`). -/
def Operation.revived (op : Operation) (types : ModelTypes) (mode : ObjectRevival) :
    Operation :=
  { op with
    bodyParams := op.bodyParams.map (·.revived types mode)
    uriParams := op.uriParams.map (·.revived types mode)
    wrapper := op.wrapper.map (·.revived types mode)
    responseRevival := types.revivalOf mode op.response none (.value "response") }

/-- The parameter with its revival. -/
def MethodParameter.revived (p : MethodParameter) (types : ModelTypes) (mode : ObjectRevival) :
    MethodParameter :=
  { p with revival := types.revivalOf mode p.type none (.value p.name) }

/-- The method with the revivals of its parameters and result. -/
def Method.revived (m : Method) (types : ModelTypes) (mode : ObjectRevival) :
    Method :=
  { m with
    params := m.params.map (·.revived types mode)
    returnRevival := types.revivalOf mode m.returns none (.value "result") }

/-- The interface with the revivals of its methods. -/
def Interface.revived (i : Interface) (types : ModelTypes) (mode : ObjectRevival) :
    Interface :=
  { i with methods := i.methods.map (·.revived types mode) }

/-! ## Compilation -/

namespace Document

/-- What brings types into the model of a document. -/
def roots (document : Document) (config : Config) : List Candidate :=
  operationRoots (includedOperations config document.operations) ++
    interfaceRoots document.interfaces

/-- The discovered types of a document, with the number of passes. -/
def discover (document : Document) (config : Config) : Table × Nat :=
  let scope := document.scope config
  scope.close (scope.addRoots [] (document.roots config))

/-- The model of a document (section 2, `compile` of the Pipeline). -/
def compile (document : Document) (config : Config) : Except EventArity Contract := do
  checkEvents document.interfaces
  let (table, passes) := document.discover config
  let types := table.declarations.attachRevivals config.objectRevival
  let operations := (includedOperations config document.operations).map fun (op, name) =>
    (extractOperation document.catalog config types op name).revived types config.objectRevival
  let interfaces := document.interfaces.map fun i =>
    (extractInterface config types i).revived types config.objectRevival
  return { types, operations, interfaces, provenance := table.provenance, passes }

end Document

end DataContract
