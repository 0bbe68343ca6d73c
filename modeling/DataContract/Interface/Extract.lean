import DataContract.Discovery.Table
import DataContract.Model.Operation
import DataContract.Model.Types

/-!
# Extracting interfaces

The interfaces of a model from those of a document.

Specification (`SPEC_FULL.md`, part II): section 4.6, Method Interfaces.

Contents:

* `EventArity`, `checkEvents`: methods that push events take one parameter each.
* `interfaceRoots`: the types that interfaces bring into the model.
* `extractInterface`: an interface against the names of the discovered types.
-/

namespace DataContract

/-! ## Events -/

/-- A method that pushes an event with other than one parameter. -/
structure EventArity where
  interfaceName : String
  method : String
  count : Nat
  deriving DecidableEq, Inhabited, Repr

/-- The wording of the fault. -/
def EventArity.message (e : EventArity) : String :=
  s!"Event interface '{e.interfaceName}' method '{e.method}' must take exactly one parameter, " ++
    s!"found {e.count}"

/-- The first method of an interface that pushes an event with other than one parameter. -/
def DeclaredInterface.eventArity? (i : DeclaredInterface) : Option EventArity :=
  match i.role with
  | .calls => none
  | .events =>
    (i.methods.find? fun m => m.params.length != 1).map fun m =>
      { interfaceName := i.name, method := m.name, count := m.params.length }

/-- Every method that pushes an event takes one parameter (section 4.6, `validate_interfaces`). -/
def checkEvents (interfaces : List DeclaredInterface) : Except EventArity Unit :=
  match interfaces.findSome? (·.eventArity?) with
  | some fault => .error fault
  | none => .ok ()

/-! ## Roots -/

/-- The name of a method with that of its interface. -/
def qualifiedName (i : DeclaredInterface) (m : DeclaredMethod) : String := i.name ++ "." ++ m.name

/-- The types of the parameters and the result of a method. -/
def methodRoots (i : DeclaredInterface) (m : DeclaredMethod) : List Candidate :=
  m.params.map (fun p => (p.type, .fromInterfaceParam (qualifiedName i m) p.name)) ++
    [(m.returns, .fromInterfaceReturn (qualifiedName i m))]

/-- The types of the parameters and results of all methods, which are roots (section 4.6,
`collect_interface_roots`). -/
def interfaceRoots (interfaces : List DeclaredInterface) : List Candidate :=
  interfaces.flatMap fun i => i.methods.flatMap (methodRoots i)

/-! ## Interfaces -/

/-- A method of the model. -/
def extractMethod (names : NameTable) (m : DeclaredMethod) : Method :=
  { name := m.name
    params := m.params.map fun p => { name := p.name, type := names.resolve p.type none }
    returns := names.resolve m.returns none }

/-- An interface of the model (`build_interfaces`). -/
def extractInterface (config : Config) (types : ModelTypes) (i : DeclaredInterface) :
    Interface :=
  let methods := i.methods.map (extractMethod types.names)
  { name := i.name
    role := i.role
    methods :=
      if config.sortMethods then methods.mergeSort fun a b => a.name ≤ b.name else methods }

end DataContract
