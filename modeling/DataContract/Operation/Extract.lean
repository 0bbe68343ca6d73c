import DataContract.Discovery.Table
import DataContract.Model.Operation
import DataContract.Model.Types
import DataContract.Naming.Unique
import DataContract.Operation.Route

/-!
# Extracting operations

The operations of a model from those of a document.

Specification (`SPEC_FULL.md`, part II): section 4.5, the Endpoint Extractor with
`collect_roots` and `extract`.

Contents:

* `includedOperations`: the operations that are not left out, with their names.
* `operationRoots`: the types that operations bring into the model.
* `extractOperation`: an operation against the names of the discovered types.
-/

namespace DataContract

/-! ## Names -/

/-- The name of an operation's action: as declared, unless a name from the route is preferred; the
method for want of both (section 4.5, `action_name`). -/
def nameOfAction (config : Config) (op : DeclaredOperation) : String :=
  let suggested :=
    (Route.suggestedName? config op.route op.routePrefix op.controller).getD op.method.word
  match op.action with
  | some action => if action = "" || config.namesByRoute action then suggested else action
  | none => suggested

/-- The name of an operation if no other operation had it. -/
def operationBaseName (config : Config) (op : DeclaredOperation) : String :=
  op.controller ++ "_" ++ nameOfAction config op

/-- The operations of the controllers that are not left out, with unique names (section 4.5,
`operation_names`). -/
def includedOperations (config : Config) (operations : List DeclaredOperation) :
    List (DeclaredOperation × String) :=
  let included := operations.filter fun op => !config.excludes op.controller
  included.zip (uniqueNames [] (included.map (operationBaseName config)))

/-- The types of the parameters and responses of operations (section 4.5, `collect_roots`). -/
def operationRoots (operations : List (DeclaredOperation × String)) : List Candidate :=
  operations.flatMap fun (op, name) =>
    (op.params.map (·.type) ++ [op.response]).map (·, .fromOperation name)

/-! ## Parameters -/

/-- A parameter of the URL.  Whatever makes it optional makes it optional. -/
def uriParam (names : NameTable) (routeOptional : List String) (p : DeclaredParameter) :
    Parameter :=
  let type := names.resolve p.type none
  { name := p.name, type, location := .query
    optional := p.optional || type.optional || p.name ∈ routeOptional }

/-- The properties of a composite type as optional parameters (section 4.5, `flatten_wrapper`). -/
def compositeParams (catalog : Catalog) (names : NameTable) (type : TypeExpr) : List Parameter :=
  match catalog.describe? type with
  | none => []
  | some description =>
    description.properties.map fun p =>
      { name := p.serializedName, type := names.resolve p.type p.typeOverride, location := .query
        optional := true }

/-- The parameters of the URL, with the wrapper whose properties they are.  A lone parameter that
is bound property by property gives way to its properties (section 4.5, wrapper convention). -/
def uriParams (catalog : Catalog) (types : ModelTypes) (routeOptional : List String)
    (params : List DeclaredParameter) : List Parameter × Option Parameter :=
  let separate := params.map (uriParam types.names routeOptional)
  match params with
  | [p] =>
    if p.binder then
      let wrapper : Parameter :=
        { name := p.name, type := types.names.resolve p.type none, location := .query
          optional := p.optional }
      (compositeParams catalog types.names p.type,
        (types.assignedName? p.type.render).map fun _ => wrapper)
    else (separate, none)
  | _ => (separate, none)

/-- A parameter of the body. -/
def bodyParam (names : NameTable) (p : DeclaredParameter) : Parameter :=
  { name := p.name, type := names.resolve p.type none, location := .body, optional := p.optional }

/-- The parameter travels in the path if the URL has a placeholder for it. -/
def locate (url : UrlPattern) (p : Parameter) : Parameter :=
  if url.hasPlaceholder p.name then { p with location := .path } else p

/-! ## Operations -/

/-- The route without the placeholders of optional parameters. -/
def requiredRoute (route : String) (params : List Parameter) : String :=
  (params.filter (·.optional)).foldl (fun route p => Route.dropPlaceholder route p.name) route

/-- An operation of the model (section 4.5, `extract`). -/
def extractOperation (catalog : Catalog) (config : Config) (types : ModelTypes)
    (op : DeclaredOperation) (name : String) : Operation :=
  let (route, routeOptional) := Route.normalize (Route.strip config op.route)
  let (params, wrapper) :=
    uriParams catalog types routeOptional (op.params.filter (·.source == .uri))
  let url := UrlPattern.parse (requiredRoute route params)
  { name
    controller := op.controller
    method := op.method
    route := op.route
    description := op.description
    url
    bodyParams := (op.params.filter (·.source == .body)).map (bodyParam types.names)
    uriParams := params.map (locate url)
    wrapper
    response := types.names.resolve op.response none }

end DataContract
