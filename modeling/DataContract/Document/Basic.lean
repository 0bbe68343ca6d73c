import DataContract.TypeExpr.Basic

/-!
# Service documents

What a service exposes: its types, its HTTP operations and its interfaces.

Specification (`SPEC_FULL.md`, part II): section 4.0, `ServiceDocument`, and section 6, its JSON.

Contents:

* `DeclaredType`: an object or an enumeration, as declared.
* `DeclaredOperation`: an HTTP operation.
* `DeclaredInterface`: an interface that the client calls or that pushes events.
* `Document`: all declarations of a service.
-/

namespace DataContract

/-! ## Types -/

/-- A member of an enumeration. -/
structure EnumMember where
  name : String := ""
  value : Int := 0
  deriving DecidableEq, Inhabited, Repr

/-- A property of an object. -/
structure DeclaredProperty where
  name : String := ""
  type : TypeExpr := .void
  /-- The name in serialized form, when it differs. -/
  jsonName : Option String := none
  /-- The property is not serialized. -/
  jsonIgnore : Bool := false
  /-- The name of the type that the model shows instead of the resolved one. -/
  typeOverride : Option String := none
  /-- The script that revives a value of the property. -/
  reviver : Option String := none
  deriving DecidableEq, Inhabited, Repr

/-- The declaration of an object type. -/
structure DeclaredObject where
  /-- The name in the model, when it is not to be computed. -/
  nameOverride : Option String := none
  /-- The names of the generic parameters. -/
  genericParams : List String := []
  base : Option TypeExpr := none
  interfaces : List TypeExpr := []
  /-- Types that stand in for this one. -/
  knownInheritors : List TypeExpr := []
  properties : List DeclaredProperty := []
  deriving DecidableEq, Inhabited, Repr

/-- The declaration of an enumeration. -/
structure DeclaredEnum where
  /-- The name in the model, when it is not to be computed. -/
  nameOverride : Option String := none
  members : List EnumMember := []
  deriving DecidableEq, Inhabited, Repr

/-- The declaration of a type. -/
inductive DeclaredType where
  | object (decl : DeclaredObject)
  | enum (decl : DeclaredEnum)
  deriving DecidableEq, Inhabited, Repr

/-! ## Operations -/

/-- The method of an HTTP operation. -/
inductive HttpMethod where
  | get
  | post
  | put
  | patch
  | delete
  deriving DecidableEq, Inhabited, Repr

/-- The word for a method. -/
def HttpMethod.word : HttpMethod → String
  | .get => "GET"
  | .post => "POST"
  | .put => "PUT"
  | .patch => "PATCH"
  | .delete => "DELETE"

/-- Where the value of an operation's parameter is taken from. -/
inductive ParameterSource where
  /-- The body of the request. -/
  | body
  /-- The route or the query string. -/
  | uri
  deriving DecidableEq, Inhabited, Repr

/-- The word for a source. -/
def ParameterSource.word : ParameterSource → String
  | .body => "body"
  | .uri => "uri"

/-- A parameter of an operation. -/
structure DeclaredParameter where
  name : String := ""
  type : TypeExpr := .void
  source : ParameterSource := .body
  optional : Bool := false
  /-- The properties of the type are bound one by one. -/
  binder : Bool := false
  deriving DecidableEq, Inhabited, Repr

/-- An HTTP operation. -/
structure DeclaredOperation where
  controller : String := ""
  action : Option String := none
  method : HttpMethod := .get
  route : String := ""
  /-- The part of the route that all operations of the controller share. -/
  routePrefix : Option String := none
  params : List DeclaredParameter := []
  response : TypeExpr := .void
  description : Option String := none
  deriving DecidableEq, Inhabited, Repr

/-! ## Interfaces -/

/-- Who calls the methods of an interface. -/
inductive InterfaceRole where
  /-- The client calls them. -/
  | calls
  /-- The service pushes them, each with one payload. -/
  | events
  deriving DecidableEq, Inhabited, Repr

/-- The word for a role. -/
def InterfaceRole.word : InterfaceRole → String
  | .calls => "calls"
  | .events => "events"

/-- A parameter of an interface's method. -/
structure DeclaredMethodParameter where
  name : String := ""
  type : TypeExpr := .void
  deriving DecidableEq, Inhabited, Repr

/-- A method of an interface. -/
structure DeclaredMethod where
  name : String := ""
  params : List DeclaredMethodParameter := []
  returns : TypeExpr := .void
  deriving DecidableEq, Inhabited, Repr

/-- An interface. -/
structure DeclaredInterface where
  name : String := ""
  role : InterfaceRole := .calls
  methods : List DeclaredMethod := []
  deriving DecidableEq, Inhabited, Repr

/-! ## Documents -/

/-- The declarations of a service (section 4.0, `ServiceDocument`). -/
structure Document where
  /-- The declared types by their names without arguments, in the order of the document. -/
  types : List (String × DeclaredType) := []
  operations : List DeclaredOperation := []
  interfaces : List DeclaredInterface := []
  deriving DecidableEq, Inhabited, Repr

/-- The declaration of a type's name. -/
def Document.type? (document : Document) (name : String) : Option DeclaredType :=
  document.types.lookup name

end DataContract
