import DataContract.Document.Basic
import DataContract.Operation.UrlPattern
import DataContract.Revival.Basic
import DataContract.ValueType.Basic

/-!
# Operations and interfaces of the model

Specification (`SPEC_FULL.md`, part II): section 3, Operation Spec and Method Spec, and
section 4.5 for the order of a call.

Contents:

* `Operation`, `Parameter`: an HTTP operation with its parameters.
* `Interface`, `Method`, `MethodParameter`: an interface with its methods.
* `Operation.arguments`: the parameters in the order of a call.
-/

namespace DataContract

/-- Where a parameter travels. -/
inductive ParameterPlace where
  | body
  | path
  | query
  deriving DecidableEq, Inhabited, Repr

/-- The word for a location. -/
def ParameterPlace.word : ParameterPlace → String
  | .body => "body"
  | .path => "path"
  | .query => "query"

/-- A parameter of an operation. -/
structure Parameter where
  name : String
  type : ValueType
  location : ParameterPlace
  optional : Bool
  revival : Option Revival := none
  deriving Inhabited, Repr

/-- An HTTP operation (section 3, Operation Spec). -/
structure Operation where
  /-- The name, which no other operation has. -/
  name : String
  controller : String
  method : HttpMethod
  /-- The route as declared. -/
  route : String
  description : Option String
  url : UrlPattern
  bodyParams : List Parameter
  /-- The parameters in the path and in the query string. -/
  uriParams : List Parameter
  /-- The parameter whose properties the parameters in the URL are. -/
  wrapper : Option Parameter
  response : ValueType
  responseRevival : Option Revival := none
  deriving Inhabited, Repr

/-- The parameters in the order of a call (section 4.5, input ordering; `inputs`): the wrapper alone
or, without one, those of the URL that are required, those of the body and the other ones of the
URL. -/
def Operation.arguments (op : Operation) : List Parameter :=
  match op.wrapper with
  | some wrapper => [wrapper]
  | none =>
    op.uriParams.filter (!·.optional) ++ op.bodyParams ++ op.uriParams.filter (·.optional)

/-- The first parameter of that name, in the URL or else in the body. -/
def Operation.parameter? (op : Operation) (name : String) : Option Parameter :=
  (op.uriParams ++ op.bodyParams).find? (·.name == name)

/-- A parameter of a method. -/
structure MethodParameter where
  name : String
  type : ValueType
  revival : Option Revival := none
  deriving Inhabited, Repr

/-- A method of an interface (section 3, Method Spec). -/
structure Method where
  name : String
  params : List MethodParameter
  returns : ValueType
  returnRevival : Option Revival := none
  deriving Inhabited, Repr

/-- An interface. -/
structure Interface where
  name : String
  role : InterfaceRole
  methods : List Method
  deriving Inhabited, Repr

end DataContract
