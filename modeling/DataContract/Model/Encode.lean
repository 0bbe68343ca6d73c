import DataContract.Document.Encode
import DataContract.Json.Writer
import DataContract.Model.Contract
import DataContract.Revival.Encode
import DataContract.ValueType.Encode

/-!
# Models as JSON

The model of a service as a value, every field in the order of its declaration.

Specification (`SPEC_FULL.md`, part II): section 6, the output, and section 10.4.

Contents:

* `Contract.encode`: the value of a model.
* `Contract.toText`: its text.
-/

namespace DataContract

/-! ## Types -/

/-- An enumeration as a value. -/
def ModelEnum.encode (e : ModelEnum) : Json :=
  .object [("name", .string e.name), ("members", .array (e.members.map EnumMember.encode)),
    ("original_identity", .string e.identity)]

/-- A property as a value. -/
def ModelProperty.encode (p : ModelProperty) : Json :=
  .object [("name", .string p.name), ("ty", p.type.encode),
    ("custom_reviver", .ofString? p.customReviver), ("revival", Revival.encode? p.revival)]

/-- A class as a value. -/
def ModelClass.encode (c : ModelClass) : Json :=
  .object [("name", .string c.name), ("superclass", .ofString? c.superclass),
    ("properties", .array (c.properties.map ModelProperty.encode)),
    ("original_identity", .string c.identity)]

/-- The members of a value that hold the types. -/
def ModelTypes.encodeMembers (types : ModelTypes) : List (String × Json) :=
  [("enums", .array (types.enums.map ModelEnum.encode)),
    ("classes", .array (types.classes.map ModelClass.encode))]

/-! ## Operations -/

/-- A piece of a URL as a value. -/
def UrlPiece.encode : UrlPiece → Json
  | .fixed text => .object [("kind", .string "static"), ("text", .string text)]
  | .placeholder name => .object [("kind", .string "param"), ("text", .string name)]

/-- A URL as a value. -/
def UrlPattern.encode (url : UrlPattern) : Json :=
  .object [("parts", .array (url.pieces.map UrlPiece.encode))]

/-- A parameter of an operation as a value. -/
def Parameter.encode (p : Parameter) : Json :=
  .object [("name", .string p.name), ("ty", p.type.encode), ("location", .string p.location.word),
    ("optional", .bool p.optional), ("revival", Revival.encode? p.revival)]

/-- An operation as a value. -/
def Operation.encode (op : Operation) : Json :=
  .object [("name", .string op.name), ("controller", .string op.controller),
    ("method", .string op.method.word), ("route", .string op.route),
    ("description", .ofString? op.description), ("url", op.url.encode),
    ("body_params", .array (op.bodyParams.map Parameter.encode)),
    ("uri_params", .array (op.uriParams.map Parameter.encode)),
    ("wrapper", op.wrapper.elim .null Parameter.encode), ("response", op.response.encode),
    ("response_revival", Revival.encode? op.responseRevival)]

/-! ## Interfaces -/

/-- A parameter of a method as a value. -/
def MethodParameter.encode (p : MethodParameter) : Json :=
  .object [("name", .string p.name), ("ty", p.type.encode), ("revival", Revival.encode? p.revival)]

/-- A method as a value. -/
def Method.encode (m : Method) : Json :=
  .object [("name", .string m.name), ("params", .array (m.params.map MethodParameter.encode)),
    ("returns", m.returns.encode), ("return_revival", Revival.encode? m.returnRevival)]

/-- An interface as a value. -/
def Interface.encode (i : Interface) : Json :=
  .object [("name", .string i.name), ("role", .string i.role.word),
    ("methods", .array (i.methods.map Method.encode))]

/-! ## Provenance -/

/-- The members of a value that hold a reason. -/
def Reason.encodeMembers : Reason → List (String × Json)
  | .fromOperation operation =>
    [("reason", .string "from_operation"), ("operation", .string operation)]
  | .propertyOf owner property =>
    [("reason", .string "property_of"), ("owner", .string owner), ("property", .string property)]
  | .knownInheritorOf owner =>
    [("reason", .string "known_inheritor_of"), ("owner", .string owner)]
  | .fromInterfaceParam method param =>
    [("reason", .string "from_interface_param"), ("method", .string method),
      ("param", .string param)]
  | .fromInterfaceReturn method =>
    [("reason", .string "from_interface_return"), ("method", .string method)]
  | .manual => [("reason", .string "manual")]

/-- The provenance of a type as a value. -/
def Provenance.encode (p : Provenance) : Json :=
  .object (("identity", .string p.identity) :: p.reason.encodeMembers)

/-! ## Models -/

/-- A model as a value. -/
def Contract.encode (contract : Contract) : Json :=
  .object (contract.types.encodeMembers ++
    [("operations", .array (contract.operations.map Operation.encode)),
      ("interfaces", .array (contract.interfaces.map Interface.encode)),
      ("provenance", .array (contract.provenance.map Provenance.encode)),
      ("passes", .ofNat contract.passes)])

/-- The text of a model, indented if wanted. -/
def Contract.toText (contract : Contract) (pretty : Bool) : String :=
  if pretty then contract.encode.indented else contract.encode.compact

end DataContract
