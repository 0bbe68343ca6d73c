import DataContract.Document.Decoder
import DataContract.Json.Reader
import DataContract.Keyed

/-!
# Reading service documents

The document that a JSON text spells.

A type declaration names its kind in the member `kind`, which may stand anywhere, or in the first
item of an array.  So it is read whole before its other fields are looked at.

Specification (`SPEC_FULL.md`, part II): section 6, the JSON of a `ServiceDocument`.

Contents:

* `Document.decode`: the document of a text's tree.
* `Document.parse`: the document of a text.
-/

namespace DataContract.Document

open Decoder

/-- What is wrong with an item behind the last field of a record that is read in passing. -/
def surplusItem : Error := .text .malformed

/-! ## Types -/

/-- The fields of an enumeration's member. -/
def enumMemberFields : List (RecordField EnumMember) :=
  [required (field "name" text fun v r => { r with name := v }),
    required (field "value" integer fun v r => { r with value := v })]

/-- The fields of a property. -/
def propertyFields : List (RecordField DeclaredProperty) :=
  [required (field "name" text fun v r => { r with name := v }),
    required (field "type" typeExpr fun v r => { r with type := v }),
    field "json_name" (optional text) fun v r => { r with jsonName := v },
    field "json_ignore" flag fun v r => { r with jsonIgnore := v },
    field "type_override" (optional text) fun v r => { r with typeOverride := v },
    field "reviver" (optional text) fun v r => { r with reviver := v }]

/-- The fields of an object type. -/
def objectFields : List (RecordField DeclaredObject) :=
  [field "name_override" (optional text) fun v r => { r with nameOverride := v },
    field "generic_params" (list text) fun v r => { r with genericParams := v },
    field "base" (optional typeExpr) fun v r => { r with base := v },
    field "interfaces" (list typeExpr) fun v r => { r with interfaces := v },
    field "known_inheritors" (list typeExpr) fun v r => { r with knownInheritors := v },
    field "properties" (list (record propertyFields {} .shape)) fun v r =>
      { r with properties := v }]

/-- The fields of an enumeration. -/
def enumFields : List (RecordField DeclaredEnum) :=
  [field "name_override" (optional text) fun v r => { r with nameOverride := v },
    field "members" (list (record enumMemberFields {} .shape)) fun v r => { r with members := v }]

/-- The kinds of type declarations. -/
inductive TypeKind where
  | object
  | enum
  deriving DecidableEq, Repr

/-- The words for the kinds. -/
def kindWords : List (String × TypeKind) := [("object", .object), ("enum", .enum)]

/-- The kind of a type declaration. -/
def kind : Decoder TypeKind
  | .string literal => meaning kindWords literal
  | other => .error (misfit other)

/-- The name of the member that tells the kind. -/
def kindName : String := "kind"

/-- The number of brackets around the values within a type declaration. -/
def declarationLevel : Nat := 3

/-- The value has no flaw when it is read whole. -/
def sound (flaw : Option Json.Flaw) : Except Error Unit :=
  match flaw with
  | some flaw => .error (.text flaw)
  | none => .ok ()

/-- The kind among the members of a type declaration, and its other members. -/
def splitKind (found : Option TypeKind) : Source.Members →
    Except Error (TypeKind × Source.Members)
  | .close =>
    match found with
    | some k => .ok (k, .close)
    | none => .error .shape
  | .cut flaw => .error (.text flaw)
  | .noKey fault => .error (.text fault.reading)
  | .member key value rest => do
    let name ← literalText key
    if name = kindName then
      if found.isSome then throw .shape
      splitKind (some (← kind value)) rest
    else
      sound (value.flawReading? declarationLevel)
      let (k, others) ← splitKind found rest
      return (k, .member key value others)

/-- A type declaration. -/
def declaredType : Decoder DeclaredType
  | .object members => do
    let (k, others) ← splitKind none members
    match k with
    | .object => .object <$> fromMembers objectFields objectFields {} others
    | .enum => .enum <$> fromMembers enumFields enumFields {} others
  | .array .close => .error .shape
  | .array (.cut flaw) => .error (.text flaw)
  | .array (.item value rest) => do
    let k ← kind value
    sound (rest.flawReading? declarationLevel)
    match k with
    | .object => .object <$> fromItems .shape objectFields {} rest
    | .enum => .enum <$> fromItems .shape enumFields {} rest
  | other => .error (misfit other)

/-- The type declarations among the members of an object, added to those given.  A name that is
declared again keeps its place and takes the new declaration. -/
def declaredTypesOnto (types : List (String × DeclaredType)) :
    Source.Members → Except Error (List (String × DeclaredType))
  | .close => .ok types
  | .cut flaw => .error (.text flaw)
  | .noKey fault => .error (.text fault.reading)
  | .member key value rest => do
    let name ← literalText key
    let decl ← declaredType value
    declaredTypesOnto (Keyed.set name decl types) rest

/-- The type declarations by their names. -/
def declaredTypes : Decoder (List (String × DeclaredType))
  | .object members => declaredTypesOnto [] members
  | other => .error (misfit other)

/-! ## Operations -/

/-- The words for the methods. -/
def methodWords : List (String × HttpMethod) :=
  [HttpMethod.get, .post, .put, .patch, .delete].map fun m => (m.word, m)

/-- The words for the sources of parameters. -/
def sourceWords : List (String × ParameterSource) :=
  [ParameterSource.body, .uri].map fun s => (s.word, s)

/-- The fields of an operation's parameter. -/
def paramFields : List (RecordField DeclaredParameter) :=
  [required (field "name" text fun v r => { r with name := v }),
    required (field "type" typeExpr fun v r => { r with type := v }),
    required (field "source" (word sourceWords) fun v r => { r with source := v }),
    field "optional" flag fun v r => { r with optional := v },
    field "binder" flag fun v r => { r with binder := v }]

/-- The fields of an operation. -/
def operationFields : List (RecordField DeclaredOperation) :=
  [required (field "controller" text fun v r => { r with controller := v }),
    field "action" (optional text) fun v r => { r with action := v },
    required (field "method" (word methodWords) fun v r => { r with method := v }),
    required (field "route" text fun v r => { r with route := v }),
    field "route_prefix" (optional text) fun v r => { r with routePrefix := v },
    field "params" (list (record paramFields {} surplusItem)) fun v r => { r with params := v },
    field "response" typeExpr fun v r => { r with response := v },
    field "description" (optional text) fun v r => { r with description := v }]

/-! ## Interfaces -/

/-- The words for the roles of interfaces. -/
def roleWords : List (String × InterfaceRole) :=
  [InterfaceRole.calls, .events].map fun r => (r.word, r)

/-- The fields of a method's parameter. -/
def methodParamFields : List (RecordField DeclaredMethodParameter) :=
  [required (field "name" text fun v r => { r with name := v }),
    required (field "type" typeExpr fun v r => { r with type := v })]

/-- The fields of a method. -/
def methodFields : List (RecordField DeclaredMethod) :=
  [required (field "name" text fun v r => { r with name := v }),
    field "params" (list (record methodParamFields {} surplusItem)) fun v r =>
      { r with params := v },
    field "returns" typeExpr fun v r => { r with returns := v }]

/-- The fields of an interface. -/
def interfaceFields : List (RecordField DeclaredInterface) :=
  [required (field "name" text fun v r => { r with name := v }),
    field "role" (word roleWords) fun v r => { r with role := v },
    field "methods" (list (record methodFields {} surplusItem)) fun v r => { r with methods := v }]

/-! ## Documents -/

/-- The fields of a document. -/
def documentFields : List (RecordField Document) :=
  [field "types" declaredTypes fun v r => { r with types := v },
    field "operations" (list (record operationFields {} surplusItem)) fun v r =>
      { r with operations := v },
    field "interfaces" (list (record interfaceFields {} surplusItem)) fun v r =>
      { r with interfaces := v }]

/-- The document of a text's tree. -/
def decode : Decoder Document := record documentFields {} surplusItem

/-- The document of a text.  Only blanks may follow it. -/
def parse (text : String) : Except Error Document := do
  let (source, rest) := Source.read text
  let document ← decode source
  if rest.all Source.isSpace then return document else throw (.text .malformed)

end DataContract.Document
