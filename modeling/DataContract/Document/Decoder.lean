import DataContract.Document.Basic
import DataContract.Json.Source
import DataContract.Text.Numeral
import DataContract.TypeExpr.Parser

/-!
# Decoders of JSON text

A decoder makes a value out of the tree of a text.  It goes through the tree from the front and
stops at the first thing that is wrong, be it a fault of the text or a value that does not fit.

A record is written as an object, or as an array of its fields in their order.  In an object the
fields may stand in any order, none of them twice; what is no field is passed over.  Fields that
are not required may be missing, in an array those at its end.

Specification (`SPEC_FULL.md`, part II): section 10.4, serialization, and section 7 for what is
refused.

Contents:

* `Document.Error`: why a document is refused.
* `Decoder.text`, `Decoder.flag`, `Decoder.typeExpr`, `Decoder.integer`, `Decoder.optional`,
  `Decoder.list`, `Decoder.word`: decoders of values.
* `Decoder.RecordField`, `Decoder.record`: decoders of records.
-/

namespace DataContract

/-- Why a document is refused. -/
inductive Document.Error where
  /-- The text is no JSON. -/
  | text (flaw : Json.Flaw)
  /-- A value is not what stands at its place. -/
  | shape
  /-- A text is no type expression. -/
  | typeExpr (error : TypeExpr.SyntaxError)
  deriving DecidableEq, Repr

/-- A decoder of values. -/
abbrev Decoder (α : Type) := Source → Except Document.Error α

namespace Decoder

open Document (Error)

/-! ## Single values -/

/-- What is wrong with a value that is of another kind than expected.  A scalar is read before
its kind is seen to be wrong. -/
def misfit : Source → Error
  | .broken fault => .text fault.reading
  | .number none => .text .malformed
  | .string literal => if literal.paired then .shape else .text .malformed
  | _ => .shape

/-- The text of a literal that is read. -/
def literalText (literal : Json.Literal) : Except Error String :=
  if literal.paired then .ok literal.text else .error (.text .malformed)

/-- A text. -/
def text : Decoder String
  | .string literal => literalText literal
  | other => .error (misfit other)

/-- True or false. -/
def flag : Decoder Bool
  | .bool value => .ok value
  | other => .error (misfit other)

/-- An integer of 64 bits with a sign. -/
def integer : Decoder Int
  | .number (some (.int value)) => if Text.isSigned64 value then .ok value else .error .shape
  | other => .error (misfit other)

/-- A type expression. -/
def typeExpr : Decoder TypeExpr := fun source => do
  (TypeExpr.parse (← text source)).mapError .typeExpr

/-- Null, or a value. -/
def optional {α : Type} (read : Decoder α) : Decoder (Option α)
  | .null => .ok none
  | other => some <$> read other

/-- The items of an array. -/
def items {α : Type} (read : Decoder α) : Source.Items → Except Error (List α)
  | .close => .ok []
  | .cut flaw => .error (.text flaw)
  | .item value rest => do
    let first ← read value
    let others ← items read rest
    return first :: others

/-- An array. -/
def list {α : Type} (read : Decoder α) : Decoder (List α)
  | .array values => items read values
  | other => .error (misfit other)

/-- The meaning of a word. -/
def meaning {α : Type} (words : List (String × α)) (literal : Json.Literal) : Except Error α := do
  match words.lookup (← literalText literal) with
  | some value => return value
  | none => throw .shape

/-- One of several words, or an object with the word as its only key and null as its value.  Any
other scalar is taken for a fault of the text. -/
def word {α : Type} (words : List (String × α)) : Decoder α
  | .string literal => meaning words literal
  | .object (.member key value rest) => do
    let found ← meaning words key
    match value with
    | .null => pure ()
    | other => throw (misfit other)
    match rest with
    | .close => return found
    | .cut flaw => throw (.text flaw)
    | .member .. | .noKey _ => throw (.text .malformed)
  | .object (.cut flaw) => .error (.text flaw)
  | .object (.noKey fault) => .error (.text fault.reading)
  | .broken fault => .error (.text (if fault.begun then .malformed else fault.reading))
  | _ => .error (.text .malformed)

/-! ## Records -/

/-- A field of a record. -/
structure RecordField (α : Type) where
  name : String
  /-- The field may not be missing. -/
  required : Bool := false
  /-- Reads the field's value into a record. -/
  read : Source → α → Except Error α

/-- A field with a decoder of its value and a way to put the value into the record. -/
def field {α β : Type} (name : String) (read : Decoder β) (put : β → α → α) : RecordField α :=
  { name, read := fun source record => (put · record) <$> read source }

/-- A field that may not be missing. -/
def required {α : Type} (f : RecordField α) : RecordField α := { f with required := true }

/-- The record, if no required field is missing. -/
def complete {α : Type} (missing : List (RecordField α)) (record : α) : Except Error α :=
  if missing.any (·.required) then .error .shape else .ok record

/-- The fields of a record from the members of an object.  `missing` are the fields that have not
been met. -/
def fromMembers {α : Type} (fields missing : List (RecordField α)) (record : α) :
    Source.Members → Except Error α
  | .close => complete missing record
  | .cut flaw => .error (.text flaw)
  | .noKey fault => .error (.text fault.reading)
  | .member key value rest => do
    let name ← literalText key
    match missing.find? (·.name == name) with
    | some f =>
      let record ← f.read value record
      fromMembers fields (missing.filter (·.name != name)) record rest
    | none =>
      if fields.any (·.name == name) then throw .shape
      else
        match value.flawPassing? with
        | some flaw => throw (.text flaw)
        | none => fromMembers fields missing record rest

/-- The fields of a record from the items of an array.  `surplus` is what is wrong with an item
behind the last field. -/
def fromItems {α : Type} (surplus : Error) :
    List (RecordField α) → α → Source.Items → Except Error α
  | [], record, .close => .ok record
  | missing, record, .close => complete missing record
  | _, _, .cut flaw => .error (.text flaw)
  | [], _, .item _ _ => .error surplus
  | f :: fields, record, .item value rest => do
    let record ← f.read value record
    fromItems surplus fields record rest

/-- A record. -/
def record {α : Type} (fields : List (RecordField α)) (blank : α) (surplus : Error) : Decoder α
  | .object members => fromMembers fields fields blank members
  | .array values => fromItems surplus fields blank values
  | other => .error (misfit other)

end Decoder

end DataContract
