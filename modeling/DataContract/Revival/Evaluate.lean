import DataContract.Json.Basic
import DataContract.Keyed
import DataContract.Model.Types

/-!
# Evaluating revival expressions

What a revival expression makes of decoded JSON.  An instance is made by the revivals of its
class's properties, each with the whole object bound to `data`.

Instances within instances are made of ever smaller parts of the value, so the nesting of the
value bounds them; an evaluation that nests constructions deeper than its limit ends with an
outcome of its own.

Specification (`SPEC_FULL.md`, part II): section 4.7, `evaluate` and `construct` of the
evaluator.

Contents:

* `RevivedValue`: the values that are made.
* `Bindings.ofList`: the values that names are bound to.
* `Revival.Failure`: why an evaluation fails, with `Failure.message` as its wording.
* `Revival.apply`: the value of an expression, given how instances are made.
* `ModelTypes.constructBy`: an instance, given how the instances within it are made.
* `ModelTypes.constructWithin`: an instance, with a limit on nested constructions.
* `ModelTypes.construct`, `ModelTypes.evaluate`: with the limit that the value sets.
-/

namespace DataContract

/-! ## Values -/

/-- A value that has been made. -/
inductive RevivedValue where
  /-- JSON as it was. -/
  | raw (value : Json)
  /-- No value at all. -/
  | undefined
  | date (text : String)
  | enumMember (enumeration name : String) (value : Int)
  | array (items : List RevivedValue)
  | map (entries : List (String × RevivedValue))
  | instance (className : String) (fields : List (String × RevivedValue))
  /-- What a script would make of the input. -/
  | scripted (script : String) (input : Json)
  deriving Inhabited, Repr

/-- Why an evaluation fails. -/
inductive Revival.Failure where
  /-- No value is bound to the name. -/
  | unbound (name : String)
  /-- A value is of another kind. -/
  | typeMismatch (expected found : String)
  /-- There is no such class. -/
  | unknownClass (name : String)
  /-- An expression that makes a value stands where one is taken from. -/
  | notAnInput
  /-- Constructions are nested deeper than the limit. -/
  | tooDeep
  deriving DecidableEq, Inhabited, Repr

/-- The wording of a failure. -/
def Revival.Failure.message : Revival.Failure → String
  | .unbound name => s!"Unbound value '{name}'"
  | .typeMismatch expected found => s!"Expected {expected} but found {found}"
  | .unknownClass name => s!"Unknown class '{name}'"
  | .notAnInput => "Expression cannot be used as an input value"
  | .tooDeep => "Constructions are nested too deeply"

/-! ## Bindings -/

/-- The values that are bound to names, the innermost binding first. -/
abbrev Bindings := List (String × Json)

/-- The bindings of values that are given with their names.  Of several values for one name the last
one counts. -/
def Bindings.ofList (values : List (String × Json)) : Bindings := values.reverse

theorem Bindings.mem_ofList {values : List (String × Json)} {binding : String × Json} :
    binding ∈ ofList values ↔ binding ∈ values := List.mem_reverse

/-- The value that is given last for a name is the one that it is bound to. -/
theorem Bindings.lookup_ofList_concat (values : List (String × Json)) (name : String)
    (value : Json) : (ofList (values ++ [(name, value)])).lookup name = some value := by
  rw [ofList, List.reverse_concat, List.lookup_cons_self]

namespace Revival

/-- The outcome of an evaluation. -/
abbrev Outcome := Except Failure

/-- The value that an expression takes, none for a member that is missing. -/
def input (bindings : Bindings) : Revival → Outcome (Option Json)
  | .value name =>
    match bindings.lookup name with
    | some found => .ok (some found)
    | none => .error (.unbound name)
  | .member object property => (·.bind (Json.member? property)) <$> object.input bindings
  | _ => .error .notAnInput

/-- Applies a function to each item of a list. -/
def mapItems {α β : Type} (f : α → Outcome β) : List α → Outcome (List β)
  | [] => .ok []
  | item :: items => do
    let first ← f item
    let others ← mapItems f items
    return first :: others

/-- A failure for a value that is of another kind than expected. -/
def mismatch (expected : String) (found : Json) : Outcome RevivedValue :=
  .error (.typeMismatch expected found.kind)

/-- The member of an enumeration that a text names. -/
def lookupMember (types : ModelTypes) (enumeration name : String) : RevivedValue :=
  match (types.enum? enumeration).bind fun e => e.members.find? (·.name == name) with
  | some m => .enumMember enumeration m.name m.value
  | none => .undefined

/-- The date of a value: null for all but numbers other than zero and texts that are not empty. -/
def dateOf : Option Json → RevivedValue
  | some (.string text) => if text = "" then .raw .null else .date text
  | some (.number number) => if number.isZero then .raw .null else .date number.render
  | _ => .raw .null

/-- How instances are made. -/
abbrev Constructor := String → Json → Outcome RevivedValue

mutual

/-- The value of an expression. -/
def apply (types : ModelTypes) (construct : Constructor) (bindings : Bindings) :
    Revival → Outcome RevivedValue
  | .value name => return ((← input bindings (.value name)).map .raw).getD .undefined
  | .member object property =>
    return ((← input bindings (.member object property)).map .raw).getD .undefined
  | .mapArray source param body => do
    match ← source.input bindings with
    | none => return .undefined
    | some .null => return .raw .null
    | some (.array items) =>
      .array <$> mapItems (fun item => body.apply types construct ((param, item) :: bindings)) items
    | some other => mismatch "array" other
  | .mapValues source param body => do
    match ← source.input bindings with
    | none => return .undefined
    | some .null => return .raw .null
    | some (.object members) =>
      .map <$> mapItems (fun (name, item) =>
        (name, ·) <$> body.apply types construct ((param, item) :: bindings)) members
    | some other => mismatch "object" other
  | .construct className arg => do
    match ← arg.input bindings with
    | none => return .undefined
    | some found => construct className found
  | .enumLookup enumeration arg => do
    match ← arg.input bindings with
    | some (.number number) => return .raw (.number number)
    | some (.string name) => return lookupMember types enumeration name
    | _ => return .undefined
  | .date arg => return dateOf (← arg.input bindings)
  | .custom script arg => return .scripted script ((← arg.input bindings).getD .null)
  | .inlineObject className arg fields => do
    match ← arg.input bindings with
    | none => return .undefined
    | some .null => return .raw .null
    | some (.object members) =>
      .instance className <$> applyFields types construct bindings members [] fields
    | some other => mismatch "object" other
  | .recursion _ => .ok (.raw .null)

/-- The fields of an object, added to those already set.  A field that the object lacks is left
out. -/
def applyFields (types : ModelTypes) (construct : Constructor) (bindings : Bindings)
    (members : List (String × Json)) (done : List (String × RevivedValue)) :
    List (String × Option Revival) → Outcome (List (String × RevivedValue))
  | [] => .ok done
  | (name, none) :: fields =>
    match members.lookup name with
    | none => applyFields types construct bindings members done fields
    | some raw =>
      applyFields types construct bindings members (Keyed.set name (.raw raw) done) fields
  | (name, some revival) :: fields =>
    match members.lookup name with
    | none => applyFields types construct bindings members done fields
    | some _ => do
      let value ← revival.apply types construct bindings
      applyFields types construct bindings members (Keyed.set name value done) fields

end

end Revival

namespace ModelTypes

open Revival (Outcome)

/-- The fields of an instance, added to those already set.  `apply` evaluates a property's
revival. -/
def instanceFields (apply : Revival → Outcome RevivedValue) (members : List (String × Json))
    (done : List (String × RevivedValue)) :
    List ModelProperty → Outcome (List (String × RevivedValue))
  | [] => .ok done
  | p :: rest =>
    match members.lookup p.name with
    | none => instanceFields apply members done rest
    | some raw => do
      let value ←
        match p.revival with
        | some revival => apply revival
        | none => .ok (.raw raw)
      instanceFields apply members (Keyed.set p.name value done) rest

/-- How an instance of a class is made, given how the instances within it are. -/
def constructBy (types : ModelTypes) (within : Revival.Constructor) : Revival.Constructor :=
  fun className value =>
    match value with
    | .null => .ok (.raw .null)
    | .object members =>
      if (types.class? className).isNone then .error (.unknownClass className)
      else
        let apply := Revival.apply types within [("data", value)]
        .instance className <$> instanceFields apply members [] (types.propertiesOf className)
    | other => Revival.mismatch "object" other

/-- An instance of a class, with at most `limit` constructions nested in each other. -/
def constructWithin (types : ModelTypes) : Nat → Revival.Constructor
  | 0 => fun _ _ => .error .tooDeep
  | limit + 1 => types.constructBy (types.constructWithin limit)

/-- An instance of a class (section 4.7, `construct`). -/
def construct (types : ModelTypes) (className : String) (value : Json) : Outcome RevivedValue :=
  types.constructWithin (value.depth + 1) className value

/-- The value of an expression, given the values of names (section 4.7, `evaluate`). -/
def evaluate (types : ModelTypes) (revival : Revival) (values : List (String × Json)) :
    Outcome RevivedValue :=
  let bindings := Bindings.ofList values
  let limit := bindings.foldl (fun most binding => max most binding.2.depth) 0
  revival.apply types (types.constructWithin (limit + 1)) bindings

end ModelTypes

end DataContract
