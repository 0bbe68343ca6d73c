import DataContract.Json.Basic

/-!
# JSON text as a tree

The structure of a text that is meant to be JSON, complete up to the first fault.  Whether a
fault counts, and which one is met first, depends on what the text is read for: a value that is
passed over may hold numbers beyond all doubles and surrogates without a partner, a value that is
read may not.  So the tree keeps both, and every way of reading it goes through it from the front.

Specification (`SPEC_FULL.md`, part II): section 10.4, the JSON that is read.

Contents:

* `Json.Flaw`, `Json.Fault`: how a text fails to be JSON.
* `Source`, `Source.Items`, `Source.Members`: the tree.
* `Source.flawPassing?`: the first flaw met when the value is passed over.
* `Source.flawReading?`: the first flaw met when all of the value is read.
* `Source.ofJson`: the text of a value, which has no fault.
-/

namespace DataContract

/-- How a text fails to be JSON. -/
inductive Json.Flaw where
  /-- A character stands where none of its kind can, or a literal denotes nothing. -/
  | malformed
  /-- The text ends too early. -/
  | truncated
  deriving DecidableEq, Inhabited, Repr

/-- A place from which a text cannot go on to be JSON. -/
structure Json.Fault where
  /-- What is wrong when the value is read. -/
  reading : Json.Flaw
  /-- What is wrong when the value is passed over. -/
  passing : Json.Flaw
  /-- A number or a word has begun before the fault. -/
  begun : Bool
  deriving DecidableEq, Inhabited, Repr

/-- A fault that is the same for every reader. -/
def Json.Fault.plain (flaw : Json.Flaw) : Json.Fault := ⟨flaw, flaw, false⟩

/-- A string literal. -/
structure Json.Literal where
  /-- The text, up to the first surrogate that has no partner. -/
  text : String
  /-- Every surrogate has its partner. -/
  paired : Bool
  deriving DecidableEq, Inhabited, Repr

mutual

/-- The text of a value. -/
inductive Source where
  | null
  | bool (value : Bool)
  /-- A number; none when it is beyond the greatest double. -/
  | number (value : Option Json.Number)
  | string (literal : Json.Literal)
  | array (items : Source.Items)
  | object (members : Source.Members)
  /-- The text cannot go on within this value. -/
  | broken (fault : Json.Fault)

/-- The rest of an array. -/
inductive Source.Items where
  | close
  /-- Neither a comma nor the closing bracket follows. -/
  | cut (flaw : Json.Flaw)
  | item (value : Source) (rest : Source.Items)

/-- The rest of an object. -/
inductive Source.Members where
  | close
  /-- Neither a comma nor the closing brace follows. -/
  | cut (flaw : Json.Flaw)
  /-- No key stands where one must. -/
  | noKey (fault : Json.Fault)
  | member (key : Json.Literal) (value : Source) (rest : Source.Members)

end

namespace Source

/-! ## Passing a value over -/

mutual

/-- The first flaw met when the value is passed over. -/
def flawPassing? : Source → Option Json.Flaw
  | .array items => items.flawPassing?
  | .object members => members.flawPassing?
  | .broken fault => some fault.passing
  | .null | .bool _ | .number _ | .string _ => none

/-- The first flaw met when the items are passed over. -/
def Items.flawPassing? : Items → Option Json.Flaw
  | .close => none
  | .cut flaw => some flaw
  | .item value rest => value.flawPassing?.orElse fun _ => rest.flawPassing?

/-- The first flaw met when the members are passed over. -/
def Members.flawPassing? : Members → Option Json.Flaw
  | .close => none
  | .cut flaw => some flaw
  | .noKey fault => some fault.passing
  | .member _ value rest => value.flawPassing?.orElse fun _ => rest.flawPassing?

end

/-! ## Reading a value whole -/

/-- The number of brackets of which the innermost is one too many for a text that is read. -/
def tooDeep : Nat := 128

/-- The flaw of a string literal when it is read. -/
def flawOf? (literal : Json.Literal) : Option Json.Flaw :=
  if literal.paired then none else some .malformed

mutual

/-- The first flaw met when all of the value is read, with `level` brackets around it. -/
def flawReading? (level : Nat) : Source → Option Json.Flaw
  | .null | .bool _ | .number (some _) => none
  | .number none => some .malformed
  | .string literal => flawOf? literal
  | .array items =>
    if tooDeep ≤ level + 1 then some .malformed else items.flawReading? (level + 1)
  | .object members =>
    if tooDeep ≤ level + 1 then some .malformed else members.flawReading? (level + 1)
  | .broken fault => some fault.reading

/-- The first flaw met when all of the items are read. -/
def Items.flawReading? (level : Nat) : Items → Option Json.Flaw
  | .close => none
  | .cut flaw => some flaw
  | .item value rest => (value.flawReading? level).orElse fun _ => rest.flawReading? level

/-- The first flaw met when all of the members are read. -/
def Members.flawReading? (level : Nat) : Members → Option Json.Flaw
  | .close => none
  | .cut flaw => some flaw
  | .noKey fault => some fault.reading
  | .member key value rest =>
    (flawOf? key).orElse fun _ =>
      (value.flawReading? level).orElse fun _ => rest.flawReading? level

end

/-! ## The text of a value -/

mutual

/-- The text of a value. -/
def ofJson : Json → Source
  | .null => .null
  | .bool value => .bool value
  | .number value => .number (some value)
  | .string text => .string ⟨text, true⟩
  | .array items => .array (ofItems items)
  | .object members => .object (ofMembers members)

/-- The text of the items of an array. -/
def ofItems : List Json → Items
  | [] => .close
  | item :: items => .item (ofJson item) (ofItems items)

/-- The text of the members of an object. -/
def ofMembers : List (String × Json) → Members
  | [] => .close
  | (name, value) :: members => .member ⟨name, true⟩ (ofJson value) (ofMembers members)

end

/-! ## The value of a text -/

/-- Adds a member to members in ascending order of their names.  A name that is there already
takes the new value. -/
def insertMember (name : String) (value : Json) : List (String × Json) → List (String × Json)
  | [] => [(name, value)]
  | (other, old) :: rest =>
    if name < other then (name, value) :: (other, old) :: rest
    else if name = other then (name, value) :: rest
    else (other, old) :: insertMember name value rest

mutual

/-- The value of a text without flaw.  Members stand in ascending order of their names, and of
several with one name the last counts. -/
def toJson : Source → Json
  | .null => .null
  | .bool value => .bool value
  | .number value => value.elim .null .number
  | .string literal => .string literal.text
  | .array items => .array items.toList
  | .object members => .object (members.sortedOnto [])
  | .broken _ => .null

/-- The values of the items. -/
def Items.toList : Items → List Json
  | .item value rest => value.toJson :: rest.toList
  | .close | .cut _ => []

/-- The members added to sorted ones. -/
def Members.sortedOnto (sorted : List (String × Json)) : Members → List (String × Json)
  | .member key value rest => rest.sortedOnto (insertMember key.text value.toJson sorted)
  | .close | .cut _ | .noKey _ => sorted

end

end Source

end DataContract
