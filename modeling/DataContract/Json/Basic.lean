import DataContract.Double.Shortest

/-!
# JSON values

Values as they are revived and as documents and models are written.  The members of an object
keep the order in which they are listed.

Specification (`SPEC_FULL.md`, part II): section 10.4, the values of JSON.

Contents:

* `Json.Number`: an integer, or a double for what is written with a point or an exponent or is
  too large.
* `Json`: the values.
* `Json.member?`: a member of an object by its name.
* `Json.depth`: how deeply arrays and objects are nested.
-/

namespace DataContract

/-- A number. -/
inductive Json.Number where
  | int (value : Int)
  | double (value : Double)
  deriving DecidableEq, Inhabited, Repr

/-- A JSON value. -/
inductive Json where
  | null
  | bool (value : Bool)
  | number (value : Json.Number)
  | string (value : String)
  | array (items : List Json)
  | object (members : List (String × Json))
  deriving Inhabited, Repr

namespace Json

/-! ## Numbers -/

/-- The number equals zero. -/
def Number.isZero : Number → Bool
  | .int value => value == 0
  | .double value => value.isZero

/-- The text of a number. -/
def Number.render : Number → String
  | .int value => toString value
  | .double value => value.render

/-- An integer as a value. -/
def ofInt (value : Int) : Json := .number (.int value)

/-- A natural number as a value. -/
def ofNat (value : Nat) : Json := .number (.int value)

/-- A text, or null for none. -/
def ofString? (value : Option String) : Json := value.elim .null .string

/-! ## Access -/

/-- The member of that name, none for a value that is no object. -/
def member? (name : String) : Json → Option Json
  | .object members => members.lookup name
  | _ => none

/-- The word for the kind of a value. -/
def kind : Json → String
  | .null => "null"
  | .bool _ => "boolean"
  | .number _ => "number"
  | .string _ => "string"
  | .array _ => "array"
  | .object _ => "object"

/-! ## Nesting -/

mutual

/-- The number of arrays and objects around the innermost value. -/
def depth : Json → Nat
  | .array items => depthItems items + 1
  | .object members => depthMembers members + 1
  | _ => 0

/-- The greatest depth of the items. -/
def depthItems : List Json → Nat
  | [] => 0
  | item :: items => max item.depth (depthItems items)

/-- The greatest depth of the members. -/
def depthMembers : List (String × Json) → Nat
  | [] => 0
  | (_, value) :: members => max value.depth (depthMembers members)

end

/-- An item lies less deep than its array. -/
theorem depth_lt_of_mem {item : Json} {items : List Json} (h : item ∈ items) :
    item.depth < (Json.array items).depth := by
  rw [depth]
  induction items with
  | nil => simp at h
  | cons first rest ih =>
    rw [depthItems]
    rcases List.mem_cons.1 h with rfl | hr
    · omega
    · have := ih hr; omega

/-- The value of a member lies less deep than its object. -/
theorem depth_lt_of_member {name : String} {value : Json} {members : List (String × Json)}
    (h : (name, value) ∈ members) : value.depth < (Json.object members).depth := by
  rw [depth]
  induction members with
  | nil => simp at h
  | cons first rest ih =>
    obtain ⟨other, first⟩ := first
    rw [depthMembers]
    rcases List.mem_cons.1 h with he | hr
    · injection he with _ he; subst he; omega
    · have := ih hr; omega

end Json

end DataContract
