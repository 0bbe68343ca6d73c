/-!
# Revival expressions

An expression that makes typed values out of decoded JSON.  Its leaves are names to which values
are bound; access to members leads from there to the values that are revived.

Specification (`SPEC_FULL.md`, part II): section 4.4, the expressions that are synthesized.

Contents:

* `Revival`: the expressions.
* `Revival.hasRecursion`: an object type has been met within itself.
-/

namespace DataContract

/-- A revival expression (section 4.4). -/
inductive Revival where
  /-- The value bound to a name. -/
  | value (name : String)
  /-- A member of an object. -/
  | member (object : Revival) (property : String)
  /-- The array of the bodies for each item, which is bound to the parameter. -/
  | mapArray (source : Revival) (param : String) (body : Revival)
  /-- The dictionary of the bodies for each value, which is bound to the parameter. -/
  | mapValues (source : Revival) (param : String) (body : Revival)
  /-- An instance of a class. -/
  | construct (className : String) (input : Revival)
  /-- The member of an enumeration that a text names. -/
  | enumLookup (enumeration : String) (input : Revival)
  /-- A date. -/
  | date (input : Revival)
  /-- What a script makes of the value, for which `$x` stands in it. -/
  | custom (script : String) (input : Revival)
  /-- A copy of an object with some fields revived; a field without expression is only copied. -/
  | inlineObject (className : String) (input : Revival) (fields : List (String × Option Revival))
  /-- An object type that is met within itself. -/
  | recursion (className : String)
  deriving Inhabited, Repr

namespace Revival

mutual

/-- Somewhere in the expression an object type is met within itself (`contains_recursion`). -/
def hasRecursion : Revival → Bool
  | .value _ => false
  | .member object _ => object.hasRecursion
  | .mapArray source _ body => source.hasRecursion || body.hasRecursion
  | .mapValues source _ body => source.hasRecursion || body.hasRecursion
  | .construct _ input => input.hasRecursion
  | .enumLookup _ input => input.hasRecursion
  | .date input => input.hasRecursion
  | .custom _ input => input.hasRecursion
  | .inlineObject _ input fields => input.hasRecursion || fieldsHaveRecursion fields
  | .recursion _ => true

/-- Somewhere in the fields an object type is met within itself. -/
def fieldsHaveRecursion : List (String × Option Revival) → Bool
  | [] => false
  | (_, none) :: fields => fieldsHaveRecursion fields
  | (_, some revival) :: fields => revival.hasRecursion || fieldsHaveRecursion fields

end

end Revival

end DataContract
