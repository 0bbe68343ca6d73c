import DataContract.Config.Basic
import DataContract.Model.Types

/-!
# Synthesis of revival expressions

The expression that revives a value of a type, none when the value is fine as it is.  Arrays and
dictionaries are mapped with the expression of their elements; at the innermost type a date, an
enumeration, an object or a script takes over.

Objects are made by their constructor or expanded in place.  In place, every property is expanded
with its own expression, and a class that is met within itself gives a mark instead.

Specification (`SPEC_FULL.md`, part II): section 4.4, `synthesize`.

Contents:

* `mapParameter`: the parameter of a map at a depth of nesting.
* `ValueType.reviver`: the expression for a type, given how objects are made.
* `ModelTypes.expand`: an object expanded in place.
* `ModelTypes.revivalOf`: the expression for a type in a model.
-/

namespace DataContract

/-- The parameter of a map at a depth of nesting (`lambda_param`). -/
def mapParameter : Nat → String
  | 0 => "x"
  | 1 => "y"
  | 2 => "z"
  | depth => s!"x{depth}"

/-- How objects are made: from the class, the value and the depth of nesting. -/
abbrev ObjectMaker := String → Revival → Nat → Revival

/-- The constructor of the class. -/
def ObjectMaker.construct : ObjectMaker := fun className value _ => .construct className value

/-! ## By type -/

/-- The expression at the innermost type (section 4.4, `atomic`).  A script takes the place of any
other step. -/
def innermost (make : ObjectMaker) (custom : Option String) (name : String) (userDefined : Bool)
    (shape : ValueShape) (value : Revival) (depth : Nat) : Option Revival :=
  match custom with
  | some script => some (.custom script value)
  | none =>
    match shape, userDefined with
    | .scalar .date, _ => some (.date value)
    | .enum, true => some (.enumLookup name value)
    | .object, true => some (make name value depth)
    | _, _ => none

mutual

/-- The expression that revives a source of this type within `depth` maps (section 4.4,
`synthesize_at`). -/
def ValueType.reviver (make : ObjectMaker) (custom : Option String) :
    ValueType → Revival → Nat → Option Revival
  | ⟨name, shape, _, userDefined⟩, source, depth =>
    shape.reviver make custom name userDefined source depth

/-- The expression that revives a source of a type of this shape. -/
def ValueShape.reviver (make : ObjectMaker) (custom : Option String) (name : String)
    (userDefined : Bool) : ValueShape → Revival → Nat → Option Revival
  | .arrayOf element, source, depth =>
    let param := mapParameter depth
    (element.reviver make custom (.value param) (depth + 1)).map (.mapArray source param ·)
  | .dictionary _ element, source, depth =>
    let param := mapParameter depth
    (element.reviver make custom (.value param) (depth + 1)).map (.mapValues source param ·)
  | .dictionaryOfArrays _ element, source, depth =>
    let outer := mapParameter depth
    let inner := mapParameter (depth + 1)
    (element.reviver make custom (.value inner) (depth + 2)).map fun body =>
      .mapValues source outer (.mapArray (.value outer) inner body)
  | .scalar kind, source, depth =>
    innermost make custom name userDefined (.scalar kind) source depth
  | .object, source, depth => innermost make custom name userDefined .object source depth
  | .enum, source, depth => innermost make custom name userDefined .enum source depth

end

/-! ## In place -/

namespace ModelTypes

/-- An object of a class expanded in place (section 4.4, `inline_object`).  `enclosing` are the
classes within whose expansion it stands, the cycle guard, and `limit` is at least the number of
classes of the model that are not among them: when none is left, a class that is not enclosing is
not in the model and has no properties. -/
def expand (types : ModelTypes) (limit : Nat) (enclosing : List String) : ObjectMaker :=
  fun className value depth =>
    if className ∈ enclosing then .recursion className
    else
      match limit with
      | 0 => .inlineObject className value []
      | limit + 1 =>
        .inlineObject className value <| (types.propertiesOf className).map fun p =>
          (p.name, p.type.reviver (types.expand limit (enclosing ++ [className]))
            p.customReviver (.member value p.name) depth)

/-! ## In a model -/

/-- How a model makes objects. -/
def maker (types : ModelTypes) : ObjectRevival → ObjectMaker
  | .construct => .construct
  | .inline => types.expand types.classes.length []

/-- The expression that revives a source of a type, with a script for its innermost step
(section 4.4, `synthesize`). -/
def revivalOf (types : ModelTypes) (mode : ObjectRevival) (type : ValueType)
    (custom : Option String) (source : Revival) : Option Revival :=
  type.reviver (types.maker mode) custom source 0

/-- The expression that revives a source that holds a property (`synthesize_property`). -/
def propertyRevival (types : ModelTypes) (mode : ObjectRevival) (p : ModelProperty)
    (source : Revival) : Option Revival :=
  types.revivalOf mode p.type p.customReviver source

/-- The property with the revival of that member of `data`. -/
def reviveProperty (types : ModelTypes) (mode : ObjectRevival) (p : ModelProperty) :
    ModelProperty :=
  { p with revival := types.propertyRevival mode p (.member (.value "data") p.name) }

/-- The classes with the revivals of their properties (`attach_property_revivals`). -/
def attachRevivals (types : ModelTypes) (mode : ObjectRevival) : ModelTypes :=
  { types with
    classes := types.classes.map fun c =>
      { c with properties := c.properties.map (types.reviveProperty mode) } }

end ModelTypes

end DataContract
