import DataContract.Revival.Synthesis
import Mathlib.Tactic.Common

/-!
# Attached revivals

To attach the revivals of properties to the classes of a model changes neither which properties a
class has nor what is synthesized for a type.

Results:

* `ModelTypes.propertiesOf_attachRevivals`: the properties with their revivals.
* `ModelTypes.revivalOf_attachRevivals`: what is synthesized does not depend on what is attached.
* `ValueType.isSome_reviver`: whether a type needs a revival depends only on the type and on a
  script.
-/

namespace DataContract

namespace ModelTypes

variable (types : ModelTypes) (mode : ObjectRevival)

/-! ## Classes -/

/-- The class with the revivals of its properties. -/
def reviveClass (c : ModelClass) : ModelClass :=
  { c with properties := c.properties.map (types.reviveProperty mode) }

theorem classes_attachRevivals :
    (types.attachRevivals mode).classes = types.classes.map (types.reviveClass mode) := rfl

theorem class?_attachRevivals (name : String) :
    (types.attachRevivals mode).class? name =
      (types.class? name).map (types.reviveClass mode) := by
  rw [class?, class?, classes_attachRevivals, findClass, findClass, List.find?_map]
  rfl

theorem chain_attachRevivals : ∀ (limit : ℕ) (c : Option ModelClass),
    (types.attachRevivals mode).chain limit (c.map (types.reviveClass mode)) =
      (types.chain limit c).map (types.reviveClass mode) := by
  intro limit
  induction limit with
  | zero => intro c; cases c <;> rfl
  | succ limit ih =>
    intro c
    cases c with
    | none => rfl
    | some c =>
      rw [Option.map_some, chain, chain, List.map_cons, ← ih]
      congr 2
      cases hsuper : c.superclass with
      | none => simp [reviveClass, hsuper]
      | some parent => simp [reviveClass, hsuper, class?_attachRevivals]

/-- The properties of a class, inherited ones among them, with their revivals. -/
theorem propertiesOf_attachRevivals (name : String) :
    (types.attachRevivals mode).propertiesOf name =
      (types.propertiesOf name).map (types.reviveProperty mode) := by
  rw [propertiesOf, propertiesOf, class?_attachRevivals, classes_attachRevivals,
    List.length_map, chain_attachRevivals, ← List.map_reverse, List.flatMap_map, List.map_flatMap]
  rfl

end ModelTypes

/-! ## Synthesis -/

theorem isSome_innermost (make make' : ObjectMaker) (custom : Option String) (name : String)
    (userDefined : Bool) (shape : ValueShape) (value value' : Revival) (depth depth' : ℕ) :
    (innermost make custom name userDefined shape value depth).isSome =
      (innermost make' custom name userDefined shape value' depth').isSome := by
  cases custom with
  | some script => rfl
  | none =>
    unfold innermost
    dsimp only
    split <;> rfl

mutual

/-- Whether a type needs a revival does not depend on how objects are made, on the source and on
the depth. -/
theorem ValueType.isSome_reviver (make make' : ObjectMaker) (custom : Option String) :
    ∀ (type : ValueType) (source source' : Revival) (depth depth' : ℕ),
      (type.reviver make custom source depth).isSome =
        (type.reviver make' custom source' depth').isSome
  | ⟨name, shape, _, userDefined⟩, source, source', depth, depth' =>
    ValueShape.isSome_reviver make make' custom name userDefined shape source source' depth depth'

theorem ValueShape.isSome_reviver (make make' : ObjectMaker) (custom : Option String)
    (name : String) (userDefined : Bool) :
    ∀ (shape : ValueShape) (source source' : Revival) (depth depth' : ℕ),
      (shape.reviver make custom name userDefined source depth).isSome =
        (shape.reviver make' custom name userDefined source' depth').isSome
  | .arrayOf element, source, source', depth, depth' => by
    rw [ValueShape.reviver, ValueShape.reviver, Option.isSome_map, Option.isSome_map]
    exact ValueType.isSome_reviver make make' custom element _ _ _ _
  | .dictionary _ element, source, source', depth, depth' => by
    rw [ValueShape.reviver, ValueShape.reviver, Option.isSome_map, Option.isSome_map]
    exact ValueType.isSome_reviver make make' custom element _ _ _ _
  | .dictionaryOfArrays _ element, source, source', depth, depth' => by
    rw [ValueShape.reviver, ValueShape.reviver, Option.isSome_map, Option.isSome_map]
    exact ValueType.isSome_reviver make make' custom element _ _ _ _
  | .scalar kind, source, source', depth, depth' => by
    rw [ValueShape.reviver, ValueShape.reviver]
    exact isSome_innermost make make' custom name userDefined _ source source' depth depth'
  | .object, source, source', depth, depth' => by
    rw [ValueShape.reviver, ValueShape.reviver]
    exact isSome_innermost make make' custom name userDefined _ source source' depth depth'
  | .enum, source, source', depth, depth' => by
    rw [ValueShape.reviver, ValueShape.reviver]
    exact isSome_innermost make make' custom name userDefined _ source source' depth depth'

end

namespace ModelTypes

variable (types : ModelTypes) (mode : ObjectRevival)

theorem expand_attachRevivals : ∀ (limit : ℕ) (enclosing : List String),
    (types.attachRevivals mode).expand limit enclosing = types.expand limit enclosing := by
  intro limit
  induction limit with
  | zero => intro enclosing; funext className value depth; rfl
  | succ limit ih =>
    intro enclosing
    funext className value depth
    rw [expand, expand]
    simp only [ih, propertiesOf_attachRevivals, List.map_map]
    rfl

theorem maker_attachRevivals (made : ObjectRevival) :
    (types.attachRevivals mode).maker made = types.maker made := by
  cases made with
  | construct => rfl
  | inline => rw [maker, maker, expand_attachRevivals, classes_attachRevivals, List.length_map]

/-- What is synthesized for a type does not depend on the revivals that are attached. -/
theorem revivalOf_attachRevivals (made : ObjectRevival) (type : ValueType)
    (custom : Option String) (source : Revival) :
    (types.attachRevivals mode).revivalOf made type custom source =
      types.revivalOf made type custom source := by
  rw [revivalOf, revivalOf, maker_attachRevivals]

end ModelTypes

end DataContract
