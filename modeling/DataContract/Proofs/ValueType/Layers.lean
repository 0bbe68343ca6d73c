import DataContract.ValueType.Resolve
import Mathlib.Tactic.Common

/-!
# The layers of a type

A type is an innermost type with any number of layers around it: arrays, and dictionaries of which
only the values matter here.  A dictionary of arrays is a dictionary whose values are arrays, so it
makes two layers.

Results:

* `ValueType.layer_induction`: a property of types is shown layer by layer.
* `ValueType.innermost_of_items`, `ValueType.innermost_of_entries`: a layer has the innermost type
  of what it holds.
-/

namespace DataContract

/-- What a type is at its outermost. -/
inductive Layer where
  /-- An array of such elements. -/
  | items (element : ValueType)
  /-- A dictionary of such values. -/
  | entries (value : ValueType)
  /-- Neither: the type is its own innermost one. -/
  | innermost

namespace ValueType

/-- The outermost layer of a type. -/
def layer (type : ValueType) : Layer :=
  match type.shape with
  | .arrayOf element => .items element
  | .dictionary _ value => .entries value
  | .dictionaryOfArrays _ element => .entries element.arrayOf
  | .scalar _ | .object | .enum => .innermost

end ValueType

mutual

/-- The type within all layers. -/
def ValueType.innermost : ValueType → ValueType
  | ⟨name, shape, optional, userDefined⟩ =>
    shape.innermost?.getD ⟨name, shape, optional, userDefined⟩

/-- The type within the layers of a shape, none for a shape without layers. -/
def ValueShape.innermost? : ValueShape → Option ValueType
  | .arrayOf element => some element.innermost
  | .dictionary _ value => some value.innermost
  | .dictionaryOfArrays _ element => some element.innermost
  | .scalar _ | .object | .enum => none

end

namespace ValueType

/-- A property of types is shown layer by layer, from the innermost type on. -/
@[elab_as_elim]
theorem layer_induction {motive : ValueType → Prop}
    (items : ∀ type element, type.layer = .items element → motive element → motive type)
    (entries : ∀ type value, type.layer = .entries value → motive value → motive type)
    (innermost : ∀ type, type.layer = .innermost → motive type) : ∀ type, motive type
  | ⟨_, .arrayOf element, _, _⟩ =>
    items _ element rfl (layer_induction items entries innermost element)
  | ⟨_, .dictionary _ value, _, _⟩ =>
    entries _ value rfl (layer_induction items entries innermost value)
  | ⟨_, .dictionaryOfArrays _ element, _, _⟩ =>
    entries _ element.arrayOf rfl
      (items _ element rfl (layer_induction items entries innermost element))
  | ⟨_, .scalar _, _, _⟩ => innermost _ rfl
  | ⟨_, .object, _, _⟩ => innermost _ rfl
  | ⟨_, .enum, _, _⟩ => innermost _ rfl

variable {type inner : ValueType}

theorem innermost_of_items (h : type.layer = .items inner) :
    type.innermost = inner.innermost := by
  obtain ⟨name, shape, optional, userDefined⟩ := type
  cases shape <;> cases h
  rw [innermost, ValueShape.innermost?, Option.getD_some]

theorem innermost_of_entries (h : type.layer = .entries inner) :
    type.innermost = inner.innermost := by
  obtain ⟨name, shape, optional, userDefined⟩ := type
  cases shape with
  | dictionary key value =>
    cases h
    rw [innermost, ValueShape.innermost?, Option.getD_some]
  | dictionaryOfArrays key element =>
    cases h
    have harray : element.arrayOf.innermost = element.innermost := innermost_of_items rfl
    rw [harray, innermost, ValueShape.innermost?, Option.getD_some]
  | _ => cases h

theorem innermost_eq_self (h : type.layer = .innermost) : type.innermost = type := by
  obtain ⟨name, shape, optional, userDefined⟩ := type
  cases shape <;> cases h <;> rw [innermost, ValueShape.innermost?, Option.getD_none]

theorem layer_innermost (type : ValueType) : type.innermost.layer = .innermost := by
  induction type using layer_induction with
  | items type element h ih => rw [innermost_of_items h, ih]
  | entries type value h ih => rw [innermost_of_entries h, ih]
  | innermost type h => rw [innermost_eq_self h, h]

end ValueType

end DataContract
