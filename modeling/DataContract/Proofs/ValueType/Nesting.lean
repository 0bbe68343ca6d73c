import DataContract.Proofs.Text.Identifier
import DataContract.Proofs.ValueType.Layers

/-!
# What an annotation tells

An annotation tells how arrays and dictionaries are nested, how the keys of each dictionary are
represented, and what is written for the innermost type.  It does not tell what is nullable, and a
dictionary of arrays is written like a dictionary whose values are arrays.  Nothing else is lost:
the brackets that end an annotation are those of the outermost layer, also where the two ways to
write an array meet.

Results:

* `arrayText_inj`, `dictionaryText_inj`: the text of a layer tells what is within it.
* `Nesting.text_inj`: the text of an annotation can be read in one way only.
* `ValueType.render_eq_iff`: types are annotated alike when they agree in what an annotation tells.
-/

namespace DataContract

/-! ## Nesting -/

/-- What an annotation tells of a type. -/
inductive Nesting where
  /-- A type without layers, with what is written for it. -/
  | leaf (name : String)
  | array (element : Nesting)
  | dictionary (key : KeyKind) (value : Nesting)
  deriving DecidableEq, Repr

namespace Nesting

/-- The annotation is that of a dictionary. -/
def isDictionary : Nesting → Bool
  | .dictionary _ _ => true
  | .leaf _ | .array _ => false

/-- What is written for the innermost type. -/
def name : Nesting → String
  | .leaf name => name
  | .array element => element.name
  | .dictionary _ value => value.name

/-- The text of an annotation. -/
def text : Nesting → String
  | .leaf name => name
  | .array element => arrayText element.isDictionary element.text
  | .dictionary key value => dictionaryText key value.text

end Nesting

mutual

/-- What the annotation of a type tells. -/
def ValueType.nesting : ValueType → Nesting
  | ⟨name, shape, _, _⟩ => shape.nesting name

/-- What the annotation of a shape tells, with this name of the innermost type. -/
def ValueShape.nesting (name : String) : ValueShape → Nesting
  | .scalar kind => .leaf kind.render
  | .object | .enum => .leaf name
  | .arrayOf element => .array element.nesting
  | .dictionary key value => .dictionary key value.nesting
  | .dictionaryOfArrays key element => .dictionary key (.array element.nesting)

end

/-! ## The text of a layer -/

section Texts

variable {ofDictionary ofDictionary' : Bool} {key key' : KeyKind} {inner inner' : String}

theorem getLast?_arrayText (ofDictionary : Bool) (inner : String) :
    (arrayText ofDictionary inner).toList.getLast? = some (if ofDictionary then '>' else ']') := by
  cases ofDictionary <;> simp [arrayText, List.getLast?_append, List.getLast?_cons]

theorem getLast?_dictionaryText (key : KeyKind) (inner : String) :
    (dictionaryText key inner).toList.getLast? = some '\x7d' := by
  simp [dictionaryText, List.getLast?_append, List.getLast?_cons]

theorem arrayText_ne_dictionaryText : arrayText ofDictionary inner ≠ dictionaryText key inner' := by
  intro h
  have hlast := congrArg (fun text => text.toList.getLast?) h
  simp only [getLast?_arrayText, getLast?_dictionaryText] at hlast
  cases ofDictionary <;> cases hlast

/-- The brackets of an array tell whether dictionaries are in it. -/
theorem arrayText_inj : arrayText ofDictionary inner = arrayText ofDictionary' inner' ↔
    ofDictionary = ofDictionary' ∧ inner = inner' := by
  refine ⟨fun h => ?_, by rintro ⟨rfl, rfl⟩; rfl⟩
  have hlast := congrArg (fun text => text.toList.getLast?) h
  simp only [getLast?_arrayText, Option.some.injEq] at hlast
  obtain rfl : ofDictionary = ofDictionary' := by
    revert hlast
    cases ofDictionary <;> cases ofDictionary' <;> decide
  refine ⟨rfl, ?_⟩
  cases ofDictionary
  · exact String.append_left_inj _ |>.mp h
  · exact String.append_right_inj _ |>.mp (String.append_left_inj _ |>.mp h)

theorem dictionaryText_inj :
    dictionaryText key inner = dictionaryText key' inner' ↔ key = key' ∧ inner = inner' := by
  refine ⟨fun h => ?_, by rintro ⟨rfl, rfl⟩; rfl⟩
  rw [← String.toList_inj] at h
  rw [← String.toList_inj]
  cases key <;> cases key' <;> simp_all [dictionaryText, KeyKind.render]

/-- An identifier does not end with the brackets of a layer. -/
theorem ne_arrayText {name : String} (h : Text.isIdentifier name = true) :
    name ≠ arrayText ofDictionary inner := by
  rintro rfl
  have hlast := Text.isWord_of_isIdentifier h _
    (List.mem_of_getLast? (getLast?_arrayText ofDictionary inner))
  revert hlast
  cases ofDictionary <;> decide

theorem ne_dictionaryText {name : String} (h : Text.isIdentifier name = true) :
    name ≠ dictionaryText key inner := by
  rintro rfl
  have hlast := Text.isWord_of_isIdentifier h _
    (List.mem_of_getLast? (getLast?_dictionaryText key inner))
  exact absurd hlast (by decide)

end Texts

/-! ## Reading an annotation -/

/-- The text of an annotation can be read in one way only. -/
theorem Nesting.text_inj {a b : Nesting} (ha : Text.isIdentifier a.name = true)
    (hb : Text.isIdentifier b.name = true) : a.text = b.text ↔ a = b := by
  refine ⟨fun h => ?_, congrArg text⟩
  induction a generalizing b with
  | leaf name =>
    cases b with
    | leaf other => exact congrArg leaf h
    | array element => exact absurd h (ne_arrayText ha)
    | dictionary key value => exact absurd h (ne_dictionaryText ha)
  | array element ih =>
    cases b with
    | leaf other => exact absurd h.symm (ne_arrayText hb)
    | array other => rw [ih (b := other) ha hb (arrayText_inj.mp h).2]
    | dictionary key value => exact absurd h arrayText_ne_dictionaryText
  | dictionary key value ih =>
    cases b with
    | leaf other => exact absurd h.symm (ne_dictionaryText hb)
    | array other => exact absurd h.symm arrayText_ne_dictionaryText
    | dictionary key' other =>
      obtain ⟨rfl, hinner⟩ := dictionaryText_inj.mp h
      rw [ih (b := other) ha hb hinner]

/-! ## The annotation of a type -/

namespace ValueType

variable {type inner : ValueType}

/-- Beneath an array the annotation is that of its elements. -/
theorem nesting_of_items (h : type.layer = .items inner) :
    type.nesting = .array inner.nesting ∧
      type.render = arrayText inner.keyKind?.isSome inner.render := by
  obtain ⟨name, shape, optional, userDefined⟩ := type
  cases shape <;> cases h
  exact ⟨rfl, rfl⟩

/-- Beneath a dictionary, also one of arrays, the annotation is that of its values. -/
theorem nesting_of_entries (h : type.layer = .entries inner) :
    ∃ key, type.nesting = .dictionary key inner.nesting ∧
      type.render = dictionaryText key inner.render := by
  obtain ⟨name, shape, optional, userDefined⟩ := type
  cases shape with
  | dictionary key value =>
    cases h
    exact ⟨key, rfl, rfl⟩
  | dictionaryOfArrays key element =>
    cases h
    exact ⟨key, rfl, rfl⟩
  | _ => cases h

theorem nesting_of_innermost (h : type.layer = .innermost) :
    type.nesting = .leaf type.render := by
  obtain ⟨name, shape, optional, userDefined⟩ := type
  cases shape <;> first | rfl | cases h

/-- The annotation is a dictionary's when the type is one. -/
theorem isDictionary_nesting (type : ValueType) :
    type.nesting.isDictionary = type.keyKind?.isSome := by
  obtain ⟨name, shape, optional, userDefined⟩ := type
  cases shape <;> rfl

/-- What is written for a type is the text of what its annotation tells. -/
theorem render_eq_text (type : ValueType) : type.render = type.nesting.text := by
  induction type using layer_induction with
  | items type element h ih =>
    obtain ⟨hnesting, hrender⟩ := nesting_of_items h
    rw [hnesting, hrender, Nesting.text, isDictionary_nesting, ih]
  | entries type value h ih =>
    obtain ⟨key, hnesting, hrender⟩ := nesting_of_entries h
    rw [hnesting, hrender, Nesting.text, ih]
  | innermost type h => rw [nesting_of_innermost h, Nesting.text]

theorem name_nesting (type : ValueType) : type.nesting.name = type.innermost.render := by
  induction type using layer_induction with
  | items type element h ih =>
    rw [(nesting_of_items h).1, Nesting.name, ih, innermost_of_items h]
  | entries type value h ih =>
    obtain ⟨key, hnesting, -⟩ := nesting_of_entries h
    rw [hnesting, Nesting.name, ih, innermost_of_entries h]
  | innermost type h => rw [nesting_of_innermost h, Nesting.name, innermost_eq_self h]

/-- An object or an enumeration at the inmost has an identifier as its name. -/
def WellNamed (type : ValueType) : Prop :=
  type.innermost.isObject = true ∨ type.innermost.isEnum = true →
    Text.isIdentifier type.innermost.name = true

instance (type : ValueType) : Decidable type.WellNamed :=
  inferInstanceAs (Decidable (_ ∨ _ → _))

/-- The annotation of a scalar is an identifier, too. -/
theorem isIdentifier_nesting (h : type.WellNamed) :
    Text.isIdentifier type.nesting.name = true := by
  rw [name_nesting]
  have hlayer := type.layer_innermost
  rw [WellNamed] at h
  generalize type.innermost = inner at h hlayer
  obtain ⟨name, shape, optional, userDefined⟩ := inner
  cases shape with
  | scalar kind =>
    show Text.isIdentifier kind.render = true
    cases kind <;> decide
  | object => exact h (Or.inl rfl)
  | enum => exact h (Or.inr rfl)
  | _ => cases hlayer

/-- Two types are annotated alike when they have the same arrays and dictionaries around what is
written alike, and the same kinds of keys.  What is nullable, the origin of a type and the names
that the layers around it bear make no difference, nor does it whether a dictionary takes the
arrays that are its values into its shape. -/
theorem render_eq_iff {a b : ValueType} (ha : a.WellNamed) (hb : b.WellNamed) :
    a.render = b.render ↔ a.nesting = b.nesting := by
  rw [render_eq_text, render_eq_text]
  exact Nesting.text_inj (isIdentifier_nesting ha) (isIdentifier_nesting hb)

/-- An item of a shop. -/
def item : ValueType := { name := "Item", shape := .object, optional := false, userDefined := true }

/-- Items on numbered shelves. -/
def shelves : ValueType where
  name := "Item"
  shape := .dictionaryOfArrays .numeric item
  optional := false
  userDefined := true

/-- The shelves as a nullable dictionary whose values are arrays. -/
def nullableShelves : ValueType where
  name := "Shelves"
  shape := .dictionary .numeric
    { name := "Shelf", shape := .arrayOf item, optional := true, userDefined := false }
  optional := true
  userDefined := false

/-- Boxes in a row, with one item under each number. -/
def boxes : ValueType where
  name := "Item"
  shape := .arrayOf { item with shape := .dictionary .numeric item }
  optional := false
  userDefined := true

/-- The two kinds of shelves are annotated alike, and boxes in another way. -/
theorem shelves_alike : (shelves.WellNamed ∧ nullableShelves.WellNamed ∧ boxes.WellNamed) ∧
    shelves.render = nullableShelves.render ∧ shelves.render ≠ boxes.render := by
  have hshelves : shelves.WellNamed := by decide
  have hnullable : nullableShelves.WellNamed := by decide
  have hboxes : boxes.WellNamed := by decide
  exact ⟨⟨hshelves, hnullable, hboxes⟩, (render_eq_iff hshelves hnullable).mpr rfl,
    mt (render_eq_iff hshelves hboxes).mp (by decide)⟩

end ValueType

end DataContract
