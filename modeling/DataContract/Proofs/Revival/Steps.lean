import DataContract.Proofs.ValueType.Layers
import DataContract.Revival.Evaluate
import DataContract.Revival.Synthesis

/-!
# Revivals layer by layer

The expression for a type maps the layers of the type, and takes one step at the innermost type.
Which step that is depends only on the innermost type and on a script; where there is none, there is
no expression.

Results:

* `ValueType.reviver_of_items`, `ValueType.reviver_of_entries`, `ValueType.reviver_of_innermost`:
  the expression for a type from the one for what its outermost layer holds.
* `ValueType.isSome_reviver_eq`: there is an expression exactly when there is a step.
* `Revival.apply_mapArray`, `Revival.apply_mapValues`: the value of a map from the one that its
  source takes.
-/

namespace DataContract

/-! ## Steps -/

/-- What is done with the innermost elements of a type. -/
inductive Step where
  /-- A script takes over. -/
  | script (text : String)
  | date
  /-- The member of an enumeration is looked up. -/
  | lookup (enumeration : String)
  /-- An instance of a class is made. -/
  | instance (className : String)

/-- The expression that takes a step. -/
def Step.revival (make : ObjectMaker) (value : Revival) (depth : ℕ) : Step → Revival
  | .script text => .custom text value
  | .date => .date value
  | .lookup enumeration => .enumLookup enumeration value
  | .instance className => make className value depth

namespace ValueType

/-- The step at the innermost elements of a type, none for elements that are fine as they are.  A
script takes the place of any other step. -/
def step? (type : ValueType) (custom : Option String) : Option Step :=
  match custom with
  | some script => some (.script script)
  | none =>
    match type.innermost.shape, type.innermost.userDefined with
    | .scalar .date, _ => some .date
    | .enum, true => some (.lookup type.innermost.name)
    | .object, true => some (.instance type.innermost.name)
    | _, _ => none

/-- Instances are made of the values of a discovered object type, unless a script takes over. -/
theorem step?_eq_instance_iff {type : ValueType} {custom : Option String} {c : String} :
    type.step? custom = some (.instance c) ↔ custom = none ∧ type.innermost.shape = .object ∧
      type.innermost.userDefined = true ∧ type.innermost.name = c := by
  unfold step?
  cases custom with
  | some script => simp
  | none =>
    generalize type.innermost = inner
    obtain ⟨name, shape, optional, userDefined⟩ := inner
    cases shape with
    | scalar kind => cases kind <;> simp
    | _ => cases userDefined <;> simp

section Layers

variable {type inner : ValueType} {custom : Option String}

theorem step?_congr (h : type.innermost = inner.innermost) :
    type.step? custom = inner.step? custom := by
  unfold step?
  rw [h]

theorem step?_of_items (h : type.layer = .items inner) :
    type.step? custom = inner.step? custom :=
  step?_congr (innermost_of_items h)

theorem step?_of_entries (h : type.layer = .entries inner) :
    type.step? custom = inner.step? custom :=
  step?_congr (innermost_of_entries h)

variable (make : ObjectMaker) (source : Revival) (depth : ℕ)

/-- An array is mapped with the expression for its elements. -/
theorem reviver_of_items (h : type.layer = .items inner) :
    type.reviver make custom source depth =
      (inner.reviver make custom (.value (mapParameter depth)) (depth + 1)).map
        (.mapArray source (mapParameter depth) ·) := by
  obtain ⟨name, shape, optional, userDefined⟩ := type
  cases shape <;> cases h
  rw [reviver, ValueShape.reviver]

/-- A dictionary is mapped with the expression for its values, which may be arrays. -/
theorem reviver_of_entries (h : type.layer = .entries inner) :
    type.reviver make custom source depth =
      (inner.reviver make custom (.value (mapParameter depth)) (depth + 1)).map
        (.mapValues source (mapParameter depth) ·) := by
  obtain ⟨name, shape, optional, userDefined⟩ := type
  cases shape with
  | dictionary key value =>
    cases h
    rw [reviver, ValueShape.reviver]
  | dictionaryOfArrays key element =>
    cases h
    have harray : element.arrayOf.reviver make custom (.value (mapParameter depth)) (depth + 1) =
        (element.reviver make custom (.value (mapParameter (depth + 1))) (depth + 2)).map
          (.mapArray (.value (mapParameter depth)) (mapParameter (depth + 1)) ·) :=
      reviver_of_items make _ _ rfl
    rw [harray, Option.map_map, reviver, ValueShape.reviver]
    rfl
  | _ => cases h

/-- At the innermost type the step is taken. -/
theorem reviver_of_innermost (h : type.layer = .innermost) :
    type.reviver make custom source depth =
      (type.step? custom).map (·.revival make source depth) := by
  have hself := innermost_eq_self h
  unfold step?
  rw [hself]
  obtain ⟨name, shape, optional, userDefined⟩ := type
  cases shape with
  | arrayOf element => cases h
  | dictionary key value => cases h
  | dictionaryOfArrays key element => cases h
  | scalar kind =>
    rw [reviver, ValueShape.reviver]
    cases custom <;> cases kind <;> rfl
  | object =>
    rw [reviver, ValueShape.reviver]
    cases custom <;> cases userDefined <;> rfl
  | enum =>
    rw [reviver, ValueShape.reviver]
    cases custom <;> cases userDefined <;> rfl

end Layers

/-- There is an expression for a type exactly when there is a step at its innermost elements. -/
theorem isSome_reviver_eq (make : ObjectMaker) (custom : Option String) (type : ValueType) :
    ∀ (source : Revival) (depth : ℕ),
      (type.reviver make custom source depth).isSome = (type.step? custom).isSome := by
  induction type using layer_induction with
  | items type element h ih =>
    intro source depth
    rw [reviver_of_items make source depth h, Option.isSome_map, ih, step?_of_items h]
  | entries type value h ih =>
    intro source depth
    rw [reviver_of_entries make source depth h, Option.isSome_map, ih, step?_of_entries h]
  | innermost type h =>
    intro source depth
    rw [reviver_of_innermost make source depth h, Option.isSome_map]

section Existence

variable {make : ObjectMaker} {custom : Option String} {type : ValueType} {source : Revival}
  {depth : ℕ}

theorem step?_eq_none_of_reviver (h : type.reviver make custom source depth = none) :
    type.step? custom = none := by
  have hsome := isSome_reviver_eq make custom type source depth
  rw [h] at hsome
  simpa using hsome.symm

theorem exists_step_of_reviver {revival : Revival}
    (h : type.reviver make custom source depth = some revival) :
    ∃ step, type.step? custom = some step := by
  have hsome := isSome_reviver_eq make custom type source depth
  rw [h] at hsome
  exact Option.isSome_iff_exists.mp hsome.symm

end Existence

end ValueType

/-! ## Maps -/

namespace Revival

section Failures

variable {α β : Type} {failure : Failure}

theorem bind_eq_error {outcome : Outcome α} {f : α → Outcome β}
    (h : (outcome >>= f) = .error failure) :
    outcome = .error failure ∨ ∃ value, outcome = .ok value ∧ f value = .error failure := by
  cases outcome with
  | error other =>
    cases h
    exact Or.inl rfl
  | ok value => exact Or.inr ⟨value, rfl, h⟩

theorem error_of_map {f : α → β} {outcome : Outcome α} (h : f <$> outcome = .error failure) :
    outcome = .error failure := by
  cases outcome with
  | error other =>
    cases h
    rfl
  | ok value => cases h

/-- To apply a function to each item of a list fails only where it fails for an item. -/
theorem exists_of_mapItems_error {f : α → Outcome β} {items : List α}
    (h : mapItems f items = .error failure) : ∃ item ∈ items, f item = .error failure := by
  induction items with
  | nil => cases h
  | cons item items ih =>
    rcases bind_eq_error h with hitem | ⟨first, -, h⟩
    · exact ⟨item, by simp, hitem⟩
    · rcases bind_eq_error h with hothers | ⟨others, -, h⟩
      · obtain ⟨other, hmem, hfailure⟩ := ih hothers
        exact ⟨other, by simp [hmem], hfailure⟩
      · cases h

end Failures

variable {types : ModelTypes} {construct : Constructor} {bindings : Bindings}
  {source body : Revival} {param : String} {found : Option Json}

/-- A mapped array is the array of the bodies; null stays, and so does a missing source. -/
theorem apply_mapArray (h : source.input bindings = .ok found) :
    (mapArray source param body).apply types construct bindings =
      found.elim (.ok .undefined) fun
        | .null => .ok (.raw .null)
        | .array items => .array <$>
            mapItems (fun item => body.apply types construct ((param, item) :: bindings)) items
        | other => mismatch "array" other := by
  rw [apply]
  simp only [h]
  rcases found with - | (- | - | - | - | items | members) <;> rfl

/-- A mapped dictionary has the bodies under its keys; null stays, and so does a missing source. -/
theorem apply_mapValues (h : source.input bindings = .ok found) :
    (mapValues source param body).apply types construct bindings =
      found.elim (.ok .undefined) fun
        | .null => .ok (.raw .null)
        | .object members => .map <$>
            mapItems (fun member =>
              (member.1, ·) <$> body.apply types construct ((param, member.2) :: bindings)) members
        | other => mismatch "object" other := by
  rw [apply]
  simp only [h]
  rcases found with - | (- | - | - | - | items | members) <;> rfl

/-- The parameter of a map takes the item that is bound to it. -/
theorem input_param (param : String) (item : Json) (bindings : Bindings) :
    (Revival.value param).input ((param, item) :: bindings) = .ok (some item) := by
  simp [input]

end Revival

end DataContract
