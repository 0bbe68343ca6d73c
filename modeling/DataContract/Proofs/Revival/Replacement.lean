import DataContract.Proofs.Revival.Steps

/-!
# Copies of the source

Synthesis does not look into the source.  What is synthesized for one is what is synthesized for a
name, with a copy of the source wherever the name stands.  Within a map no copy stands: there the
values are taken from the parameter of the map.

Results:

* `ValueType.reviver_replace`, `ModelTypes.replaces_expand`: synthesis commutes with replacement.
* `ModelTypes.revivalOf_eq_replace`: what is synthesized in a model, as copies of the source.
-/

namespace DataContract

/-! ## Replacement -/

namespace Revival

mutual

/-- The expression with a source in place of a name, where no map binds the name. -/
def replace : Revival → String → Revival → Revival
  | .value other, name, source => if other = name then source else .value other
  | .member object property, name, source => .member (object.replace name source) property
  | .mapArray taken param body, name, source =>
    .mapArray (taken.replace name source) param
      (if param = name then body else body.replace name source)
  | .mapValues taken param body, name, source =>
    .mapValues (taken.replace name source) param
      (if param = name then body else body.replace name source)
  | .construct className input, name, source => .construct className (input.replace name source)
  | .enumLookup enumeration input, name, source =>
    .enumLookup enumeration (input.replace name source)
  | .date input, name, source => .date (input.replace name source)
  | .custom script input, name, source => .custom script (input.replace name source)
  | .inlineObject className input fields, name, source =>
    .inlineObject className (input.replace name source) (replaceInFields fields name source)
  | .recursion className, _, _ => .recursion className

/-- The fields of an object with a source in place of a name. -/
def replaceInFields :
    List (String × Option Revival) → String → Revival → List (String × Option Revival)
  | [], _, _ => []
  | (field, none) :: fields, name, source => (field, none) :: replaceInFields fields name source
  | (field, some revival) :: fields, name, source =>
    (field, some (revival.replace name source)) :: replaceInFields fields name source

end

variable {name : String} {source : Revival}

theorem replaceInFields_eq_map (fields : List (String × Option Revival)) :
    replaceInFields fields name source =
      fields.map fun field => (field.1, field.2.map (·.replace name source)) := by
  induction fields with
  | nil => rfl
  | cons field fields ih =>
    obtain ⟨field, revival⟩ := field
    cases revival <;> simp [replaceInFields, ih]

theorem replace_self : (value name).replace name source = source := by
  rw [replace, if_pos rfl]

end Revival

/-! ## Synthesis -/

/-- An object for a source with another one in place of a name is the object for the source itself
with the other one in place of the name. -/
def ObjectMaker.Replaces (make : ObjectMaker) (name : String) (source : Revival) : Prop :=
  ∀ className (taken : Revival) depth, make className (taken.replace name source) depth =
    (make className taken depth).replace name source

section Synthesis

variable {make : ObjectMaker} {name : String} {source : Revival}

theorem Step.revival_replace (hmake : make.Replaces name source) (step : Step)
    (taken : Revival) (depth : ℕ) :
    step.revival make (taken.replace name source) depth =
      (step.revival make taken depth).replace name source := by
  cases step with
  | «instance» className => exact hmake className taken depth
  | _ => rfl

/-- The expression for a type commutes with replacement.  The induction goes over all sources: for
the parameter of a map it says that nothing is replaced in the body. -/
theorem ValueType.reviver_replace (hmake : make.Replaces name source) (custom : Option String)
    (type : ValueType) : ∀ (taken : Revival) (depth : ℕ),
      type.reviver make custom (taken.replace name source) depth =
        (type.reviver make custom taken depth).map (·.replace name source) := by
  have hbody : ∀ {element : ValueType} {param : String} {depth : ℕ},
      (∀ taken depth, element.reviver make custom (taken.replace name source) depth =
        (element.reviver make custom taken depth).map (·.replace name source)) →
      ∀ body ∈ element.reviver make custom (.value param) depth,
        (if param = name then body else body.replace name source) = body := by
    intro element param depth ih body hbody
    split_ifs with hname
    · rfl
    · have hsame := ih (.value param) depth
      rw [Revival.replace, if_neg hname, hbody, Option.map_some] at hsame
      exact (Option.some.inj hsame).symm
  induction type using ValueType.layer_induction with
  | items type element hlayer ih =>
    intro taken depth
    rw [reviver_of_items _ _ _ hlayer, reviver_of_items _ _ _ hlayer, Option.map_map]
    refine Option.map_congr fun body hmem => ?_
    rw [Function.comp_apply, Revival.replace, hbody ih body hmem]
  | entries type element hlayer ih =>
    intro taken depth
    rw [reviver_of_entries _ _ _ hlayer, reviver_of_entries _ _ _ hlayer, Option.map_map]
    refine Option.map_congr fun body hmem => ?_
    rw [Function.comp_apply, Revival.replace, hbody ih body hmem]
  | innermost type hlayer =>
    intro taken depth
    rw [reviver_of_innermost _ _ _ hlayer, reviver_of_innermost _ _ _ hlayer, Option.map_map]
    exact Option.map_congr fun step _ => step.revival_replace hmake taken depth

namespace ModelTypes

variable (types : ModelTypes)

/-- So does the expansion of an object, as the sources of its properties are members of its own. -/
theorem replaces_expand : ∀ (limit : ℕ) (enclosing : List String),
    (types.expand limit enclosing).Replaces name source := by
  intro limit
  induction limit with
  | zero =>
    intro enclosing c taken depth
    unfold expand
    split_ifs <;> rfl
  | succ limit ih =>
    intro enclosing c taken depth
    unfold expand
    split_ifs
    · rfl
    · rw [Revival.replace, Revival.replaceInFields_eq_map, List.map_map]
      refine congrArg (Revival.inlineObject c (taken.replace name source))
        (List.map_congr_left fun p _ => ?_)
      exact congrArg (p.name, ·)
        (p.type.reviver_replace (ih _) p.customReviver (.member taken p.name) depth)

/-- What is synthesized for a source is what is synthesized for a name, with the source in place of
the name. -/
theorem revivalOf_eq_replace (mode : ObjectRevival) (type : ValueType) (custom : Option String)
    (source : Revival) (name : String) :
    types.revivalOf mode type custom source =
      (types.revivalOf mode type custom (.value name)).map (·.replace name source) := by
  have hmaker : (types.maker mode).Replaces name source := by
    cases mode with
    | construct => exact fun _ _ _ => rfl
    | inline => exact types.replaces_expand _ _
  rw [revivalOf, revivalOf, ← type.reviver_replace hmaker, Revival.replace_self]

end ModelTypes

end Synthesis

end DataContract
