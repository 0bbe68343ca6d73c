import DataContract.Proofs.TypeExpr.Spelling
import DataContract.Proofs.ValueType.Layers

/-!
# Resolved types

Resolution goes through the layers of a type expression and puts layers around what it finds at the
innermost type.  So a resolved type has the innermost type that resolution finds there, possibly
made nullable and under the name that was given, and the name and the origin of its innermost type
are its own.

Results:

* `TypeExpr.innermost_mem_components`: an innermost type that is not built in is a component.
* `NameTable.innermost_unwrap`: the innermost type of what is found for an expression.
* `NameTable.labelled_resolve`, `NameTable.name_resolve`, `NameTable.shape_innermost_resolve`: what
  a resolved type takes from its innermost type and from the name that is given.
* `NameTable.userDefined_resolve_iff`: a resolved type is of a discovered type exactly when its
  innermost type has a name in the table.
-/

namespace DataContract

/-! ## The innermost type of an expression -/

namespace TypeExpr

/-- The type within all nullables, sequences and maps, of which the values count. -/
def innermost (t : TypeExpr) : TypeExpr :=
  match _h : t.form with
  | .nullable inner | .sequence inner => inner.innermost
  | .map _ value => value.innermost
  | .void | .scalar _ _ | .declared => t
termination_by t.size
decreasing_by all_goals exact size_lt_of_mem_inner (by simp [_h, Form.inner])

section Innermost

variable {t inner key value : TypeExpr}

theorem innermost_of_nullable (h : t.form = .nullable inner) : t.innermost = inner.innermost := by
  rw [innermost]; split <;> simp_all

theorem innermost_of_sequence (h : t.form = .sequence inner) : t.innermost = inner.innermost := by
  rw [innermost]; split <;> simp_all

theorem innermost_of_map (h : t.form = .map key value) : t.innermost = value.innermost := by
  rw [innermost]; split <;> simp_all

theorem innermost_eq_self (h : t.form.inner = []) : t.innermost = t := by
  rw [innermost]; split <;> simp_all [Form.inner]

/-- A property of expressions is shown layer by layer, from the innermost type on. -/
@[elab_as_elim]
theorem layer_induction {motive : TypeExpr → Prop}
    (nullable : ∀ t inner, t.form = .nullable inner → motive inner → motive t)
    (sequence : ∀ t inner, t.form = .sequence inner → motive inner → motive t)
    (map : ∀ t key value, t.form = .map key value → motive value → motive t)
    (innermost : ∀ t, t.form.inner = [] → motive t) (t : TypeExpr) : motive t := by
  induction t using TypeExpr.innermost.induct with
  | case1 t inner h ih => exact nullable t inner h ih
  | case2 t inner h ih => exact sequence t inner h ih
  | case3 t key value h ih => exact map t key value h ih
  | case4 t h => exact innermost t (by simp [h, Form.inner])
  | case5 t kind numeric h => exact innermost t (by simp [h, Form.inner])
  | case6 t h => exact innermost t (by simp [h, Form.inner])

theorem inner_innermost (t : TypeExpr) : t.innermost.form.inner = [] := by
  induction t using layer_induction with
  | nullable t inner h ih => rw [innermost_of_nullable h, ih]
  | sequence t inner h ih => rw [innermost_of_sequence h, ih]
  | map t key value h ih => rw [innermost_of_map h, ih]
  | innermost t h => rw [innermost_eq_self h, h]

/-- An innermost type that is not built in is a component. -/
theorem innermost_mem_components (hform : t.innermost.form = .declared) :
    t.innermost ∈ t.components := by
  induction t using layer_induction with
  | nullable t inner h ih =>
    rw [innermost_of_nullable h] at hform ⊢
    rw [components_of_nullable h]
    exact ih hform
  | sequence t inner h ih =>
    rw [innermost_of_sequence h] at hform ⊢
    rw [components_of_sequence h]
    exact ih hform
  | map t key value h ih =>
    rw [innermost_of_map h] at hform ⊢
    rw [components_of_map h]
    exact List.mem_append_right _ (ih hform)
  | innermost t h =>
    rw [innermost_eq_self h] at hform ⊢
    rw [components_of_declared hform, List.mem_singleton]

end Innermost

end TypeExpr

/-! ## Layers around a type -/

namespace ValueType

/-- The name and the origin of the innermost type are those of the type. -/
structure Labelled (type : ValueType) : Prop where
  name : type.name = type.innermost.name
  userDefined : type.userDefined = type.innermost.userDefined

theorem Labelled.of_innermost {type : ValueType} (h : type.layer = .innermost) : type.Labelled := by
  constructor <;> rw [innermost_eq_self h]

/-- The types are the same but for being nullable. -/
structure SameButOptional (type other : ValueType) : Prop where
  name : type.name = other.name
  shape : type.shape = other.shape
  userDefined : type.userDefined = other.userDefined

theorem SameButOptional.refl (type : ValueType) : type.SameButOptional type :=
  ⟨rfl, rfl, rfl⟩

theorem SameButOptional.trans {type other third : ValueType} (h : type.SameButOptional other)
    (hother : other.SameButOptional third) : type.SameButOptional third :=
  ⟨h.name.trans hother.name, h.shape.trans hother.shape, h.userDefined.trans hother.userDefined⟩

theorem innermost_asOptional (type : ValueType) :
    type.asOptional.innermost.SameButOptional type.innermost := by
  cases h : type.layer with
  | items element =>
    have hsame : type.asOptional.layer = .items element := h
    rw [innermost_of_items hsame, innermost_of_items h]
    exact .refl _
  | entries value =>
    have hsame : type.asOptional.layer = .entries value := h
    rw [innermost_of_entries hsame, innermost_of_entries h]
    exact .refl _
  | innermost =>
    have hsame : type.asOptional.layer = .innermost := h
    rw [innermost_eq_self hsame, innermost_eq_self h]
    exact ⟨rfl, rfl, rfl⟩

theorem innermost_arrayOf (element : ValueType) : element.arrayOf.innermost = element.innermost :=
  innermost_of_items rfl

theorem innermost_dictionaryOf (key : KeyKind) (value : ValueType) :
    (value.dictionaryOf key).innermost = value.innermost := by
  unfold dictionaryOf
  split
  · rename_i element hshape _
    have hlayer : value.layer = .items element := by rw [layer, hshape]
    rw [innermost_of_items hlayer]
    exact (innermost_of_entries rfl).trans (innermost_arrayOf element)
  · exact innermost_of_entries rfl

theorem Labelled.asOptional {type : ValueType} (h : type.Labelled) : type.asOptional.Labelled := by
  have hinner := innermost_asOptional type
  exact ⟨h.name.trans hinner.name.symm, h.userDefined.trans hinner.userDefined.symm⟩

theorem Labelled.arrayOf {element : ValueType} (h : element.Labelled) :
    element.arrayOf.Labelled := by
  constructor
  · rw [innermost_arrayOf]
    exact h.name
  · rw [innermost_arrayOf]
    exact h.userDefined

theorem Labelled.dictionaryOf {value : ValueType} (h : value.Labelled) (key : KeyKind) :
    (value.dictionaryOf key).Labelled := by
  constructor
  · rw [innermost_dictionaryOf]
    exact h.name
  · rw [innermost_dictionaryOf]
    exact h.userDefined

/-! ## Names that are given -/

@[simp] theorem name_withName (given : String) (type : ValueType) :
    (type.withName given).name = given := by
  cases type
  rfl

@[simp] theorem userDefined_withName (given : String) (type : ValueType) :
    (type.withName given).userDefined = type.userDefined := by
  cases type
  rfl

theorem shape_withName {type : ValueType} (h : type.layer = .innermost) (given : String) :
    (type.withName given).shape = type.shape := by
  obtain ⟨name, shape, optional, userDefined⟩ := type
  cases shape <;> first | rfl | cases h

/-- A name that is given is the one of the innermost type. -/
theorem innermost_withName (given : String) : ∀ type : ValueType,
    (type.withName given).innermost = type.innermost.withName given
  | ⟨_, .arrayOf element, _, _⟩ => innermost_withName given element
  | ⟨_, .dictionary _ value, _, _⟩ => innermost_withName given value
  | ⟨_, .dictionaryOfArrays _ element, _, _⟩ => innermost_withName given element
  | ⟨_, .scalar _, _, _⟩ => rfl
  | ⟨_, .object, _, _⟩ => rfl
  | ⟨_, .enum, _, _⟩ => rfl

theorem Labelled.withName {type : ValueType} (h : type.Labelled) (given : String) :
    (type.withName given).Labelled := by
  constructor
  · rw [innermost_withName, name_withName, name_withName]
  · rw [innermost_withName, userDefined_withName, userDefined_withName]
    exact h.userDefined

end ValueType

/-! ## Resolution -/

namespace NameTable

section Unwrap

variable (names : NameTable) {t inner key value : TypeExpr}

theorem unwrap_of_scalar {kind : Scalar} {numeric : Bool} (h : t.form = .scalar kind numeric) :
    names.unwrap t = .scalar kind := by
  rw [unwrap]; split <;> simp_all

theorem unwrap_of_nullable (h : t.form = .nullable inner) :
    names.unwrap t = (names.unwrap inner).asOptional := by
  rw [unwrap]; split <;> simp_all

theorem unwrap_of_sequence (h : t.form = .sequence inner) :
    names.unwrap t = (names.unwrap inner).arrayOf := by
  rw [unwrap]; split <;> simp_all

theorem unwrap_of_map (h : t.form = .map key value) :
    names.unwrap t = (names.unwrap value).dictionaryOf key.keyKind := by
  rw [unwrap]; split <;> simp_all

theorem unwrap_of_declared (h : t.form = .declared) : names.unwrap t = names.lookUp t := by
  rw [unwrap]; split <;> simp_all

theorem unwrap_of_lookup {assigned : AssignedName} (h : t.form = .declared)
    (hlookup : names.lookup t.render = some assigned) :
    names.unwrap t = ⟨assigned.name, assigned.kind.shape, false, true⟩ := by
  rw [names.unwrap_of_declared h, lookUp, hlookup]

theorem unwrap_of_lookup_eq_none (h : t.form = .declared)
    (hlookup : names.lookup t.render = none) : names.unwrap t = .any := by
  rw [names.unwrap_of_declared h, lookUp, hlookup]

/-- What is not built in, or wraps nothing, has no layers. -/
theorem layer_unwrap (h : t.form.inner = []) : (names.unwrap t).layer = .innermost := by
  rw [unwrap]
  split
  · rfl
  · rfl
  · simp_all [TypeExpr.Form.inner]
  · simp_all [TypeExpr.Form.inner]
  · simp_all [TypeExpr.Form.inner]
  · unfold lookUp
    split
    · rename_i named _
      cases named.kind <;> simp [ValueType.layer, AssignedKind.shape]
    · rfl

/-- What is found for an expression has the innermost type that is found for the innermost
expression, up to being nullable. -/
theorem innermost_unwrap (t : TypeExpr) :
    (names.unwrap t).innermost.SameButOptional (names.unwrap t.innermost) := by
  induction t using TypeExpr.layer_induction with
  | nullable t inner h ih =>
    rw [names.unwrap_of_nullable h, TypeExpr.innermost_of_nullable h]
    exact (ValueType.innermost_asOptional _).trans ih
  | sequence t inner h ih =>
    rw [names.unwrap_of_sequence h, TypeExpr.innermost_of_sequence h, ValueType.innermost_arrayOf]
    exact ih
  | map t key value h ih =>
    rw [names.unwrap_of_map h, TypeExpr.innermost_of_map h, ValueType.innermost_dictionaryOf]
    exact ih
  | innermost t h =>
    rw [TypeExpr.innermost_eq_self h, ValueType.innermost_eq_self (names.layer_unwrap h)]
    exact .refl _

theorem labelled_unwrap (t : TypeExpr) : (names.unwrap t).Labelled := by
  induction t using TypeExpr.layer_induction with
  | nullable t inner h ih =>
    rw [names.unwrap_of_nullable h]
    exact ih.asOptional
  | sequence t inner h ih =>
    rw [names.unwrap_of_sequence h]
    exact ih.arrayOf
  | map t key value h ih =>
    rw [names.unwrap_of_map h]
    exact ih.dictionaryOf _
  | innermost t h => exact .of_innermost (names.layer_unwrap h)

/-- What wraps nothing is of a discovered type exactly when it is not built in and has a name. -/
theorem userDefined_unwrap_iff (h : t.form.inner = []) :
    (names.unwrap t).userDefined = true ↔
      t.form = .declared ∧ (names.lookup t.render).isSome = true := by
  rw [unwrap]
  split
  · simp_all [ValueType.void, ValueType.scalar]
  · simp_all [ValueType.scalar]
  · simp_all [TypeExpr.Form.inner]
  · simp_all [TypeExpr.Form.inner]
  · simp_all [TypeExpr.Form.inner]
  · unfold lookUp
    cases names.lookup t.render <;> simp_all [ValueType.any, ValueType.scalar]

end Unwrap

section Resolve

variable (names : NameTable) (t : TypeExpr) (override : Option String)

theorem labelled_resolve : (names.resolve t override).Labelled := by
  cases override with
  | none => exact names.labelled_unwrap t
  | some given => exact (names.labelled_unwrap t).withName given

theorem userDefined_resolve :
    (names.resolve t override).userDefined = (names.unwrap t.innermost).userDefined := by
  have hfound : (names.unwrap t).userDefined = (names.unwrap t.innermost).userDefined :=
    (names.labelled_unwrap t).userDefined.trans (names.innermost_unwrap t).userDefined
  cases override with
  | none => exact hfound
  | some given => exact (ValueType.userDefined_withName given _).trans hfound

/-- A resolved type is of a discovered type exactly when its innermost type has a name. -/
theorem userDefined_resolve_iff : (names.resolve t override).userDefined = true ↔
    t.innermost.form = .declared ∧ (names.lookup t.innermost.render).isSome = true := by
  rw [userDefined_resolve, names.userDefined_unwrap_iff t.inner_innermost]

theorem name_resolve :
    (names.resolve t override).name = override.getD (names.unwrap t.innermost).name := by
  cases override with
  | none => exact (names.labelled_unwrap t).name.trans (names.innermost_unwrap t).name
  | some given => exact ValueType.name_withName given _

theorem shape_innermost_resolve :
    (names.resolve t override).innermost.shape = (names.unwrap t.innermost).shape := by
  have hfound := (names.innermost_unwrap t).shape
  cases override with
  | none => exact hfound
  | some given =>
    show ((names.unwrap t).withName given).innermost.shape = _
    rw [ValueType.innermost_withName, ValueType.shape_withName (ValueType.layer_innermost _)]
    exact hfound

end Resolve

end NameTable

end DataContract
