import DataContract.Proofs.ValueType.Resolution

/-!
# Dictionaries of arrays

A dictionary whose values are arrays takes them into its shape, unless they are nullable.  That is
done while a type expression is resolved from the inside out, before a given name takes the place of
the one found.  Nothing that is resolved escapes it, and nothing is lost by it: with the arrays put
back, a resolved type is the expression layer by layer.

Results:

* `NameTable.regular_resolve`: what holds of a resolved type and of every type within it.
* `NameTable.expanded_resolve`: what a resolved type is with its dictionaries of arrays expanded.
* `NameTable.resolve_exact`: both, and what a given name changes.
-/

namespace DataContract

/-! ## The types within a type -/

mutual

/-- The type and the types within it, from the outside in. -/
def ValueType.nested : ValueType → List ValueType
  | ⟨name, shape, optional, userDefined⟩ => ⟨name, shape, optional, userDefined⟩ :: shape.nested

/-- The types within a shape, from the outside in. -/
def ValueShape.nested : ValueShape → List ValueType
  | .arrayOf element => element.nested
  | .dictionary _ value => value.nested
  | .dictionaryOfArrays _ element => element.nested
  | .scalar _ | .object | .enum => []

end

/-- The shape with nothing in particular within it. -/
def ValueShape.hollow : ValueShape → ValueShape
  | .arrayOf _ => .arrayOf .void
  | .dictionary key _ => .dictionary key .void
  | .dictionaryOfArrays key _ => .dictionaryOfArrays key .void
  | .scalar kind => .scalar kind
  | .object => .object
  | .enum => .enum

theorem ValueShape.hollow_withName (given : String) (shape : ValueShape) :
    (shape.withName given).hollow = shape.hollow := by
  cases shape <;> rfl

namespace ValueType

variable {type s element : ValueType}

/-- What the type is by itself, but for its name. -/
def outline (type : ValueType) : ValueShape × Bool × Bool :=
  (type.shape.hollow, type.optional, type.userDefined)

theorem nested_eq (type : ValueType) : type.nested = type :: type.shape.nested := by
  cases type
  rw [nested]

theorem self_mem_nested (type : ValueType) : type ∈ type.nested := by
  rw [nested_eq]
  exact List.mem_cons_self ..

theorem nested_of_innermost (h : type.layer = .innermost) : type.nested = [type] := by
  obtain ⟨name, shape, optional, userDefined⟩ := type
  cases shape <;> first | rfl | cases h

theorem nested_arrayOf (element : ValueType) :
    element.arrayOf.nested = element.arrayOf :: element.nested := by
  rw [nested_eq, arrayOf, ValueShape.nested]

/-- A name is given to all types within a type alike. -/
theorem nested_withName (given : String) : ∀ type : ValueType,
    (type.withName given).nested = type.nested.map (withName given)
  | ⟨_, .arrayOf element, _, _⟩ => congrArg (_ :: ·) (nested_withName given element)
  | ⟨_, .dictionary _ value, _, _⟩ => congrArg (_ :: ·) (nested_withName given value)
  | ⟨_, .dictionaryOfArrays _ element, _, _⟩ => congrArg (_ :: ·) (nested_withName given element)
  | ⟨_, .scalar _, _, _⟩ => rfl
  | ⟨_, .object, _, _⟩ => rfl
  | ⟨_, .enum, _, _⟩ => rfl

theorem outline_withName (given : String) (type : ValueType) :
    (type.withName given).outline = type.outline := by
  obtain ⟨name, shape, optional, userDefined⟩ := type
  exact congrArg (·, optional, userDefined) (shape.hollow_withName given)

/-! ## Regular types -/

/-- The type is a plain dictionary although its values are arrays that are not nullable. -/
def HoldsArrays (type : ValueType) : Prop :=
  ∃ key value, type.shape = .dictionary key value ∧ value.isArray = true ∧ value.optional = false

/-- The arrays of a dictionary are part of its shape, the name and the origin of the innermost type
are those of the type, and its origin fits its shape. -/
structure Regular (type : ValueType) : Prop extends type.Labelled where
  collapsed : ¬ type.HoldsArrays
  userDefined_iff : type.userDefined = true ↔
    type.innermost.shape = .object ∨ type.innermost.shape = .enum

theorem Regular.asOptional (h : type.Regular) : type.asOptional.Regular where
  toLabelled := h.toLabelled.asOptional
  collapsed := h.collapsed
  userDefined_iff := by
    rw [(innermost_asOptional type).shape]
    exact h.userDefined_iff

theorem Regular.arrayOf (h : element.Regular) : element.arrayOf.Regular where
  toLabelled := h.toLabelled.arrayOf
  collapsed := by
    rintro ⟨key, value, hshape, -, -⟩
    cases hshape
  userDefined_iff := by
    rw [innermost_arrayOf]
    exact h.userDefined_iff

theorem exists_of_isArray (h : type.isArray = true) : ∃ element, type.shape = .arrayOf element := by
  obtain ⟨name, shape, optional, userDefined⟩ := type
  cases shape with
  | arrayOf element => exact ⟨element, rfl⟩
  | _ => cases h

theorem not_holdsArrays_dictionaryOf (key : KeyKind) (value : ValueType) :
    ¬ (value.dictionaryOf key).HoldsArrays := by
  rintro ⟨key', value', hshape, harray, hoptional⟩
  rw [dictionaryOf] at hshape
  split at hshape
  · cases hshape
  · rename_i hplain
    obtain ⟨-, rfl⟩ := ValueShape.dictionary.inj hshape
    obtain ⟨element, helement⟩ := exists_of_isArray harray
    exact hplain element helement hoptional

theorem Regular.dictionaryOf {value : ValueType} (h : value.Regular) (key : KeyKind) :
    (value.dictionaryOf key).Regular where
  toLabelled := h.toLabelled.dictionaryOf key
  collapsed := not_holdsArrays_dictionaryOf key value
  userDefined_iff := by
    rw [innermost_dictionaryOf]
    exact h.userDefined_iff

theorem isArray_withName (given : String) (type : ValueType) :
    (type.withName given).isArray = type.isArray := by
  obtain ⟨name, shape, optional, userDefined⟩ := type
  cases shape <;> rfl

theorem optional_withName (given : String) (type : ValueType) :
    (type.withName given).optional = type.optional := by
  cases type
  rfl

theorem HoldsArrays.of_withName {given : String} (h : (type.withName given).HoldsArrays) :
    type.HoldsArrays := by
  obtain ⟨key, value, hshape, harray, hoptional⟩ := h
  obtain ⟨name, shape, optional, userDefined⟩ := type
  cases shape with
  | dictionary key' value' =>
    obtain ⟨rfl, rfl⟩ := ValueShape.dictionary.inj hshape
    rw [isArray_withName] at harray
    rw [optional_withName] at hoptional
    exact ⟨_, value', rfl, harray, hoptional⟩
  | _ => cases hshape

theorem Regular.withName (h : type.Regular) (given : String) : (type.withName given).Regular where
  toLabelled := h.toLabelled.withName given
  collapsed := fun hholds => h.collapsed hholds.of_withName
  userDefined_iff := by
    rw [innermost_withName, shape_withName (layer_innermost type), userDefined_withName]
    exact h.userDefined_iff

/-- The types within a dictionary are among those within its values. -/
theorem mem_nested_dictionaryOf {key : KeyKind} {value : ValueType}
    (h : s ∈ (value.dictionaryOf key).nested) : s = value.dictionaryOf key ∨ s ∈ value.nested := by
  rw [nested_eq, List.mem_cons] at h
  refine h.imp_right fun hwithin => ?_
  rw [dictionaryOf] at hwithin
  split at hwithin
  · rename_i hshape _
    rw [ValueShape.nested] at hwithin
    rw [nested_eq, hshape, ValueShape.nested]
    exact List.mem_cons_of_mem _ hwithin
  · rwa [ValueShape.nested] at hwithin

end ValueType

/-! ## Dictionaries of arrays expanded -/

mutual

/-- The type with plain dictionaries of arrays in the place of those that have taken the arrays into
their shape. -/
def ValueType.expanded : ValueType → ValueType
  | ⟨name, shape, optional, userDefined⟩ => ⟨name, shape.expanded, optional, userDefined⟩

/-- The shape with plain dictionaries of arrays. -/
def ValueShape.expanded : ValueShape → ValueShape
  | .arrayOf element => .arrayOf element.expanded
  | .dictionary key value => .dictionary key value.expanded
  | .dictionaryOfArrays key element => .dictionary key element.expanded.arrayOf
  | .scalar kind => .scalar kind
  | .object => .object
  | .enum => .enum

end

namespace ValueType

/-- A dictionary of such values that takes nothing into its shape. -/
def plainDictionaryOf (key : KeyKind) (value : ValueType) : ValueType :=
  { name := value.name, shape := .dictionary key value, optional := false,
    userDefined := value.userDefined }

theorem expanded_of_innermost {type : ValueType} (h : type.layer = .innermost) :
    type.expanded = type := by
  obtain ⟨name, shape, optional, userDefined⟩ := type
  cases shape <;> first | rfl | cases h

theorem expanded_asOptional (type : ValueType) :
    type.asOptional.expanded = type.expanded.asOptional := by
  cases type
  rfl

theorem expanded_arrayOf (element : ValueType) :
    element.arrayOf.expanded = element.expanded.arrayOf := by
  cases element
  rfl

theorem withName_of_innermost {type : ValueType} (h : type.layer = .innermost) (given : String) :
    type.withName given = { type with name := given } := by
  have hshape := shape_withName h given
  cases type
  exact congrArg (ValueType.mk given · _ _) hshape

theorem withName_asOptional (given : String) (type : ValueType) :
    type.asOptional.withName given = (type.withName given).asOptional := by
  cases type
  rfl

theorem withName_arrayOf (given : String) (element : ValueType) :
    element.arrayOf.withName given = (element.withName given).arrayOf := by
  cases element
  rfl

theorem withName_plainDictionaryOf (given : String) (key : KeyKind) (value : ValueType) :
    (value.plainDictionaryOf key).withName given =
      (value.withName given).plainDictionaryOf key := by
  cases value
  rfl

/-- An array is the one of its elements, if it takes its name and its origin from them. -/
theorem eq_arrayOf {name : String} {element : ValueType} {userDefined : Bool}
    (harray : (⟨name, .arrayOf element, false, userDefined⟩ : ValueType).Labelled)
    (helement : element.Labelled) :
    ⟨name, .arrayOf element, false, userDefined⟩ = element.arrayOf := by
  have hsame : (⟨name, .arrayOf element, false, userDefined⟩ : ValueType).innermost =
      element.innermost := innermost_of_items rfl
  have hname : name = element.name := by
    rw [helement.name, ← hsame]
    exact harray.name
  have horigin : userDefined = element.userDefined := by
    rw [helement.userDefined, ← hsame]
    exact harray.userDefined
  rw [hname, horigin, arrayOf]

/-- Whether a dictionary has taken the arrays into its shape makes no difference when it is
expanded. -/
theorem expanded_dictionaryOf (key : KeyKind) {value : ValueType}
    (h : ∀ s ∈ value.nested, s.Labelled) :
    (value.dictionaryOf key).expanded = value.expanded.plainDictionaryOf key := by
  obtain ⟨name, shape, optional, userDefined⟩ := value
  rw [dictionaryOf]
  split
  · rename_i element hshape hoptional
    obtain rfl : shape = .arrayOf element := hshape
    obtain rfl : optional = false := hoptional
    have hvalue := eq_arrayOf (h _ (self_mem_nested _))
      (h element (List.mem_cons_of_mem _ (self_mem_nested element)))
    rw [hvalue, expanded_arrayOf]
    cases element
    rfl
  · rfl

end ValueType

mutual

/-- A name that is given makes no difference to what is expanded. -/
theorem ValueType.expanded_withName (given : String) : ∀ type : ValueType,
    (type.withName given).expanded = type.expanded.withName given
  | ⟨_, shape, optional, userDefined⟩ =>
    congrArg (ValueType.mk given · optional userDefined) (ValueShape.expanded_withName given shape)

theorem ValueShape.expanded_withName (given : String) : ∀ shape : ValueShape,
    (shape.withName given).expanded = shape.expanded.withName given
  | .arrayOf element => congrArg ValueShape.arrayOf (ValueType.expanded_withName given element)
  | .dictionary key value =>
    congrArg (ValueShape.dictionary key) (ValueType.expanded_withName given value)
  | .dictionaryOfArrays key element => by
    refine congrArg (ValueShape.dictionary key) ?_
    rw [ValueType.expanded_withName given element, ValueType.withName_arrayOf]
  | .scalar _ => rfl
  | .object => rfl
  | .enum => rfl

end

/-! ## Resolution -/

namespace NameTable

section Regular

variable (names : NameTable)

theorem unwrap_of_void {t : TypeExpr} (h : t.form = .void) : names.unwrap t = .void := by
  rw [unwrap]; split <;> simp_all

/-- What is found for an innermost type is of a discovered type exactly when it is an object or an
enumeration. -/
theorem userDefined_unwrap_iff_shape {t : TypeExpr} (h : t.form.inner = []) :
    (names.unwrap t).userDefined = true ↔
      (names.unwrap t).shape = .object ∨ (names.unwrap t).shape = .enum := by
  cases hform : t.form with
  | void => simp [names.unwrap_of_void hform, ValueType.void, ValueType.scalar]
  | scalar kind numeric => simp [names.unwrap_of_scalar hform, ValueType.scalar]
  | declared =>
    cases hlookup : names.lookup t.render with
    | none =>
      simp [names.unwrap_of_lookup_eq_none hform hlookup, ValueType.any, ValueType.scalar]
    | some assigned =>
      cases hkind : assigned.kind <;>
        simp [names.unwrap_of_lookup hform hlookup, hkind, AssignedKind.shape]
  | nullable inner => simp [hform, TypeExpr.Form.inner] at h
  | sequence inner => simp [hform, TypeExpr.Form.inner] at h
  | map key value => simp [hform, TypeExpr.Form.inner] at h

theorem regular_of_innermost {t : TypeExpr} (h : t.form.inner = []) :
    (names.unwrap t).Regular where
  toLabelled := .of_innermost (names.layer_unwrap h)
  collapsed := by
    rintro ⟨key, value, hshape, -, -⟩
    have hlayer := names.layer_unwrap h
    rw [ValueType.layer, hshape] at hlayer
    cases hlayer
  userDefined_iff := by
    rw [ValueType.innermost_eq_self (names.layer_unwrap h)]
    exact names.userDefined_unwrap_iff_shape h

/-- Whatever is found for an expression is regular throughout. -/
theorem regular_unwrap (t : TypeExpr) : ∀ s ∈ (names.unwrap t).nested, s.Regular := by
  induction t using TypeExpr.layer_induction with
  | nullable t inner h ih =>
    have hsame : (names.unwrap inner).asOptional.shape = (names.unwrap inner).shape := rfl
    rw [ValueType.nested_eq, List.forall_mem_cons] at ih
    rw [names.unwrap_of_nullable h, ValueType.nested_eq, hsame, List.forall_mem_cons]
    exact ⟨ih.1.asOptional, ih.2⟩
  | sequence t inner h ih =>
    rw [names.unwrap_of_sequence h, ValueType.nested_arrayOf, List.forall_mem_cons]
    exact ⟨(ih _ (ValueType.self_mem_nested _)).arrayOf, ih⟩
  | map t key value h ih =>
    intro s hs
    rw [names.unwrap_of_map h] at hs
    rcases ValueType.mem_nested_dictionaryOf hs with rfl | hs
    · exact (ih _ (ValueType.self_mem_nested _)).dictionaryOf _
    · exact ih s hs
  | innermost t h =>
    rw [ValueType.nested_of_innermost (names.layer_unwrap h), List.forall_mem_singleton]
    exact names.regular_of_innermost h

/-- Whatever an expression resolves to is regular throughout. -/
theorem regular_resolve (t : TypeExpr) (override : Option String) :
    ∀ s ∈ (names.resolve t override).nested, s.Regular := by
  cases override with
  | none => exact names.regular_unwrap t
  | some given =>
    show ∀ s ∈ ((names.unwrap t).withName given).nested, s.Regular
    rw [ValueType.nested_withName, List.forall_mem_map]
    exact fun s hs => (names.regular_unwrap t s hs).withName given

end Regular

/-! ## Layer by layer -/

/-- What an expression refers to layer by layer, with the name that is given for the innermost type
if there is one.  Nothing is taken into the shape of a dictionary. -/
def layered (names : NameTable) (override : Option String) (t : TypeExpr) : ValueType :=
  let named := fun found : ValueType =>
    override.elim found fun given => { found with name := given }
  match _h : t.form with
  | .void => named .void
  | .scalar kind _ => named (.scalar kind)
  | .declared => named (names.lookUp t)
  | .nullable inner => (names.layered override inner).asOptional
  | .sequence element => (names.layered override element).arrayOf
  | .map key value => (names.layered override value).plainDictionaryOf key.keyKind
termination_by t.size
decreasing_by
  all_goals exact TypeExpr.size_lt_of_mem_inner (by simp [_h, TypeExpr.Form.inner])

section Layered

variable (names : NameTable) (override : Option String) {t inner key value : TypeExpr}

theorem layered_of_nullable (h : t.form = .nullable inner) :
    names.layered override t = (names.layered override inner).asOptional := by
  rw [layered]; split <;> simp_all

theorem layered_of_sequence (h : t.form = .sequence inner) :
    names.layered override t = (names.layered override inner).arrayOf := by
  rw [layered]; split <;> simp_all

theorem layered_of_map (h : t.form = .map key value) :
    names.layered override t = (names.layered override value).plainDictionaryOf key.keyKind := by
  rw [layered]; split <;> simp_all

theorem layered_of_innermost (h : t.form.inner = []) : names.layered override t =
    override.elim (names.unwrap t) fun given => { names.unwrap t with name := given } := by
  rw [layered]
  split
  · rename_i hform
    rw [names.unwrap_of_void hform]
  · rename_i hform
    rw [names.unwrap_of_scalar hform]
  · rename_i hform
    rw [names.unwrap_of_declared hform]
  all_goals simp_all [TypeExpr.Form.inner]

/-- With a name that is given for the innermost type, all layers around it have that name. -/
theorem layered_some (given : String) (t : TypeExpr) :
    names.layered (some given) t = (names.layered none t).withName given := by
  induction t using TypeExpr.layer_induction with
  | nullable t inner h ih =>
    rw [names.layered_of_nullable _ h, names.layered_of_nullable _ h, ih,
      ValueType.withName_asOptional]
  | sequence t inner h ih =>
    rw [names.layered_of_sequence _ h, names.layered_of_sequence _ h, ih,
      ValueType.withName_arrayOf]
  | map t key value h ih =>
    rw [names.layered_of_map _ h, names.layered_of_map _ h, ih,
      ValueType.withName_plainDictionaryOf]
  | innermost t h =>
    rw [names.layered_of_innermost _ h, names.layered_of_innermost _ h]
    exact (ValueType.withName_of_innermost (names.layer_unwrap h) given).symm

theorem expanded_unwrap (t : TypeExpr) : (names.unwrap t).expanded = names.layered none t := by
  induction t using TypeExpr.layer_induction with
  | nullable t inner h ih =>
    rw [names.unwrap_of_nullable h, names.layered_of_nullable _ h,
      ValueType.expanded_asOptional, ih]
  | sequence t inner h ih =>
    rw [names.unwrap_of_sequence h, names.layered_of_sequence _ h, ValueType.expanded_arrayOf, ih]
  | map t key value h ih =>
    rw [names.unwrap_of_map h, names.layered_of_map _ h, ← ih]
    exact ValueType.expanded_dictionaryOf _ fun s hs => (names.regular_unwrap value s hs).toLabelled
  | innermost t h =>
    rw [names.layered_of_innermost _ h, ValueType.expanded_of_innermost (names.layer_unwrap h)]
    rfl

/-- With its dictionaries of arrays expanded, a resolved type is its expression layer by layer. -/
theorem expanded_resolve (t : TypeExpr) :
    (names.resolve t override).expanded = names.layered override t := by
  cases override with
  | none => exact names.expanded_unwrap t
  | some given =>
    show ((names.unwrap t).withName given).expanded = names.layered (some given) t
    rw [ValueType.expanded_withName, names.expanded_unwrap, names.layered_some]

end Layered

/-- Whatever an expression resolves to is regular throughout.  A name that is given becomes the name
of all of it, and changes nothing else.  With its dictionaries of arrays expanded it is the
expression layer by layer. -/
theorem resolve_exact (names : NameTable) (t : TypeExpr) (override : Option String) :
    (∀ s ∈ (names.resolve t override).nested, s.Regular) ∧
    (∀ given, override = some given →
      (∀ s ∈ (names.resolve t override).nested, s.name = given) ∧
      (names.resolve t override).nested.map ValueType.outline =
        (names.resolve t none).nested.map ValueType.outline) ∧
    (names.resolve t override).expanded = names.layered override t := by
  refine ⟨names.regular_resolve t override, ?_, names.expanded_resolve override t⟩
  rintro given rfl
  have hnested : (names.resolve t (some given)).nested =
      (names.resolve t none).nested.map (ValueType.withName given) :=
    ValueType.nested_withName given _
  rw [hnested]
  refine ⟨?_, ?_⟩
  · rw [List.forall_mem_map]
    exact fun s _ => ValueType.name_withName given s
  · rw [List.map_map]
    exact List.map_congr_left fun s _ => ValueType.outline_withName given s

end NameTable

end DataContract
