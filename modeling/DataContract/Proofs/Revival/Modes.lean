import DataContract.Proofs.Revival.Attachment
import DataContract.Revival.Evaluate
import Mathlib.Data.List.Nodup
import Mathlib.Data.List.Perm.Subperm
import Mathlib.Data.Set.Basic

/-!
# The two ways to revive objects

An object that is expanded in place and one that is made by the constructor of its class come out
alike, field by field and failure by failure.  An expansion in place evaluates everything where it
stands; a constructor binds the object to `data` and starts anew.  What the two have in common is
the value that their sources take, and so this is what the comparison follows: down the type
through arrays and dictionaries, and from an object to its members, by which the value gets less
deep.

Results:

* `Revival.SameInput`: two sources that take one value.
* `ModelTypes.agree`: revivals of one type for sources that take one value agree.
* `ModelTypes.evaluate_inline_eq_construct`: the two ways agree in a model.
-/

namespace DataContract

/-! ## Classes that a type needs -/

mutual

/-- The class of the innermost element, if that is an object type of the model. -/
def ValueType.objectName? : ValueType → Option String
  | ⟨name, shape, _, userDefined⟩ => shape.objectName? name userDefined

/-- The class of the innermost element of a type of this shape. -/
def ValueShape.objectName? (name : String) (userDefined : Bool) : ValueShape → Option String
  | .arrayOf element => element.objectName?
  | .dictionary _ element => element.objectName?
  | .dictionaryOfArrays _ element => element.objectName?
  | .object => if userDefined then some name else none
  | .scalar _ | .enum => none

end

/-- The class of which a revival makes instances, unless a script takes over. -/
def ValueType.made? (type : ValueType) (custom : Option String) : Option String :=
  if custom.isSome then none else type.objectName?

namespace ModelTypes

variable (types : ModelTypes)

/-- A revival of the type makes instances of the class, or instances whose properties lead to
it. -/
inductive Needs (type : ValueType) (custom : Option String) : String → Prop where
  | leaf {c : String} : type.made? custom = some c → Needs type custom c
  | property {c d : String} {p : ModelProperty} : Needs type custom c →
      p ∈ types.propertiesOf c → p.type.made? p.customReviver = some d → Needs type custom d

/-- The names belong to classes, and the properties of these lead to no other names. -/
structure Closed (names : Set String) : Prop where
  known : ∀ c ∈ names, (types.class? c).isSome = true
  property : ∀ c ∈ names, ∀ p ∈ types.propertiesOf c, ∀ d,
    p.type.made? p.customReviver = some d → d ∈ names

theorem closed_needs {type : ValueType} {custom : Option String}
    (h : ∀ c, types.Needs type custom c → (types.class? c).isSome = true) :
    types.Closed {c | types.Needs type custom c} :=
  ⟨h, fun _ hc _ hp _ hd => .property hc hp hd⟩

/-! ## Enclosing classes -/

/-- There is room for expansion: as many classes as given may still come to enclose others. -/
structure Room (limit : ℕ) (enclosing : List String) : Prop where
  distinct : enclosing.Nodup
  known : ∀ c ∈ enclosing, (types.class? c).isSome = true
  enough : types.classes.length ≤ enclosing.length + limit

theorem room_nil : types.Room types.classes.length [] :=
  ⟨List.nodup_nil, by simp, by simp⟩

variable {types} {limit : ℕ} {enclosing : List String} {c : String}

theorem mem_names_of_class? (h : (types.class? c).isSome = true) :
    c ∈ types.classes.map (·.name) := by
  obtain ⟨found, hfound⟩ := Option.isSome_iff_exists.mp h
  have hname := List.find?_some hfound
  rw [beq_iff_eq] at hname
  rw [← hname]
  exact List.mem_map_of_mem (List.mem_of_find?_eq_some hfound)

/-- A class that encloses nothing yet leaves less room. -/
theorem Room.enter (h : types.Room limit enclosing) (hknown : (types.class? c).isSome = true)
    (hnew : c ∉ enclosing) :
    ∃ less, limit = less + 1 ∧ types.Room less (enclosing ++ [c]) := by
  have hdistinct : (enclosing ++ [c]).Nodup := by
    rw [List.nodup_append]
    refine ⟨h.distinct, by simp, ?_⟩
    rintro a ha b hb rfl
    exact hnew (List.mem_singleton.mp hb ▸ ha)
  have hall : ∀ d ∈ enclosing ++ [c], (types.class? d).isSome = true := by
    intro d hd
    rcases List.mem_append.mp hd with hd | hd
    · exact h.known d hd
    · rw [List.mem_singleton.mp hd]
      exact hknown
  have hsub : enclosing ++ [c] ⊆ types.classes.map (·.name) :=
    fun d hd => mem_names_of_class? (hall d hd)
  have hlength := (hdistinct.subperm hsub).length_le
  have henough := h.enough
  rw [List.length_append, List.length_singleton, List.length_map] at hlength
  refine ⟨limit - 1, by omega, hdistinct, hall, ?_⟩
  rw [List.length_append, List.length_singleton]
  omega

end ModelTypes

/-! ## Sources that take one value -/

namespace Revival

/-- Two sources take the same value, and its depth is under the limit. -/
structure SameInput (limit : ℕ) (bindings : Bindings) (source : Revival) (bindings' : Bindings)
    (source' : Revival) : Prop where
  same : source.input bindings = source'.input bindings'
  lt : ∀ value, source'.input bindings' = .ok (some value) → value.depth < limit

section SameInput

variable {limit : ℕ} {bindings bindings' : Bindings} {source source' : Revival}

theorem sameInput_param {value : Json} (h : value.depth < limit) (param param' : String) :
    SameInput limit ((param, value) :: bindings) (.value param)
      ((param', value) :: bindings') (.value param') := by
  refine ⟨by simp [input], ?_⟩
  intro found hfound
  simp only [input, List.lookup_cons_self, Except.ok.injEq, Option.some.injEq] at hfound
  rw [← hfound]
  exact h

theorem mem_of_lookup {α : Type} {key : String} {value : α} {entries : List (String × α)}
    (h : entries.lookup key = some value) : (key, value) ∈ entries := by
  obtain ⟨before, after, rfl, -⟩ := List.lookup_eq_some_iff.mp h
  simp

theorem depth_lt_of_member? {property : String} {whole value : Json}
    (h : whole.member? property = some value) : value.depth < whole.depth := by
  cases whole with
  | object members => exact Json.depth_lt_of_member (mem_of_lookup h)
  | _ => cases h

/-- A member of an object is the same wherever the object has come from. -/
theorem SameInput.member {members : List (String × Json)}
    (h : SameInput (limit + 1) bindings source bindings' source')
    (hobject : source'.input bindings' = .ok (some (.object members))) (property : String) :
    SameInput limit bindings (.member source property) [("data", .object members)]
      (.member (.value "data") property) := by
  have hlt := h.lt _ hobject
  have hdata : (Revival.value "data").input [("data", .object members)] =
      .ok (some (.object members)) := by simp [input]
  refine ⟨?_, ?_⟩
  · rw [input, input, h.same, hobject, hdata]
  · intro value hvalue
    rw [input, hdata] at hvalue
    have hmember : (Json.object members).member? property = some value := Except.ok.inj hvalue
    have hdeep := depth_lt_of_member? hmember
    omega

end SameInput

/-! ## Expressions over one value -/

section Agreement

variable {types types' : ModelTypes} {construct construct' : Constructor}
  {bindings bindings' : Bindings} {source source' : Revival} {limit : ℕ}

theorem mapItems_congr {α β : Type} {f g : α → Outcome β} :
    ∀ {items : List α}, (∀ item ∈ items, f item = g item) →
      mapItems f items = mapItems g items := by
  intro items
  induction items with
  | nil => intro _; rfl
  | cons item items ih =>
    intro h
    rw [mapItems, mapItems, h item (by simp), ih fun other hother => h other (by simp [hother])]

/-- Mapped arrays agree when the bodies agree on the items. -/
theorem apply_mapArray_eq (h : SameInput limit bindings source bindings' source')
    {body body' : Revival} {param param' : String}
    (hbody : ∀ item : Json, item.depth < limit →
      body.apply types construct ((param, item) :: bindings) =
        body'.apply types' construct' ((param', item) :: bindings')) :
    (mapArray source param body).apply types construct bindings =
      (mapArray source' param' body').apply types' construct' bindings' := by
  rw [apply, apply, h.same]
  cases hinput : source'.input bindings' with
  | error failure => rfl
  | ok found =>
    rcases found with - | (- | - | - | - | items | members) <;> try rfl
    have hlt := h.lt _ hinput
    have hitems : ∀ item ∈ items, body.apply types construct ((param, item) :: bindings) =
        body'.apply types' construct' ((param', item) :: bindings') := by
      intro item hitem
      exact hbody item ((Json.depth_lt_of_mem hitem).trans hlt)
    show RevivedValue.array <$> mapItems _ items = RevivedValue.array <$> mapItems _ items
    rw [mapItems_congr hitems]

/-- Mapped dictionaries agree when the bodies agree on the values. -/
theorem apply_mapValues_eq (h : SameInput limit bindings source bindings' source')
    {body body' : Revival} {param param' : String}
    (hbody : ∀ item : Json, item.depth < limit →
      body.apply types construct ((param, item) :: bindings) =
        body'.apply types' construct' ((param', item) :: bindings')) :
    (mapValues source param body).apply types construct bindings =
      (mapValues source' param' body').apply types' construct' bindings' := by
  rw [apply, apply, h.same]
  cases hinput : source'.input bindings' with
  | error failure => rfl
  | ok found =>
    rcases found with - | (- | - | - | - | items | members) <;> try rfl
    have hlt := h.lt _ hinput
    have hmembers : ∀ entry ∈ members,
        (entry.1, ·) <$> body.apply types construct ((param, entry.2) :: bindings) =
          (entry.1, ·) <$> body'.apply types' construct' ((param', entry.2) :: bindings') := by
      rintro ⟨name, item⟩ hitem
      rw [hbody item ((Json.depth_lt_of_member hitem).trans hlt)]
    show RevivedValue.map <$> mapItems _ members = RevivedValue.map <$> mapItems _ members
    rw [mapItems_congr hmembers]

end Agreement

end Revival

/-! ## Objects -/

namespace ModelTypes

open Revival

section Simulation

variable {types other : ModelTypes} {names : Set String} {construct : Constructor}

/-- Up to a depth of values, every revival of a type in place agrees with the one by constructors
for a source that takes the same value. -/
def Agree (types other : ModelTypes) (names : Set String) (construct : Constructor) (limit : ℕ) :
    Prop :=
  ∀ (type : ValueType) (custom : Option String) (room : ℕ) (enclosing : List String)
    (depth depth' : ℕ) (bindings bindings' : Bindings) (source source' inPlace made : Revival),
    types.Room room enclosing → (∀ d, type.made? custom = some d → d ∈ names) →
    SameInput limit bindings source bindings' source' →
    type.reviver (types.expand room enclosing) custom source depth = some inPlace →
    inPlace.hasRecursion = false →
    type.reviver .construct custom source' depth' = some made →
    inPlace.apply other construct bindings =
      made.apply (types.attachRevivals .construct)
        ((types.attachRevivals .construct).constructWithin limit) bindings'

/-- The fields of an object in place are those that its constructor makes. -/
theorem applyFields_eq {limit : ℕ} (hagree : Agree types other names construct limit)
    {room depth : ℕ} {enclosing : List String} (hroom : types.Room room enclosing)
    {bindings bindings' : Bindings} {source source' : Revival} {members : List (String × Json)}
    (hinput : SameInput (limit + 1) bindings source bindings' source')
    (hobject : source'.input bindings' = .ok (some (.object members))) :
    ∀ (properties : List ModelProperty) (done : List (String × RevivedValue)),
      (∀ p ∈ properties, ∀ d, p.type.made? p.customReviver = some d → d ∈ names) →
      fieldsHaveRecursion (properties.map fun p =>
        (p.name, p.type.reviver (types.expand room enclosing) p.customReviver
          (.member source p.name) depth)) = false →
      applyFields other construct bindings members done (properties.map fun p =>
        (p.name, p.type.reviver (types.expand room enclosing) p.customReviver
          (.member source p.name) depth)) =
        instanceFields
          (Revival.apply (types.attachRevivals .construct)
            ((types.attachRevivals .construct).constructWithin limit)
            [("data", .object members)])
          members done (properties.map (types.reviveProperty .construct)) := by
  intro properties
  induction properties with
  | nil => intro done _ _; rfl
  | cons p properties ih =>
    intro done hneeds hrecursion
    have hothers : ∀ q ∈ properties, ∀ d, q.type.made? q.customReviver = some d → d ∈ names :=
      fun q hq => hneeds q (List.mem_cons_of_mem p hq)
    have hsome := ValueType.isSome_reviver (types.expand room enclosing) .construct
      p.customReviver p.type (.member source p.name) (.member (.value "data") p.name) depth 0
    have hname : (types.reviveProperty .construct p).name = p.name := rfl
    rw [List.map_cons] at hrecursion ⊢
    rw [List.map_cons, instanceFields]
    cases hplace : p.type.reviver (types.expand room enclosing) p.customReviver
        (.member source p.name) depth with
    | none =>
      rw [hplace, Option.isSome_none, eq_comm, Option.isSome_eq_false_iff,
        Option.isNone_iff_eq_none] at hsome
      rw [hplace, fieldsHaveRecursion] at hrecursion
      have hrevival : (types.reviveProperty .construct p).revival = none := hsome
      rw [applyFields, hrevival, hname]
      cases members.lookup p.name with
      | none => exact ih done hothers hrecursion
      | some raw => exact ih (Keyed.set p.name (.raw raw) done) hothers hrecursion
    | some inPlace =>
      rw [hplace, Option.isSome_some, eq_comm] at hsome
      obtain ⟨made, hmade⟩ := Option.isSome_iff_exists.mp hsome
      rw [hplace, fieldsHaveRecursion, Bool.or_eq_false_iff] at hrecursion
      have hrevival : (types.reviveProperty .construct p).revival = some made := hmade
      have hvalue := hagree p.type p.customReviver room enclosing depth 0 bindings
        [("data", .object members)] (.member source p.name) (.member (.value "data") p.name)
        inPlace made hroom (hneeds p (by simp)) (hinput.member hobject p.name) hplace
        hrecursion.1 hmade
      rw [applyFields, hrevival, hname]
      cases members.lookup p.name with
      | none => exact ih done hothers hrecursion.2
      | some raw =>
        show (inPlace.apply other construct bindings >>= _) = (made.apply _ _ _ >>= _)
        rw [hvalue]
        congr 1
        funext value
        exact ih (Keyed.set p.name value done) hothers hrecursion.2

/-- What the comparison up to a limit relies on. -/
structure Basis (types other : ModelTypes) (names : Set String) (construct : Constructor)
    (limit : ℕ) : Prop where
  /-- Objects lie deeper than their members. -/
  less : ∀ less, limit = less + 1 → Agree types other names construct less
  closed : types.Closed names
  enums : other.enums = types.enums

section Step

variable {limit : ℕ}

/-- An object in place is the one that its constructor makes. -/
theorem apply_expand_eq (basis : Basis types other names construct limit) {room depth : ℕ}
    {enclosing : List String} (hroom : types.Room room enclosing)
    {bindings bindings' : Bindings} {source source' : Revival}
    (hinput : SameInput limit bindings source bindings' source') {c : String} (hc : c ∈ names)
    (hrecursion : (types.expand room enclosing c source depth).hasRecursion = false) :
    (types.expand room enclosing c source depth).apply other construct bindings =
      (Revival.construct c source').apply (types.attachRevivals .construct)
        ((types.attachRevivals .construct).constructWithin limit) bindings' := by
  have hknown := basis.closed.known c hc
  unfold expand at hrecursion ⊢
  by_cases hnew : c ∈ enclosing
  · rw [if_pos hnew] at hrecursion
    cases hrecursion
  · obtain ⟨less, rfl, hinner⟩ := hroom.enter hknown hnew
    rw [if_neg hnew] at hrecursion ⊢
    dsimp only at hrecursion ⊢
    rw [hasRecursion, Bool.or_eq_false_iff] at hrecursion
    rw [Revival.apply, Revival.apply, hinput.same]
    cases hfound : source'.input bindings' with
    | error failure => rfl
    | ok found =>
      cases found with
      | none => rfl
      | some value =>
        have hlt := hinput.lt value hfound
        obtain ⟨inner, rfl⟩ : ∃ inner, limit = inner + 1 := ⟨limit - 1, by omega⟩
        cases value with
        | object members =>
          have hfields := applyFields_eq (basis.less inner rfl) hinner hinput hfound
            (types.propertiesOf c) [] (fun p hp => basis.closed.property c hc p hp) hrecursion.2
          have hclass : ((types.attachRevivals .construct).class? c).isNone = false := by
            rw [class?_attachRevivals, Option.isNone_map]
            simpa using hknown
          show RevivedValue.instance c <$> applyFields _ _ _ members [] _ =
            constructWithin _ (inner + 1) c (.object members)
          rw [constructWithin, constructBy, hclass, hfields, propertiesOf_attachRevivals]
          rfl
        | null => rfl
        | bool value => rfl
        | number value => rfl
        | string value => rfl
        | array items => rfl

theorem apply_innermost_eq (basis : Basis types other names construct limit)
    {room depth depth' : ℕ} {enclosing : List String}
    (hroom : types.Room room enclosing) {bindings bindings' : Bindings} {source source' : Revival}
    (hinput : SameInput limit bindings source bindings' source') {custom : Option String}
    {name : String} {userDefined : Bool} {shape : ValueShape}
    (hneeds : custom = none → shape = .object → userDefined = true → name ∈ names)
    {inPlace made : Revival}
    (hplace : innermost (types.expand room enclosing) custom name userDefined shape source depth =
      some inPlace) (hrecursion : inPlace.hasRecursion = false)
    (hmade : innermost .construct custom name userDefined shape source' depth' = some made) :
    inPlace.apply other construct bindings =
      made.apply (types.attachRevivals .construct)
        ((types.attachRevivals .construct).constructWithin limit) bindings' := by
  cases custom with
  | some script =>
    cases hplace
    cases hmade
    rw [Revival.apply, Revival.apply, hinput.same]
  | none =>
    unfold innermost at hplace hmade
    dsimp only at hplace hmade
    split at hplace
    · cases hplace
      cases hmade
      rw [Revival.apply, Revival.apply, hinput.same]
    · cases hplace
      cases hmade
      have hlookup : ∀ text, lookupMember other name text =
          lookupMember (types.attachRevivals .construct) name text := by
        intro text
        rw [lookupMember, lookupMember, enum?, enum?, basis.enums]
        rfl
      rw [Revival.apply, Revival.apply, hinput.same]
      simp only [hlookup]
    · cases hplace
      cases hmade
      exact apply_expand_eq basis hroom hinput (hneeds rfl rfl rfl) hrecursion
    · cases hplace

mutual

/-- A revival in place agrees with the one by constructors if it does for objects of less depth. -/
theorem apply_reviver_eq (basis : Basis types other names construct limit) (type : ValueType)
    {custom : Option String} {room depth depth' : ℕ}
    {enclosing : List String} {bindings bindings' : Bindings}
    {source source' inPlace made : Revival} (hroom : types.Room room enclosing)
    (hneeds : ∀ d, type.made? custom = some d → d ∈ names)
    (hinput : SameInput limit bindings source bindings' source')
    (hplace : type.reviver (types.expand room enclosing) custom source depth = some inPlace)
    (hrecursion : inPlace.hasRecursion = false)
    (hmade : type.reviver .construct custom source' depth' = some made) :
    inPlace.apply other construct bindings =
      made.apply (types.attachRevivals .construct)
        ((types.attachRevivals .construct).constructWithin limit) bindings' := by
  match type with
  | ⟨name, shape, _, userDefined⟩ =>
    exact apply_shape_eq basis shape hroom hneeds hinput hplace hrecursion hmade

theorem apply_shape_eq (basis : Basis types other names construct limit) (shape : ValueShape)
    {custom : Option String} {name : String} {userDefined : Bool} {room depth depth' : ℕ}
    {enclosing : List String} {bindings bindings' : Bindings}
    {source source' inPlace made : Revival} (hroom : types.Room room enclosing)
    (hneeds : ∀ d, (if custom.isSome then none else shape.objectName? name userDefined) = some d →
      d ∈ names)
    (hinput : SameInput limit bindings source bindings' source')
    (hplace : shape.reviver (types.expand room enclosing) custom name userDefined source depth =
      some inPlace)
    (hrecursion : inPlace.hasRecursion = false)
    (hmade : shape.reviver .construct custom name userDefined source' depth' = some made) :
    inPlace.apply other construct bindings =
      made.apply (types.attachRevivals .construct)
        ((types.attachRevivals .construct).constructWithin limit) bindings' := by
  match shape with
  | .arrayOf element =>
    obtain ⟨body, hbody, rfl⟩ := Option.map_eq_some_iff.mp hplace
    obtain ⟨body', hbody', rfl⟩ := Option.map_eq_some_iff.mp hmade
    rw [hasRecursion, Bool.or_eq_false_iff] at hrecursion
    refine apply_mapArray_eq hinput fun item hitem => ?_
    exact apply_reviver_eq basis element hroom hneeds (sameInput_param hitem _ _) hbody hrecursion.2
      hbody'
  | .dictionary _ element =>
    obtain ⟨body, hbody, rfl⟩ := Option.map_eq_some_iff.mp hplace
    obtain ⟨body', hbody', rfl⟩ := Option.map_eq_some_iff.mp hmade
    rw [hasRecursion, Bool.or_eq_false_iff] at hrecursion
    refine apply_mapValues_eq hinput fun item hitem => ?_
    exact apply_reviver_eq basis element hroom hneeds (sameInput_param hitem _ _) hbody hrecursion.2
      hbody'
  | .dictionaryOfArrays _ element =>
    obtain ⟨body, hbody, rfl⟩ := Option.map_eq_some_iff.mp hplace
    obtain ⟨body', hbody', rfl⟩ := Option.map_eq_some_iff.mp hmade
    rw [hasRecursion, Bool.or_eq_false_iff, hasRecursion, Bool.or_eq_false_iff] at hrecursion
    refine apply_mapValues_eq hinput fun items hitems => ?_
    refine apply_mapArray_eq (sameInput_param hitems _ _) fun item hitem => ?_
    exact apply_reviver_eq basis element hroom hneeds (sameInput_param hitem _ _) hbody
      hrecursion.2.2 hbody'
  | .scalar kind =>
    exact apply_innermost_eq basis hroom hinput (by simp) hplace hrecursion hmade
  | .enum =>
    exact apply_innermost_eq basis hroom hinput (by simp) hplace hrecursion hmade
  | .object =>
    refine apply_innermost_eq basis hroom hinput ?_ hplace hrecursion hmade
    rintro rfl - rfl
    exact hneeds name rfl

end

end Step

/-- The induction is on the depth of the values that the sources take. -/
theorem agree (hclosed : types.Closed names) (henums : other.enums = types.enums) :
    ∀ limit, Agree types other names construct limit := by
  intro limit
  induction limit with
  | zero =>
    intro type custom room enclosing depth depth' bindings bindings' source source' inPlace made
      hroom hneeds hinput hplace hrecursion hmade
    have basis : Basis types other names construct 0 :=
      ⟨fun less hless => absurd hless (Nat.succ_ne_zero less).symm, hclosed, henums⟩
    exact apply_reviver_eq basis type hroom hneeds hinput hplace hrecursion hmade
  | succ limit ih =>
    intro type custom room enclosing depth depth' bindings bindings' source source' inPlace made
      hroom hneeds hinput hplace hrecursion hmade
    have hless : ∀ less, limit + 1 = less + 1 → Agree types other names construct less := by
      intro less hless
      obtain rfl : less = limit := by omega
      exact ih
    exact apply_reviver_eq ⟨hless, hclosed, henums⟩ type hroom hneeds hinput hplace hrecursion hmade

end Simulation

/-! ## The two ways in a model -/

/-- The greatest depth of the bound values. -/
def bindingsDepth (bindings : Bindings) : ℕ :=
  bindings.foldl (fun most binding => max most binding.2.depth) 0

theorem le_foldl_depth {bindings : Bindings} : ∀ {most : ℕ},
    most ≤ bindings.foldl (fun most binding => max most binding.2.depth) most ∧
      ∀ binding ∈ bindings, binding.2.depth ≤
        bindings.foldl (fun most binding => max most binding.2.depth) most := by
  induction bindings with
  | nil => intro most; simp
  | cons first rest ih =>
    intro most
    obtain ⟨hmost, hrest⟩ := @ih (max most first.2.depth)
    rw [List.foldl_cons]
    refine ⟨by omega, ?_⟩
    intro binding hbinding
    rcases List.mem_cons.mp hbinding with rfl | hbinding
    · omega
    · exact hrest binding hbinding

/-- What a source takes lies no deeper than the bound values. -/
theorem depth_input_le {bindings : Bindings} :
    ∀ {source : Revival} {value : Json}, source.input bindings = .ok (some value) →
      value.depth ≤ bindingsDepth bindings := by
  intro source
  induction source using input.induct bindings with
  | case1 name found hlookup =>
    intro value h
    rw [input, hlookup] at h
    cases h
    exact le_foldl_depth.2 _ (mem_of_lookup hlookup)
  | case2 name hlookup =>
    intro value h
    rw [input, hlookup] at h
    cases h
  | case3 object property ih =>
    intro value h
    rw [input] at h
    cases hobject : object.input bindings with
    | error failure => rw [hobject] at h; cases h
    | ok found =>
      rw [hobject] at h
      obtain ⟨whole, rfl, hmember⟩ := Option.bind_eq_some_iff.mp (Except.ok.inj h)
      exact (depth_lt_of_member? hmember).le.trans (ih hobject)
  | case4 source hvalue hmember =>
    intro value h
    rw [input.eq_3 bindings source hvalue hmember] at h
    cases h

/-- Objects that are expanded in place and objects that their constructors make come out alike.
Both ways need a revival for the same types.  If a type's revival in place meets no object type
within itself, and the classes of which instances are made are known, then whatever values are
given the revival comes to the same value or the same failure as the one by constructors. -/
theorem evaluate_inline_eq_construct (types : ModelTypes) (type : ValueType)
    (custom : Option String) (source : Revival) (values : List (String × Json))
    (hknown : ∀ c, types.Needs type custom c → (types.class? c).isSome = true) :
    let inlined := types.attachRevivals .inline
    let constructed := types.attachRevivals .construct
    (inlined.revivalOf .inline type custom source).isSome =
        (constructed.revivalOf .construct type custom source).isSome ∧
      ∀ inPlace made, inlined.revivalOf .inline type custom source = some inPlace →
        constructed.revivalOf .construct type custom source = some made →
        inPlace.hasRecursion = false →
        inlined.evaluate inPlace values = constructed.evaluate made values := by
  intro inlined constructed
  refine ⟨?_, ?_⟩
  · rw [revivalOf_attachRevivals, revivalOf_attachRevivals]
    exact ValueType.isSome_reviver _ _ custom type source source 0 0
  · intro inPlace made hplace hmade hrecursion
    rw [revivalOf_attachRevivals] at hplace hmade
    let bindings := Bindings.ofList values
    have hinput : SameInput (bindingsDepth bindings + 1) bindings source bindings source :=
      ⟨rfl, fun value hvalue => Nat.lt_succ_of_le (depth_input_le hvalue)⟩
    have henums : inlined.enums = types.enums := rfl
    rw [evaluate, evaluate]
    exact agree (closed_needs types hknown) henums _ type custom types.classes.length [] 0 0
      bindings bindings source source inPlace made (room_nil types) (fun d hd => .leaf hd) hinput
      hplace hrecursion hmade

/-- Orders of items, each of which has a date. -/
def orders : ModelTypes where
  enums := []
  names := []
  classes :=
    [{ name := "Item", superclass := none, identity := "Shop.Item",
       properties := [{ name := "due", type := .scalar .date, customReviver := none,
                        revival := none }] },
      { name := "Order", superclass := none, identity := "Shop.Order",
        properties := [{ name := "items", customReviver := none, revival := none,
                         type := ⟨"Item", .arrayOf ⟨"Item", .object, false, true⟩, false,
                          true⟩ }] }]

theorem orders_needs {c : String} (h : orders.Needs ⟨"Order", .object, false, true⟩ none c) :
    c = "Order" ∨ c = "Item" := by
  have horder : ∀ p ∈ orders.propertiesOf "Order", p.type.made? p.customReviver = some "Item" := by
    decide +kernel
  have hitem : ∀ p ∈ orders.propertiesOf "Item", p.type.made? p.customReviver = none := by
    decide +kernel
  induction h with
  | leaf hleaf => exact Or.inl (Option.some.inj hleaf).symm
  | @property c d p _ hp hd ih =>
    rcases ih with rfl | rfl
    · rw [horder p hp] at hd
      exact Or.inr (Option.some.inj hd).symm
    · rw [hitem p hp] at hd
      cases hd

/-- An order with one item comes out alike. -/
theorem orders_evaluate_eq : ∃ inPlace made,
    (orders.attachRevivals .inline).revivalOf .inline ⟨"Order", .object, false, true⟩ none
      (.value "data") = some inPlace ∧
    (orders.attachRevivals .construct).revivalOf .construct ⟨"Order", .object, false, true⟩ none
      (.value "data") = some made ∧
    (orders.attachRevivals .inline).evaluate inPlace
        [("data", .object [("items", .array [.object [("due", .string "2020-01-01")]])])] =
      (orders.attachRevivals .construct).evaluate made
        [("data", .object [("items", .array [.object [("due", .string "2020-01-01")]])])] := by
  refine ⟨_, _, rfl, rfl, ?_⟩
  refine (evaluate_inline_eq_construct orders ⟨"Order", .object, false, true⟩ none
    (.value "data") _ ?_).2 _ _ rfl rfl (by decide +kernel)
  intro c hc
  rcases orders_needs hc with rfl | rfl
  · decide +kernel
  · decide +kernel

end ModelTypes

end DataContract
