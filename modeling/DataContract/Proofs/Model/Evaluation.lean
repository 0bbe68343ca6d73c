import DataContract.Proofs.Model.Revivals

/-!
# Evaluation ends

To make an instance, the revivals of the properties of its class are evaluated, and these may make
instances of the same class again: neither the class nor the expression gets smaller.  What does is
the value.  The revival of a property takes a member of the object, whatever is made within it is
made of a part of that member, and so constructions are nested no deeper than the value is.

Which instances an evaluation asks for is told by what its outcome depends on: an instance that is
made of any other value could as well never be finished.

Results:

* `Revival.AsksOnly`: an outcome depends only on the instances that are made of certain values.
* `ModelTypes.Synthesizes.apply_congr`: a revival asks for instances of parts of what it takes.
* `ModelTypes.asksOnly_constructBy`: an instance asks for instances of strict parts of its object.
* `ModelTypes.iterate_constructBy`: so many constructions in each other as the value is deep are
  enough.
* `Document.compile_evaluation_ends`: construction and evaluation end in every compiled model.
-/

namespace DataContract

/-! ## Parts of values -/

namespace Json

/-- An item of an array, or the value of a member of an object. -/
inductive Child : Json → Json → Prop where
  | item {item : Json} {items : List Json} : item ∈ items → Child item (.array items)
  | member {name : String} {value : Json} {members : List (String × Json)} :
      (name, value) ∈ members → Child value (.object members)

/-- A value within the other one. -/
def StrictPart : Json → Json → Prop := Relation.TransGen Child

/-- A value within the other one, or that value itself. -/
def Part : Json → Json → Prop := Relation.ReflTransGen Child

variable {value whole : Json}

theorem Child.depth_lt (h : value.Child whole) : value.depth < whole.depth := by
  cases h with
  | item hmem => exact depth_lt_of_mem hmem
  | member hmem => exact depth_lt_of_member hmem

/-- A value lies deeper than what is within it. -/
theorem StrictPart.depth_lt (h : value.StrictPart whole) : value.depth < whole.depth := by
  induction h with
  | single hchild => exact hchild.depth_lt
  | tail _ hchild ih => exact ih.trans hchild.depth_lt

theorem Part.depth_le (h : value.Part whole) : value.depth ≤ whole.depth := by
  induction h with
  | refl => exact le_rfl
  | tail _ hchild ih => exact ih.trans hchild.depth_lt.le

theorem Child.of_member? {property : String} (h : whole.member? property = some value) :
    value.Child whole := by
  cases whole with
  | object members => exact .member (Revival.mem_of_lookup h)
  | _ => cases h

end Json

/-! ## What an evaluation asks for -/

namespace Revival

variable {types : ModelTypes} {within within' : Constructor} {bindings : Bindings}

/-- What is made depends on other instances only where these are made of values of that kind. -/
def AsksOnly (make : Constructor → Outcome RevivedValue) (asked : Json → Prop) : Prop :=
  ∀ within within' : Constructor, (∀ c value, asked value → within c value = within' c value) →
    make within = make within'

/-- What a source takes is a part of a bound value. -/
theorem exists_part_of_input :
    ∀ {source : Revival} {found : Json}, source.input bindings = .ok (some found) →
      ∃ binding ∈ bindings, found.Part binding.2 := by
  intro source
  induction source using input.induct bindings with
  | case1 name value hlookup =>
    intro found h
    rw [input, hlookup] at h
    cases h
    exact ⟨_, mem_of_lookup hlookup, .refl⟩
  | case2 name hlookup =>
    intro found h
    rw [input, hlookup] at h
    cases h
  | case3 object property ih =>
    intro found h
    rw [input] at h
    obtain ⟨value, hobject, hmember⟩ := Decoder.map_eq_ok h
    obtain ⟨whole, rfl, hmember⟩ := Option.bind_eq_some_iff.mp hmember
    obtain ⟨binding, hbinding, hpart⟩ := ih hobject
    exact ⟨binding, hbinding, .head (.of_member? hmember) hpart⟩
  | case4 source hvalue hmember =>
    intro found h
    rw [input.eq_3 bindings source hvalue hmember] at h
    cases h

theorem applyFields_congr {members : List (String × Json)} :
    ∀ {fields : List (String × Option Revival)} {done : List (String × RevivedValue)},
      (∀ name revival, (name, some revival) ∈ fields →
        revival.apply types within bindings = revival.apply types within' bindings) →
      applyFields types within bindings members done fields =
        applyFields types within' bindings members done fields := by
  intro fields
  induction fields with
  | nil => intro done _; rfl
  | cons field fields ih =>
    intro done h
    have hrest : ∀ {done : List (String × RevivedValue)},
        applyFields types within bindings members done fields =
          applyFields types within' bindings members done fields :=
      ih fun name revival hmem => h name revival (List.mem_cons_of_mem field hmem)
    obtain ⟨name, revival⟩ := field
    cases revival with
    | none =>
      rw [applyFields, applyFields]
      cases members.lookup name with
      | none => exact hrest
      | some raw => exact hrest
    | some revival =>
      rw [applyFields, applyFields, h name revival (List.mem_cons_self ..)]
      cases members.lookup name with
      | none => exact hrest
      | some raw => exact bind_congr fun value => hrest

end Revival

namespace ModelTypes

open Revival

variable {types compiled : ModelTypes} {mode : ObjectRevival} {within within' : Constructor}

/-- What is synthesized for a source asks only for instances that are made of parts of what the
source takes. -/
theorem Synthesizes.apply_congr {enclosing : List String} {source revival : Revival} {depth : ℕ}
    (h : types.Synthesizes mode enclosing source depth revival) :
    ∀ {bindings : Bindings}, (∀ found, source.input bindings = .ok (some found) →
        ∀ c value, value.Part found → within c value = within' c value) →
      revival.apply compiled within bindings = revival.apply compiled within' bindings := by
  induction h with
  | script text => intro bindings _; rw [apply, apply]
  | date => intro bindings _; rw [apply, apply]
  | lookup enumeration => intro bindings _; rw [apply, apply]
  | mark => intro bindings _; rw [apply, apply]
  | @construct enclosing source depth c hmode =>
    intro bindings hparts
    rw [apply, apply]
    cases hinput : source.input bindings with
    | error failure => rfl
    | ok found =>
      cases found with
      | none => rfl
      | some value => exact hparts value hinput c value .refl
  | @inlineObject enclosing source depth c fields _ _ _ _ ih =>
    intro bindings hparts
    rw [apply, apply]
    cases hinput : source.input bindings with
    | error failure => rfl
    | ok found =>
      rcases found with - | (- | - | - | - | items | members) <;> try rfl
      show RevivedValue.instance c <$> applyFields _ _ _ members [] fields =
        RevivedValue.instance c <$> applyFields _ _ _ members [] fields
      refine congrArg _ (applyFields_congr fun name revival hmem => ih name revival hmem ?_)
      intro value hvalue d part hpart
      rw [input, hinput] at hvalue
      have hchild : value.Child (.object members) := .of_member? (Except.ok.inj hvalue)
      exact hparts _ hinput d part (hpart.tail hchild)
  | @mapArray enclosing source body depth _ ih =>
    intro bindings hparts
    cases hinput : source.input bindings with
    | error failure => rw [apply, apply, hinput]; rfl
    | ok found =>
      rw [apply_mapArray hinput, apply_mapArray hinput]
      rcases found with - | (- | - | - | - | items | members) <;> try rfl
      show RevivedValue.array <$> mapItems _ items = RevivedValue.array <$> mapItems _ items
      refine congrArg _ (mapItems_congr fun item hitem => ih ?_)
      intro value hvalue d part hpart
      rw [input_param] at hvalue
      cases hvalue
      exact hparts _ hinput d part (hpart.tail (.item hitem))
  | @mapValues enclosing source body depth _ ih =>
    intro bindings hparts
    cases hinput : source.input bindings with
    | error failure => rw [apply, apply, hinput]; rfl
    | ok found =>
      rw [apply_mapValues hinput, apply_mapValues hinput]
      rcases found with - | (- | - | - | - | items | members) <;> try rfl
      show RevivedValue.map <$> mapItems _ members = RevivedValue.map <$> mapItems _ members
      refine congrArg _ (mapItems_congr fun member hmember => congrArg _ (ih ?_))
      intro value hvalue d part hpart
      rw [input_param] at hvalue
      cases hvalue
      exact hparts _ hinput d part (hpart.tail (.member hmember))

/-- The revival of a property is synthesized for a member of the object. -/
theorem synthesizes_of_mem_propertiesOf {c : String} {p : ModelProperty} {revival : Revival}
    (hp : p ∈ (types.attachRevivals mode).propertiesOf c) (hrevival : p.revival = some revival) :
    types.Synthesizes mode [] (.member (.value "data") p.name) 0 revival := by
  rw [propertiesOf_attachRevivals] at hp
  obtain ⟨q, -, rfl⟩ := List.mem_map.mp hp
  exact synthesizes_revivalOf hrevival

theorem instanceFields_congr {evaluate evaluate' : Revival → Outcome RevivedValue}
    {members : List (String × Json)} :
    ∀ {properties : List ModelProperty} {done : List (String × RevivedValue)},
      (∀ p ∈ properties, ∀ revival, p.revival = some revival →
        evaluate revival = evaluate' revival) →
      instanceFields evaluate members done properties =
        instanceFields evaluate' members done properties := by
  intro properties
  induction properties with
  | nil => intro done _; rfl
  | cons p properties ih =>
    intro done h
    have hrest : ∀ {done : List (String × RevivedValue)},
        instanceFields evaluate members done properties =
          instanceFields evaluate' members done properties :=
      ih fun q hq => h q (List.mem_cons_of_mem p hq)
    rw [instanceFields, instanceFields]
    cases members.lookup p.name with
    | none => exact hrest
    | some raw =>
      cases hrevival : p.revival with
      | none => exact hrest
      | some revival =>
        simp only [h p (List.mem_cons_self ..) revival hrevival, hrest]

/-- To make an instance of an object, only instances that are made of its strict parts are asked
for. -/
theorem asksOnly_constructBy (types : ModelTypes) (mode : ObjectRevival) (c : String)
    (whole : Json) :
    AsksOnly (fun within => (types.attachRevivals mode).constructBy within c whole)
      (·.StrictPart whole) := by
  intro within within' hparts
  cases whole with
  | object members =>
    dsimp only
    rw [constructBy, constructBy]
    dsimp only
    split_ifs
    · rfl
    · refine congrArg _ (instanceFields_congr fun p hp revival hrevival => ?_)
      refine (synthesizes_of_mem_propertiesOf hp hrevival).apply_congr ?_
      intro found hfound d value hvalue
      rw [input, input_param] at hfound
      have hchild : found.Child (.object members) := .of_member? (Except.ok.inj hfound)
      exact hparts d value (.tail' hvalue hchild)
  | _ => rfl

/-! ## Nested constructions -/

/-- However the innermost instances would be made, so many constructions in each other as the value
is deep come to the same. -/
theorem iterate_constructBy (types : ModelTypes) (mode : ObjectRevival)
    (bottom bottom' : Constructor) : ∀ {limit : ℕ} (c : String) {value : Json},
      value.depth < limit →
      (types.attachRevivals mode).constructBy^[limit] bottom c value =
        (types.attachRevivals mode).constructBy^[limit] bottom' c value := by
  intro limit
  induction limit with
  | zero => intro c value h; cases h
  | succ limit ih =>
    intro c value h
    rw [Function.iterate_succ_apply', Function.iterate_succ_apply']
    refine asksOnly_constructBy types mode c value _ _ fun d part hpart => ih d ?_
    have := hpart.depth_lt
    omega

theorem constructWithin_eq_iterate (types : ModelTypes) (limit : ℕ) :
    types.constructWithin limit = types.constructBy^[limit] (types.constructWithin 0) := by
  induction limit with
  | zero => rfl
  | succ limit ih => rw [Function.iterate_succ_apply', ← ih, constructWithin]

/-- An instance is what any greater number of constructions in each other comes to. -/
theorem iterate_eq_construct (types : ModelTypes) (mode : ObjectRevival) (bottom : Constructor)
    {limit : ℕ} (c : String) {value : Json} (h : value.depth < limit) :
    (types.attachRevivals mode).constructBy^[limit] bottom c value =
      (types.attachRevivals mode).construct c value := by
  obtain ⟨more, rfl⟩ := Nat.exists_eq_add_of_le (Nat.succ_le_of_lt h)
  rw [Function.iterate_add_apply, construct, constructWithin_eq_iterate]
  exact iterate_constructBy types mode _ _ c (Nat.lt_succ_self _)

/-- The same for the instances that are made when a revival is evaluated. -/
theorem Synthesizes.apply_eq_evaluate {source revival : Revival} {enclosing : List String}
    {depth : ℕ} (h : types.Synthesizes mode enclosing source depth revival)
    (bottom : Constructor) {limit : ℕ} {values : List (String × Json)}
    (hlimit : ∀ given ∈ values, given.2.depth < limit) :
    revival.apply (types.attachRevivals mode)
        ((types.attachRevivals mode).constructBy^[limit] bottom) (.ofList values) =
      (types.attachRevivals mode).evaluate revival values := by
  show _ = revival.apply _ (constructWithin _ (bindingsDepth (.ofList values) + 1)) _
  refine h.apply_congr fun found hfound c value hvalue => ?_
  obtain ⟨binding, hbinding, hpart⟩ := exists_part_of_input hfound
  have hdepth := hvalue.depth_le.trans hpart.depth_le
  rw [constructWithin_eq_iterate, iterate_eq_construct, iterate_eq_construct]
  · exact Nat.lt_succ_of_le (hdepth.trans (le_foldl_depth.2 binding hbinding))
  · exact hdepth.trans_lt (hlimit binding (Bindings.mem_ofList.mp hbinding))

/-! ## No construction is too deep -/

end ModelTypes

namespace Revival

variable {types : ModelTypes} {within : Constructor} {bindings : Bindings}

theorem input_ne_tooDeep : ∀ {source : Revival}, source.input bindings ≠ .error .tooDeep := by
  intro source
  induction source using input.induct bindings with
  | case1 name value hlookup =>
    rw [input, hlookup]
    intro h
    cases h
  | case2 name hlookup =>
    rw [input, hlookup]
    intro h
    cases h
  | case3 object property ih =>
    rw [input]
    exact fun h => ih (error_of_map h)
  | case4 source hvalue hmember =>
    rw [input.eq_3 bindings source hvalue hmember]
    intro h
    cases h

/-- What is made of a value that has been taken is what may be too deep. -/
theorem input_bind_ne_tooDeep {source : Revival} {make : Option Json → Outcome RevivedValue}
    (h : ∀ found, make found ≠ .error .tooDeep) :
    (source.input bindings >>= make) ≠ .error .tooDeep := by
  intro hdeep
  rcases bind_eq_error hdeep with hinput | ⟨found, -, hmake⟩
  · exact input_ne_tooDeep hinput
  · exact h found hmake

end Revival

namespace ModelTypes

open Revival

variable {types compiled : ModelTypes} {mode : ObjectRevival} {within : Constructor}

/-- The limit is reached only in constructions. -/
theorem Synthesizes.apply_ne_tooDeep {enclosing : List String} {source revival : Revival}
    {depth : ℕ} (h : types.Synthesizes mode enclosing source depth revival)
    (hwithin : ∀ c value, within c value ≠ .error .tooDeep) :
    ∀ {bindings : Bindings}, revival.apply compiled within bindings ≠ .error .tooDeep := by
  induction h with
  | script text =>
    intro bindings
    rw [apply]
    exact input_bind_ne_tooDeep fun found h => by cases h
  | date =>
    intro bindings
    rw [apply]
    exact input_bind_ne_tooDeep fun found h => by cases h
  | lookup enumeration =>
    intro bindings
    rw [apply]
    refine input_bind_ne_tooDeep fun found => ?_
    rcases found with - | (- | - | - | - | - | -) <;> intro h <;> cases h
  | mark => intro bindings h; rw [apply] at h; cases h
  | construct c hmode =>
    intro bindings
    rw [apply]
    refine input_bind_ne_tooDeep fun found => ?_
    cases found with
    | none => intro h; cases h
    | some value => exact hwithin c value
  | inlineObject _ _ _ _ ih =>
    intro bindings
    rw [apply]
    refine input_bind_ne_tooDeep fun found => ?_
    cases found with
    | none => intro h; cases h
    | some value =>
      cases value with
      | object members =>
        intro hdeep
        obtain ⟨name, revival, hmem, hfield⟩ := exists_of_applyFields_error (error_of_map hdeep)
        exact ih name revival hmem hfield
      | _ => intro h; cases h
  | mapArray _ ih =>
    intro bindings
    rw [apply]
    refine input_bind_ne_tooDeep fun found => ?_
    cases found with
    | none => intro h; cases h
    | some value =>
      cases value with
      | array items =>
        intro hdeep
        obtain ⟨item, -, hitem⟩ := exists_of_mapItems_error (error_of_map hdeep)
        exact ih hitem
      | _ => intro h; cases h
  | mapValues _ ih =>
    intro bindings
    rw [apply]
    refine input_bind_ne_tooDeep fun found => ?_
    cases found with
    | none => intro h; cases h
    | some value =>
      cases value with
      | object members =>
        intro hdeep
        obtain ⟨member, -, hmember⟩ := exists_of_mapItems_error (error_of_map hdeep)
        exact ih (error_of_map hmember)
      | _ => intro h; cases h

/-- The fields of an instance fail only where the revival of a property does. -/
theorem exists_of_instanceFields_error {evaluate : Revival → Outcome RevivedValue}
    {members : List (String × Json)} {failure : Failure} :
    ∀ {properties : List ModelProperty} {done : List (String × RevivedValue)},
      instanceFields evaluate members done properties = .error failure →
      ∃ p ∈ properties, ∃ revival, p.revival = some revival ∧
        evaluate revival = .error failure := by
  intro properties
  induction properties with
  | nil => intro done h; cases h
  | cons p properties ih =>
    intro done h
    have hrest : ∀ {done : List (String × RevivedValue)},
        instanceFields evaluate members done properties = .error failure →
        ∃ q ∈ p :: properties, ∃ revival, q.revival = some revival ∧
          evaluate revival = .error failure := by
      intro done h
      obtain ⟨q, hq, hfailure⟩ := ih h
      exact ⟨q, List.mem_cons_of_mem p hq, hfailure⟩
    rw [instanceFields] at h
    cases hlookup : members.lookup p.name with
    | none => rw [hlookup] at h; exact hrest h
    | some raw =>
      rw [hlookup] at h
      cases hrevival : p.revival with
      | none => rw [hrevival] at h; exact hrest h
      | some revival =>
        rw [hrevival] at h
        rcases bind_eq_error h with hfailure | ⟨value, -, hothers⟩
        · exact ⟨p, List.mem_cons_self .., revival, hrevival, hfailure⟩
        · exact hrest hothers

theorem constructBy_ne_tooDeep (hwithin : ∀ c value, within c value ≠ .error .tooDeep)
    (c : String) (value : Json) :
    (types.attachRevivals mode).constructBy within c value ≠ .error .tooDeep := by
  intro hdeep
  cases value with
  | object members =>
    rw [constructBy] at hdeep
    dsimp only at hdeep
    split_ifs at hdeep with hunknown
    · cases hdeep
    · obtain ⟨p, hp, revival, hrevival, hfailure⟩ :=
        exists_of_instanceFields_error (error_of_map hdeep)
      exact (synthesizes_of_mem_propertiesOf hp hrevival).apply_ne_tooDeep hwithin hfailure
  | null => cases hdeep
  | _ => cases hdeep

/-- The innermost instances do not matter, so they may as well be null. -/
theorem iterate_ne_tooDeep (types : ModelTypes) (mode : ObjectRevival) :
    ∀ (limit : ℕ) (c : String) (value : Json),
      (types.attachRevivals mode).constructBy^[limit] (fun _ _ => .ok (.raw .null)) c value ≠
        .error .tooDeep := by
  intro limit
  induction limit with
  | zero => intro c value h; cases h
  | succ limit ih =>
    rw [Function.iterate_succ_apply']
    exact constructBy_ne_tooDeep ih

theorem construct_ne_tooDeep (types : ModelTypes) (mode : ObjectRevival) (c : String)
    (value : Json) : (types.attachRevivals mode).construct c value ≠ .error .tooDeep := by
  rw [← iterate_eq_construct types mode _ c (Nat.lt_succ_self value.depth)]
  exact iterate_ne_tooDeep types mode _ c value

theorem Synthesizes.evaluate_ne_tooDeep {enclosing : List String} {source revival : Revival}
    {depth : ℕ} (h : types.Synthesizes mode enclosing source depth revival)
    {values : List (String × Json)} :
    (types.attachRevivals mode).evaluate revival values ≠ .error .tooDeep := by
  have hlimit : ∀ given ∈ values, given.2.depth < bindingsDepth values + 1 :=
    fun given hgiven => Nat.lt_succ_of_le (le_foldl_depth.2 given hgiven)
  rw [← h.apply_eq_evaluate _ hlimit]
  exact h.apply_ne_tooDeep (iterate_ne_tooDeep types mode _)

end ModelTypes

/-! ## Evaluation in compiled models -/

namespace Document

open Revival (AsksOnly Constructor)

variable {document : Document} {config : Config} {contract : Contract}

/-- In every compiled model, whatever is revived, evaluation ends.  To make an instance of a value,
instances are made of strict parts of that value only, and the revivals of the model make instances
of parts of the bound values only.  So many constructions in each other as the value is deep are
enough: how others would be made does not matter, and the limit is never reached. -/
theorem compile_evaluation_ends (h : document.compile config = .ok contract) :
    (∀ c value,
      AsksOnly (fun within => contract.types.constructBy within c value) (·.StrictPart value) ∧
      (∀ limit, value.depth < limit → ∀ bottom : Constructor,
        contract.types.constructBy^[limit] bottom c value = contract.types.construct c value) ∧
      contract.types.construct c value ≠ .error .tooDeep) ∧
    ∀ root revival, contract.Attaches root revival → ∀ values : List (String × Json),
      AsksOnly (fun within => revival.apply contract.types within (.ofList values))
        (fun value => ∃ given ∈ values, value.Part given.2) ∧
      (∀ limit, (∀ given ∈ values, given.2.depth < limit) → ∀ bottom : Constructor,
        revival.apply contract.types (contract.types.constructBy^[limit] bottom)
            (.ofList values) = contract.types.evaluate revival values) ∧
      contract.types.evaluate revival values ≠ .error .tooDeep := by
  have hcompiled := compiled_of_compile h
  rw [hcompiled.types]
  refine ⟨fun c value => ⟨ModelTypes.asksOnly_constructBy _ _ c value,
    fun limit hlimit bottom => ModelTypes.iterate_eq_construct _ _ bottom c hlimit,
    ModelTypes.construct_ne_tooDeep _ _ c value⟩, ?_⟩
  intro root revival hattached values
  obtain ⟨type, custom, source, horigin⟩ := hcompiled.exists_of_attaches hattached
  have hbuilt := ModelTypes.synthesizes_revivalOf horigin.revival
  refine ⟨?_, fun limit hlimit bottom => hbuilt.apply_eq_evaluate bottom hlimit,
    hbuilt.evaluate_ne_tooDeep⟩
  intro within within' hparts
  refine hbuilt.apply_congr fun found hfound c value hvalue => hparts c value ?_
  obtain ⟨binding, hbinding, hpart⟩ := Revival.exists_part_of_input hfound
  exact ⟨binding, Bindings.mem_ofList.mp hbinding, hvalue.trans hpart⟩

/-- A class of which instances are made within its own instances. -/
def nodes : Document where
  types :=
    [("Node", .object
      { properties := [{ name := "created", type := .named "DateTime" [] },
                       { name := "next", type := .named "Node" [] }] })]
  operations := [{ controller := "Nodes", response := .named "Node" [] }]

theorem nodes_evaluation_ends : ∃ contract, nodes.compile {} = .ok contract ∧
    ∀ c value, contract.types.construct c value ≠ .error .tooDeep := by
  obtain ⟨contract, h⟩ : ∃ contract, nodes.compile {} = .ok contract := exists_compile rfl
  exact ⟨contract, h, fun c value => ((compile_evaluation_ends h).1 c value).2.2⟩

end Document

end DataContract
