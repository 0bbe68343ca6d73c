import DataContract.Proofs.Keyed.Merging
import DataContract.Proofs.Revival.Modes
import DataContract.Proofs.Revival.Steps

/-!
# What revivals mean

A value can be read at a type without any expression: arrays and dictionaries are gone through item
by item, and at the innermost type the value is made a date, a member of an enumeration, an instance
or what a script makes of it.  The expression for the type, where there is one, comes to the same.

Results:

* `ModelTypes.interpret_error`: nothing fails but a value of another kind or an unknown class.
* `ModelTypes.reads`: an expression by constructors comes to what its type makes of the value that
  its source takes.
* `ModelTypes.evaluate_revivalOf_eq_interpret`: the same in a model.
* `ModelTypes.due_absent`: a date that is missing is null.
-/

namespace DataContract

open Revival (Outcome)

/-! ## Reading values -/

namespace Json

/-- The array of what is made of the items.  Null stays. -/
def mapArray (value : Json) (read : ∀ item : Json, item.depth < value.depth →
    Outcome RevivedValue) : Outcome RevivedValue :=
  match value with
  | .null => .ok (.raw .null)
  | .array items =>
    .array <$> items.attach.mapM fun item => read item.1 (depth_lt_of_mem item.2)
  | other => .error (.typeMismatch "array" other.kind)

/-- The dictionary of what is made of the values, under the same keys.  Null stays. -/
def mapObject (value : Json) (read : ∀ item : Json, item.depth < value.depth →
    Outcome RevivedValue) : Outcome RevivedValue :=
  match value with
  | .null => .ok (.raw .null)
  | .object members =>
    .map <$> members.attach.mapM fun member =>
      (member.1.1, ·) <$> read member.1.2 (depth_lt_of_member member.2)
  | other => .error (.typeMismatch "object" other.kind)

/-- The properties whose names are present, each with its value, in the order of the properties. -/
def present (members : List (String × Json)) (properties : List ModelProperty) :
    List (ModelProperty × Json) :=
  properties.filterMap fun p => (members.lookup p.name).map (p, ·)

theorem depth_lt_of_mem_present {members : List (String × Json)} {properties : List ModelProperty}
    {entry : ModelProperty × Json} (h : entry ∈ present members properties) :
    entry.2.depth < (Json.object members).depth := by
  obtain ⟨p, -, hp⟩ := List.mem_filterMap.mp h
  obtain ⟨item, hitem, rfl⟩ := Option.map_eq_some_iff.mp hp
  exact depth_lt_of_member (Revival.mem_of_lookup hitem)

theorem mem_of_mem_present {members : List (String × Json)} {properties : List ModelProperty}
    {entry : ModelProperty × Json} (h : entry ∈ present members properties) :
    entry.1 ∈ properties := by
  obtain ⟨p, hmem, hp⟩ := List.mem_filterMap.mp h
  obtain ⟨item, -, rfl⟩ := Option.map_eq_some_iff.mp hp
  exact hmem

end Json

namespace ModelTypes

variable (types : ModelTypes)

/-- The instance of a class, of which a field is what is made of the value of the property.  Null
stays. -/
def instanceOf (className : String) (value : Json) (read : ModelProperty → ∀ item : Json,
    item.depth < value.depth → Outcome RevivedValue) : Outcome RevivedValue :=
  match value with
  | .null => .ok (.raw .null)
  | .object members =>
    if (types.class? className).isNone then .error (.unknownClass className)
    else
      (fun fields => .instance className (Keyed.merged fields)) <$>
        (Json.present members (types.propertiesOf className)).attach.mapM fun entry =>
          (entry.1.1.name, ·) <$> read entry.1.1 entry.1.2 (Json.depth_lt_of_mem_present entry.2)
  | other => .error (.typeMismatch "object" other.kind)

/-- The member of an enumeration that a value stands for: by its number as it is, or by its
name. -/
def memberOf (enumeration : String) : Json → RevivedValue
  | .number number => .raw (.number number)
  | .string name => Revival.lookupMember types enumeration name
  | _ => .undefined

/-- What a step makes of a value.  `read` reads the properties of an instance. -/
def take (value : Json) (read : ModelProperty → ∀ item : Json, item.depth < value.depth →
    Outcome RevivedValue) : Step → Outcome RevivedValue
  | .script text => .ok (.scripted text value)
  | .date => .ok (Revival.dateOf value)
  | .lookup enumeration => .ok (types.memberOf enumeration value)
  | .instance className => types.instanceOf className value read

/-- What a value is at a type.  The step is taken at the innermost type and nowhere else, and
without a step the value is fine as it is. -/
def interpret (type : ValueType) (custom : Option String) (value : Json) : Outcome RevivedValue :=
  match type.step? custom, type.layer with
  | none, _ => .ok (.raw value)
  | some _, .items element => value.mapArray fun item _ => interpret element custom item
  | some _, .entries element => value.mapObject fun item _ => interpret element custom item
  | some step, .innermost =>
    types.take value (fun p item _ => interpret p.type p.customReviver item) step
termination_by value.depth

end ModelTypes

/-- What a step makes of no value.  A date is null then, and a script is applied to null. -/
def Step.absent : Step → RevivedValue
  | .script text => .scripted text .null
  | .date => .raw .null
  | .lookup _ | .instance _ => .undefined

/-- What a value that may be absent is at a type.  Arrays and dictionaries that are absent stay
so. -/
def ModelTypes.interpret? (types : ModelTypes) (type : ValueType) (custom : Option String) :
    Option Json → Outcome RevivedValue
  | some value => types.interpret type custom value
  | none =>
    match type.step? custom, type.layer with
    | some step, .innermost => .ok step.absent
    | _, _ => .ok .undefined

/-! ## Steps that make instances -/

namespace ValueType

variable {type inner : ValueType}

theorem objectName?_of_items (h : type.layer = .items inner) :
    type.objectName? = inner.objectName? := by
  obtain ⟨name, shape, optional, userDefined⟩ := type
  cases shape <;> cases h
  rw [objectName?, ValueShape.objectName?]

theorem objectName?_of_entries (h : type.layer = .entries inner) :
    type.objectName? = inner.objectName? := by
  obtain ⟨name, shape, optional, userDefined⟩ := type
  cases shape with
  | dictionary key value =>
    cases h
    rw [objectName?, ValueShape.objectName?]
  | dictionaryOfArrays key element =>
    cases h
    have harray : element.arrayOf.objectName? = element.objectName? := objectName?_of_items rfl
    rw [harray, objectName?, ValueShape.objectName?]
  | _ => cases h

theorem objectName?_eq_some_iff {c : String} (type : ValueType) :
    type.objectName? = some c ↔ type.step? none = some (.instance c) := by
  induction type using layer_induction with
  | items type element h ih => rw [objectName?_of_items h, step?_of_items h, ih]
  | entries type value h ih => rw [objectName?_of_entries h, step?_of_entries h, ih]
  | innermost type h =>
    have hself := innermost_eq_self h
    unfold step?
    rw [hself]
    obtain ⟨name, shape, optional, userDefined⟩ := type
    cases shape with
    | object =>
      rw [objectName?, ValueShape.objectName?]
      cases userDefined <;> simp
    | scalar kind =>
      rw [objectName?, ValueShape.objectName?]
      cases kind <;> simp
    | enum =>
      rw [objectName?, ValueShape.objectName?]
      cases userDefined <;> simp
    | _ => cases h

/-- The class of which a revival makes instances is the one of its step. -/
theorem made?_eq_some_iff {c : String} {custom : Option String} :
    type.made? custom = some c ↔ type.step? custom = some (.instance c) := by
  cases custom with
  | none => exact objectName?_eq_some_iff type
  | some script => exact ⟨nofun, nofun⟩

end ValueType

/-! ## Reading without bounds -/

namespace Revival

theorem mapM_eq_mapItems {α β : Type} (f : α → Outcome β) (items : List α) :
    items.mapM f = mapItems f items := by
  induction items with
  | nil => rfl
  | cons item items ih =>
    rw [List.mapM_cons, mapItems, ih]

theorem mapM_attach_eq_mapItems {α β : Type} {items : List α} {read : {a // a ∈ items} → Outcome β}
    {f : α → Outcome β} (h : ∀ a (ha : a ∈ items), read ⟨a, ha⟩ = f a) :
    items.attach.mapM read = mapItems f items := by
  rw [List.mapM_subtype h, List.unattach_attach, mapM_eq_mapItems]

end Revival

namespace Json

open Revival

variable {read : Json → Outcome RevivedValue} {value : Json} {failure : Failure}

theorem mapArray_eq (read : Json → Outcome RevivedValue) (value : Json) :
    value.mapArray (fun item _ => read item) =
      match value with
      | .null => .ok (.raw .null)
      | .array items => .array <$> mapItems read items
      | other => mismatch "array" other := by
  cases value with
  | array items => rw [mapArray, mapM_attach_eq_mapItems fun a ha => rfl]
  | _ => rfl

theorem mapObject_eq (read : Json → Outcome RevivedValue) (value : Json) :
    value.mapObject (fun item _ => read item) =
      match value with
      | .null => .ok (.raw .null)
      | .object members =>
        .map <$> mapItems (fun member => (member.1, ·) <$> read member.2) members
      | other => mismatch "object" other := by
  cases value with
  | object members =>
    rw [mapObject, mapM_attach_eq_mapItems (f := fun member => (member.1, ·) <$> read member.2)
      fun a ha => rfl]
  | _ => rfl

theorem error_of_mapArray (h : value.mapArray (fun item _ => read item) = .error failure) :
    (∃ expected found, failure = .typeMismatch expected found) ∨
      ∃ item : Json, item.depth < value.depth ∧ read item = .error failure := by
  rw [mapArray_eq] at h
  cases value with
  | array items =>
    obtain ⟨item, hitem, hfailure⟩ := exists_of_mapItems_error (error_of_map h)
    exact Or.inr ⟨item, depth_lt_of_mem hitem, hfailure⟩
  | null => cases h
  | _ => cases h; exact Or.inl ⟨_, _, rfl⟩

theorem error_of_mapObject (h : value.mapObject (fun item _ => read item) = .error failure) :
    (∃ expected found, failure = .typeMismatch expected found) ∨
      ∃ item : Json, item.depth < value.depth ∧ read item = .error failure := by
  rw [mapObject_eq] at h
  cases value with
  | object members =>
    obtain ⟨member, hmember, hfailure⟩ := exists_of_mapItems_error (error_of_map h)
    exact Or.inr ⟨member.2, depth_lt_of_member hmember, error_of_map hfailure⟩
  | null => cases h
  | _ => cases h; exact Or.inl ⟨_, _, rfl⟩

end Json

namespace ModelTypes

open Revival

variable {types : ModelTypes} {type inner : ValueType} {custom : Option String} {value : Json}

theorem instanceOf_eq (className : String) (value : Json)
    (read : ModelProperty → Json → Outcome RevivedValue) :
    types.instanceOf className value (fun p item _ => read p item) =
      match value with
      | .null => .ok (.raw .null)
      | .object members =>
        if (types.class? className).isNone then .error (.unknownClass className)
        else
          (fun fields => .instance className (Keyed.merged fields)) <$>
            mapItems (fun entry => (entry.1.name, ·) <$> read entry.1 entry.2)
              (Json.present members (types.propertiesOf className))
      | other => mismatch "object" other := by
  cases value with
  | object members =>
    rw [instanceOf, mapM_attach_eq_mapItems
      (f := fun entry => (entry.1.name, ·) <$> read entry.1 entry.2) fun a ha => rfl]
  | _ => rfl

theorem error_of_instanceOf {className : String} {failure : Failure}
    {read : ModelProperty → Json → Outcome RevivedValue}
    (h : types.instanceOf className value (fun p item _ => read p item) = .error failure) :
    (∃ expected found, failure = .typeMismatch expected found) ∨
      (failure = .unknownClass className ∧ types.class? className = none) ∨
      ∃ p ∈ types.propertiesOf className, ∃ item : Json,
        item.depth < value.depth ∧ read p item = .error failure := by
  rw [instanceOf_eq] at h
  cases value with
  | object members =>
    simp only at h
    split_ifs at h with hunknown
    · cases h
      exact Or.inr (Or.inl ⟨rfl, by simpa using hunknown⟩)
    · obtain ⟨entry, hentry, hfailure⟩ := exists_of_mapItems_error (error_of_map h)
      exact Or.inr (Or.inr ⟨entry.1, Json.mem_of_mem_present hentry, entry.2,
        Json.depth_lt_of_mem_present hentry, error_of_map hfailure⟩)
  | null => cases h
  | _ => cases h; exact Or.inl ⟨_, _, rfl⟩

/-! ## Reading layer by layer -/

theorem interpret_of_none (h : type.step? custom = none) :
    types.interpret type custom value = .ok (.raw value) := by
  rw [interpret, h]

theorem interpret_of_items {step : Step} (hstep : type.step? custom = some step)
    (h : type.layer = .items inner) :
    types.interpret type custom value =
      value.mapArray fun item _ => types.interpret inner custom item := by
  rw [interpret, hstep, h]

theorem interpret_of_entries {step : Step} (hstep : type.step? custom = some step)
    (h : type.layer = .entries inner) :
    types.interpret type custom value =
      value.mapObject fun item _ => types.interpret inner custom item := by
  rw [interpret, hstep, h]

theorem interpret_of_innermost {step : Step} (hstep : type.step? custom = some step)
    (h : type.layer = .innermost) :
    types.interpret type custom value =
      types.take value (fun p item _ => types.interpret p.type p.customReviver item) step := by
  rw [interpret, hstep, h]

/-! ## Expressions by constructors -/

/-- A property that is present sets the field that its revival makes. -/
theorem instanceFields_cons {evaluate : Revival → Outcome RevivedValue}
    {members : List (String × Json)} {p : ModelProperty} {item : Json}
    (h : members.lookup p.name = some item) (done : List (String × RevivedValue))
    (rest : List ModelProperty) :
    instanceFields evaluate members done (p :: rest) =
      p.revival.elim (.ok (.raw item)) evaluate >>= fun value =>
        instanceFields evaluate members (Keyed.set p.name value done) rest := by
  rw [instanceFields, h]
  cases p.revival <;> rfl

/-- The fields of an instance are set one after the other, each as its revival makes it of the
object. -/
theorem instanceFields_eq {evaluate : Revival → Outcome RevivedValue}
    {read : ModelProperty → Json → Outcome RevivedValue} {members : List (String × Json)} :
    ∀ {properties : List ModelProperty} (done : List (String × RevivedValue)),
      (∀ p ∈ properties, ∀ item, members.lookup p.name = some item →
        (types.reviveProperty .construct p).revival.elim (.ok (.raw item)) evaluate =
          read p item) →
      instanceFields evaluate members done (properties.map (types.reviveProperty .construct)) =
        (fun fields => fields.foldl (fun done field => Keyed.set field.1 field.2 done) done) <$>
          mapItems (fun entry => (entry.1.name, ·) <$> read entry.1 entry.2)
            (Json.present members properties) := by
  intro properties
  induction properties with
  | nil => intro done _; rfl
  | cons p properties ih =>
    intro done hread
    have hothers : ∀ q ∈ properties, ∀ item, members.lookup q.name = some item →
        (types.reviveProperty .construct q).revival.elim (.ok (.raw item)) evaluate =
          read q item := fun q hq => hread q (List.mem_cons_of_mem p hq)
    rw [List.map_cons, Json.present, List.filterMap_cons]
    cases hlookup : members.lookup p.name with
    | none =>
      have hname : members.lookup (types.reviveProperty .construct p).name = none := hlookup
      rw [instanceFields, hname]
      exact ih done hothers
    | some item =>
      rw [instanceFields_cons (p := types.reviveProperty .construct p) hlookup,
        hread p (by simp) item hlookup]
      simp only [Option.map_some, mapItems]
      cases read p item with
      | error failure => rfl
      | ok value =>
        refine (ih (Keyed.set p.name value done) hothers).trans ?_
        show _ = _ <$> (mapItems _ (Json.present members properties) >>= _)
        cases mapItems _ (Json.present members properties) <;> rfl

/-- Up to a depth of values, every expression by constructors comes to what its type makes of the
value that its source takes. -/
def Reads (types : ModelTypes) (limit : ℕ) : Prop :=
  ∀ (type : ValueType) (custom : Option String) (source : Revival) (depth : ℕ)
    (bindings : Bindings) (found : Option Json) (revival : Revival),
    source.input bindings = .ok found → (∀ value ∈ found, value.depth < limit) →
    type.reviver .construct custom source depth = some revival →
    revival.apply (types.attachRevivals .construct)
      ((types.attachRevivals .construct).constructWithin limit) bindings =
        types.interpret? type custom found

/-- An instance is made of the properties that are present. -/
theorem constructWithin_eq_instanceOf {less : ℕ} (hless : types.Reads less) (className : String)
    (value : Json) (hvalue : value.depth < less + 1) :
    (types.attachRevivals .construct).constructWithin (less + 1) className value =
      types.instanceOf className value fun p item _ =>
        types.interpret p.type p.customReviver item := by
  rw [instanceOf_eq className value fun p item => types.interpret p.type p.customReviver item]
  cases value with
  | object members =>
    have hclass : ((types.attachRevivals .construct).class? className).isNone =
        (types.class? className).isNone := by
      rw [class?_attachRevivals, Option.isNone_map]
    rw [constructWithin, constructBy]
    simp only [hclass]
    split_ifs with hunknown
    · rfl
    · have hread : ∀ p ∈ types.propertiesOf className, ∀ item,
          members.lookup p.name = some item →
          (types.reviveProperty .construct p).revival.elim (.ok (.raw item))
            (Revival.apply (types.attachRevivals .construct)
              ((types.attachRevivals .construct).constructWithin less)
              [("data", .object members)]) =
            types.interpret p.type p.customReviver item := by
        intro p _ item hitem
        have hinput : (Revival.member (.value "data") p.name).input [("data", .object members)] =
            .ok (some item) := by
          rw [input, input_param]
          exact congrArg Except.ok hitem
        have hdepth : item.depth < less := by
          have := Json.depth_lt_of_member (mem_of_lookup hitem)
          omega
        cases hrevival : (types.reviveProperty .construct p).revival with
        | none =>
          rw [interpret_of_none (ValueType.step?_eq_none_of_reviver hrevival)]
          rfl
        | some revival =>
          exact hless p.type p.customReviver _ 0 _ (some item) revival hinput
            (by simpa using hdepth) hrevival
      rw [propertiesOf_attachRevivals, instanceFields_eq [] hread]
      simp only [← Keyed.setAll_eq_merged]
      show _ <$> (_ <$> mapItems _ _) = _
      rw [← comp_map]
      rfl
  | _ => rfl

/-- A map of an array comes to the array that is read. -/
theorem reads_of_less {limit : ℕ} (hless : ∀ less, limit = less + 1 → types.Reads less) :
    types.Reads limit := by
  intro type
  induction type using ValueType.layer_induction with
  | items type element hlayer ih =>
    intro custom source depth bindings found revival hinput hdepth hrevival
    obtain ⟨step, hstep⟩ := ValueType.exists_step_of_reviver hrevival
    rw [ValueType.reviver_of_items _ _ _ hlayer] at hrevival
    obtain ⟨body, hbody, rfl⟩ := Option.map_eq_some_iff.mp hrevival
    rw [apply_mapArray hinput]
    cases found with
    | none =>
      rw [interpret?, hstep, hlayer]
      rfl
    | some value =>
      rw [interpret?, interpret_of_items hstep hlayer, Json.mapArray_eq]
      cases value with
      | array items =>
        show RevivedValue.array <$> mapItems _ items = RevivedValue.array <$> mapItems _ items
        refine congrArg _ (mapItems_congr fun item hitem => ?_)
        have hlt := (Json.depth_lt_of_mem hitem).trans (hdepth _ rfl)
        exact ih custom _ _ _ (some item) body (input_param _ item bindings) (by simpa using hlt)
          hbody
      | _ => rfl
  | entries type element hlayer ih =>
    intro custom source depth bindings found revival hinput hdepth hrevival
    obtain ⟨step, hstep⟩ := ValueType.exists_step_of_reviver hrevival
    rw [ValueType.reviver_of_entries _ _ _ hlayer] at hrevival
    obtain ⟨body, hbody, rfl⟩ := Option.map_eq_some_iff.mp hrevival
    rw [apply_mapValues hinput]
    cases found with
    | none =>
      rw [interpret?, hstep, hlayer]
      rfl
    | some value =>
      rw [interpret?, interpret_of_entries hstep hlayer, Json.mapObject_eq]
      cases value with
      | object members =>
        show RevivedValue.map <$> mapItems _ members = RevivedValue.map <$> mapItems _ members
        refine congrArg _ (mapItems_congr fun member hmember => congrArg _ ?_)
        have hlt := (Json.depth_lt_of_member hmember).trans (hdepth _ rfl)
        exact ih custom _ _ _ (some member.2) body (input_param _ member.2 bindings)
          (by simpa using hlt) hbody
      | _ => rfl
  | innermost type hlayer =>
    intro custom source depth bindings found revival hinput hdepth hrevival
    rw [ValueType.reviver_of_innermost _ _ _ hlayer] at hrevival
    obtain ⟨step, hstep, rfl⟩ := Option.map_eq_some_iff.mp hrevival
    have hread : types.interpret? type custom found = found.elim (.ok step.absent) fun value =>
        types.take value (fun p item _ => types.interpret p.type p.customReviver item) step := by
      cases found with
      | none => rw [interpret?, hstep, hlayer]; rfl
      | some value => exact interpret_of_innermost hstep hlayer
    rw [hread]
    cases step with
    | script text =>
      rw [Step.revival, apply, hinput]
      cases found <;> rfl
    | date =>
      rw [Step.revival, apply, hinput]
      cases found <;> rfl
    | lookup enumeration =>
      rw [Step.revival, apply]
      simp only [hinput]
      rcases found with - | (- | - | - | - | - | -) <;> rfl
    | «instance» className =>
      rw [Step.revival, ObjectMaker.construct, apply]
      simp only [hinput]
      cases found with
      | none => rfl
      | some value =>
        have hlt := hdepth value rfl
        obtain ⟨less, rfl⟩ : ∃ less, limit = less + 1 := ⟨limit - 1, by omega⟩
        exact constructWithin_eq_instanceOf (hless less rfl) className value hlt

theorem reads (types : ModelTypes) (limit : ℕ) : types.Reads limit := by
  induction limit with
  | zero => exact reads_of_less fun less h => absurd h (Nat.succ_ne_zero less).symm
  | succ limit ih =>
    refine reads_of_less fun less h => ?_
    obtain rfl : less = limit := by omega
    exact ih

/-! ## Failures -/

/-- A property of a needed class needs what its type needs. -/
theorem Needs.through {c : String} {p : ModelProperty} (hc : types.Needs type custom c)
    (hp : p ∈ types.propertiesOf c) {d : String} (hd : types.Needs p.type p.customReviver d) :
    types.Needs type custom d := by
  induction hd with
  | leaf h => exact .property hc hp h
  | property _ hq hd ih => exact .property ih hq hd

/-- A type needs what it needs within its outermost layer. -/
theorem Needs.outer {d : String} (h : type.step? custom = inner.step? custom)
    (hd : types.Needs inner custom d) : types.Needs type custom d := by
  induction hd with
  | leaf hleaf =>
    rw [ValueType.made?_eq_some_iff, ← h] at hleaf
    exact .leaf (ValueType.made?_eq_some_iff.mpr hleaf)
  | property _ hp hd ih => exact .property ih hp hd

/-- Why reading a value may fail: a value is of another kind, or a class that is needed is
unknown. -/
inductive Explains (types : ModelTypes) (type : ValueType) (custom : Option String) :
    Failure → Prop where
  | mismatch (expected found : String) : Explains types type custom (.typeMismatch expected found)
  | unknown {c : String} : types.Needs type custom c → types.class? c = none →
      Explains types type custom (.unknownClass c)

theorem Explains.outer {failure : Failure} (h : type.step? custom = inner.step? custom)
    (hfailure : types.Explains inner custom failure) : types.Explains type custom failure := by
  cases hfailure with
  | mismatch expected found => exact .mismatch expected found
  | unknown hneeds hunknown => exact .unknown (hneeds.outer h) hunknown

/-- Nothing fails but a value of another kind or an unknown class.  The induction is on the depth
of the value, which every layer and every property makes less. -/
theorem interpret_error : ∀ (limit : ℕ) (type : ValueType) (custom : Option String) (value : Json)
    (failure : Failure), value.depth < limit →
    types.interpret type custom value = .error failure → types.Explains type custom failure := by
  intro limit
  induction limit with
  | zero => intro type custom value failure hlt; cases hlt
  | succ limit ih =>
    intro type custom value failure hlt h
    cases hstep : type.step? custom with
    | none => rw [interpret_of_none hstep] at h; cases h
    | some step =>
      cases hlayer : type.layer with
      | items element =>
        rw [interpret_of_items hstep hlayer] at h
        rcases Json.error_of_mapArray h with ⟨expected, found, rfl⟩ | ⟨item, hless, hfailure⟩
        · exact .mismatch expected found
        · exact (ih element custom item failure (by omega) hfailure).outer
            (ValueType.step?_of_items hlayer)
      | entries element =>
        rw [interpret_of_entries hstep hlayer] at h
        rcases Json.error_of_mapObject h with ⟨expected, found, rfl⟩ | ⟨item, hless, hfailure⟩
        · exact .mismatch expected found
        · exact (ih element custom item failure (by omega) hfailure).outer
            (ValueType.step?_of_entries hlayer)
      | innermost =>
        rw [interpret_of_innermost hstep hlayer] at h
        cases step with
        | script text => cases h
        | date => cases h
        | lookup enumeration => cases h
        | «instance» className =>
          have hneeds : types.Needs type custom className :=
            .leaf (ValueType.made?_eq_some_iff.mpr hstep)
          rcases error_of_instanceOf h with ⟨expected, found, rfl⟩ | ⟨rfl, hunknown⟩ |
            ⟨p, hp, item, hless, hfailure⟩
          · exact .mismatch expected found
          · exact .unknown hneeds hunknown
          · cases ih _ _ item failure (by omega) hfailure with
            | mismatch expected found => exact .mismatch expected found
            | unknown hinner hunknown => exact .unknown (hneeds.through hp hinner) hunknown

/-! ## Revivals in a model -/

theorem evaluate_eq_interpret? {source revival : Revival} {values : List (String × Json)}
    {found : Option Json} (hsource : source.input (.ofList values) = .ok found)
    (hrevival : types.revivalOf .construct type custom source = some revival) :
    (types.attachRevivals .construct).evaluate revival values =
      types.interpret? type custom found :=
  types.reads _ type custom source 0 (.ofList values) found revival hsource
    (fun _ hvalue => Nat.lt_succ_of_le (depth_input_le (hvalue ▸ hsource))) hrevival

theorem interpret?_error {found : Option Json} {failure : Failure}
    (h : types.interpret? type custom found = .error failure) :
    types.Explains type custom failure := by
  cases found with
  | none =>
    rw [interpret?] at h
    split at h <;> cases h
  | some value => exact interpret_error _ type custom value failure (Nat.lt_succ_self _) h

/-- In a model whose objects are made by constructors, the revival of a type comes to what the type
makes of the value that its source takes.  There is none for a type that leaves its values as they
are.  If the classes of which instances are made are known, then nothing fails but a value of
another kind. -/
theorem evaluate_revivalOf_eq_interpret (types : ModelTypes) (type : ValueType)
    (custom : Option String) (source : Revival) (values : List (String × Json))
    (found : Option Json) (hsource : source.input (.ofList values) = .ok found)
    (hknown : ∀ c, types.Needs type custom c → (types.class? c).isSome = true) :
    let compiled := types.attachRevivals .construct
    (compiled.revivalOf .construct type custom source = none ↔ type.step? custom = none) ∧
      ∀ revival, compiled.revivalOf .construct type custom source = some revival →
        compiled.evaluate revival values = types.interpret? type custom found ∧
        ∀ failure, compiled.evaluate revival values = .error failure →
          ∃ expected actual, failure = .typeMismatch expected actual := by
  intro compiled
  rw [revivalOf_attachRevivals]
  refine ⟨?_, fun revival hrevival => ?_⟩
  · rw [← Option.isNone_iff_eq_none, ← Option.isNone_iff_eq_none, ← Option.not_isSome,
      ← Option.not_isSome, revivalOf, ValueType.isSome_reviver_eq]
  · have hread := evaluate_eq_interpret? hsource hrevival
    refine ⟨hread, fun failure hfailure => ?_⟩
    rw [hread] at hfailure
    cases interpret?_error hfailure with
    | mismatch expected actual => exact ⟨expected, actual, rfl⟩
    | unknown hneeds hunknown =>
      have hfound := hknown _ hneeds
      rw [hunknown] at hfound
      cases hfound

/-- An order is read property by property. -/
theorem orders_interpret :
    (orders.attachRevivals .construct).evaluate (.construct "Order" (.value "response"))
        [("response", .object [("items", .array [.object [("due", .string "2020-01-01")]])])] =
      orders.interpret? ⟨"Order", .object, false, true⟩ none
        (some (.object [("items", .array [.object [("due", .string "2020-01-01")]])])) := by
  refine ((evaluate_revivalOf_eq_interpret orders ⟨"Order", .object, false, true⟩ none
    (.value "response") [("response", _)] _ (input_param _ _ _) ?_).2 _ rfl).1
  intro c hc
  rcases orders_needs hc with rfl | rfl
  · decide +kernel
  · decide +kernel

/-- A date that is missing comes to null, although nothing is there. -/
theorem due_absent : ∃ revival,
    (orders.attachRevivals .construct).revivalOf .construct (.scalar .date) none
      (.member (.value "data") "due") = some revival ∧
    (Revival.member (.value "data") "due").input [("data", .object [])] = .ok none ∧
    (orders.attachRevivals .construct).evaluate revival [("data", .object [])] =
      .ok (.raw .null) ∧
    (orders.attachRevivals .construct).evaluate revival [("data", .object [])] ≠
      .ok .undefined := by
  have hnull : (orders.attachRevivals .construct).evaluate
      (.date (.member (.value "data") "due")) [("data", .object [])] = .ok (.raw .null) := by
    rw [evaluate, apply]
    rfl
  refine ⟨.date (.member (.value "data") "due"), rfl, rfl, hnull, ?_⟩
  rw [hnull]
  intro h
  cases h

end ModelTypes

end DataContract
