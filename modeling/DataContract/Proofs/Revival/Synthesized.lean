import DataContract.Proofs.Revival.Modes
import DataContract.Proofs.Revival.Steps

/-!
# What can be synthesized

The expressions that synthesis gives for a source, by how they are built: a step is taken at the
source, a map binds its parameter for its body, and an object in place has an expression for each
member that needs one.  What holds of all of them is proved once by this induction.

Results:

* `ModelTypes.expands_expand`: an object in place is a mark, or has the fields of its properties.
* `Revival.Gathers.mem_iff`: what is gathered from the fields of an object.
* `ModelTypes.synthesizes_revivalOf`: whatever is synthesized in a model is built in these ways.
-/

namespace DataContract

namespace ModelTypes

/-! ## Objects in place -/

section Expansion

variable {types : ModelTypes} {limit : ℕ} {enclosing : List String}

theorem propertiesOf_eq_nil {c : String} (h : types.class? c = none) :
    types.propertiesOf c = [] := by
  rw [propertiesOf, h, chain]
  · rfl
  · simp

/-- The fields of an object that is expanded in place. -/
def fields (types : ModelTypes) (limit : ℕ) (enclosing : List String) (c : String)
    (source : Revival) (depth : ℕ) : List (String × Option Revival) :=
  (types.propertiesOf c).map fun p =>
    (p.name, p.type.reviver (types.expand limit enclosing) p.customReviver (.member source p.name)
      depth)

/-- A class within itself is marked.  One that is not in the model has no fields, and one that is
has those of its properties, with less room within. -/
inductive Expands (types : ModelTypes) (limit : ℕ) (enclosing : List String) (c : String)
    (source : Revival) (depth : ℕ) : Revival → Prop where
  | mark : c ∈ enclosing → Expands types limit enclosing c source depth (.recursion c)
  | unknown : c ∉ enclosing → types.class? c = none →
      Expands types limit enclosing c source depth (.inlineObject c source [])
  | known {less : ℕ} : c ∉ enclosing → limit = less + 1 → types.Room less (enclosing ++ [c]) →
      Expands types limit enclosing c source depth
        (.inlineObject c source (types.fields less (enclosing ++ [c]) c source depth))

theorem expands_expand (h : types.Room limit enclosing) (c : String) (source : Revival)
    (depth : ℕ) : types.Expands limit enclosing c source depth
      (types.expand limit enclosing c source depth) := by
  by_cases hmem : c ∈ enclosing
  · have hmark : types.expand limit enclosing c source depth = .recursion c := by
      unfold expand
      rw [if_pos hmem]
    rw [hmark]
    exact .mark hmem
  · cases hclass : types.class? c with
    | none =>
      have hbare : types.expand limit enclosing c source depth = .inlineObject c source [] := by
        unfold expand
        rw [if_neg hmem]
        cases limit with
        | zero => rfl
        | succ less => rw [propertiesOf_eq_nil hclass]; rfl
      rw [hbare]
      exact .unknown hmem hclass
    | some found =>
      have hknown : (types.class? c).isSome = true := by rw [hclass]; rfl
      obtain ⟨less, rfl, hroom⟩ := h.enter hknown hmem
      have hfields : types.expand (less + 1) enclosing c source depth =
          .inlineObject c source (types.fields less (enclosing ++ [c]) c source depth) := by
        rw [expand, if_neg hmem]
        rfl
      rw [hfields]
      exact .known hmem rfl hroom

theorem Room.length_le (h : types.Room limit enclosing) :
    enclosing.length ≤ types.classes.length := by
  have hsub : enclosing ⊆ types.classes.map (·.name) :=
    fun c hc => mem_names_of_class? (h.known c hc)
  simpa using (h.distinct.subperm hsub).length_le

end Expansion

end ModelTypes

/-! ## Fields -/

/-- A list is gathered field by field: of a field with an expression what that gives, and of one
without always the same. -/
structure Revival.Gathers {α : Type} (gather : List (String × Option Revival) → List α)
    (blank : List α) (give : Revival → List α) : Prop where
  nil : gather [] = []
  absent : ∀ name fields, gather ((name, none) :: fields) = blank ++ gather fields
  present : ∀ name revival fields,
    gather ((name, some revival) :: fields) = give revival ++ gather fields

theorem Revival.Gathers.mem_iff {α : Type} {gather : List (String × Option Revival) → List α}
    {blank : List α} {give : Revival → List α} (h : Gathers gather blank give) {a : α} :
    ∀ {fields : List (String × Option Revival)}, a ∈ gather fields ↔
      ∃ field ∈ fields, field.2.elim (a ∈ blank) fun revival => a ∈ give revival := by
  intro fields
  induction fields with
  | nil => simp [h.nil]
  | cons field fields ih =>
    obtain ⟨name, revival⟩ := field
    cases revival <;> simp [h.absent, h.present, ih]

namespace ModelTypes

/-! ## Ways to build an expression -/

/-- The expressions for a source within the objects in place of the enclosing classes and within
`depth` maps. -/
inductive Synthesizes (types : ModelTypes) (mode : ObjectRevival) :
    List String → Revival → ℕ → Revival → Prop where
  | script {enclosing : List String} {source : Revival} {depth : ℕ} (text : String) :
      Synthesizes types mode enclosing source depth (.custom text source)
  | date {enclosing : List String} {source : Revival} {depth : ℕ} :
      Synthesizes types mode enclosing source depth (.date source)
  | lookup {enclosing : List String} {source : Revival} {depth : ℕ} (enumeration : String) :
      Synthesizes types mode enclosing source depth (.enumLookup enumeration source)
  | construct {enclosing : List String} {source : Revival} {depth : ℕ} (c : String) :
      mode = .construct → Synthesizes types mode enclosing source depth (.construct c source)
  | mark {enclosing : List String} {source : Revival} {depth : ℕ} {c : String} : c ∈ enclosing →
      Synthesizes types mode enclosing source depth (.recursion c)
  | inlineObject {enclosing : List String} {source : Revival} {depth : ℕ} {c : String}
      {fields : List (String × Option Revival)} : mode = .inline → c ∉ enclosing →
      enclosing.length ≤ types.classes.length →
      (∀ name revival, (name, some revival) ∈ fields →
        Synthesizes types mode (enclosing ++ [c]) (.member source name) depth revival) →
      Synthesizes types mode enclosing source depth (.inlineObject c source fields)
  | mapArray {enclosing : List String} {source body : Revival} {depth : ℕ} :
      Synthesizes types mode enclosing (.value (mapParameter depth)) (depth + 1) body →
      Synthesizes types mode enclosing source depth (.mapArray source (mapParameter depth) body)
  | mapValues {enclosing : List String} {source body : Revival} {depth : ℕ} :
      Synthesizes types mode enclosing (.value (mapParameter depth)) (depth + 1) body →
      Synthesizes types mode enclosing source depth (.mapValues source (mapParameter depth) body)

section Synthesizes

variable {types : ModelTypes} {mode : ObjectRevival} {limit : ℕ} {enclosing : List String}

/-- If objects are made in these ways, so is the expression for every type. -/
theorem synthesizes_reviver {make : ObjectMaker}
    (hmake : ∀ c source depth, types.Synthesizes mode enclosing source depth (make c source depth))
    (custom : Option String) (type : ValueType) :
    ∀ {source revival : Revival} {depth : ℕ},
      type.reviver make custom source depth = some revival →
      types.Synthesizes mode enclosing source depth revival := by
  induction type using ValueType.layer_induction with
  | items type element hlayer ih =>
    intro source revival depth hrevival
    rw [ValueType.reviver_of_items _ _ _ hlayer] at hrevival
    obtain ⟨body, hbody, rfl⟩ := Option.map_eq_some_iff.mp hrevival
    exact .mapArray (ih hbody)
  | entries type element hlayer ih =>
    intro source revival depth hrevival
    rw [ValueType.reviver_of_entries _ _ _ hlayer] at hrevival
    obtain ⟨body, hbody, rfl⟩ := Option.map_eq_some_iff.mp hrevival
    exact .mapValues (ih hbody)
  | innermost type hlayer =>
    intro source revival depth hrevival
    rw [ValueType.reviver_of_innermost _ _ _ hlayer] at hrevival
    obtain ⟨step, -, rfl⟩ := Option.map_eq_some_iff.mp hrevival
    cases step with
    | script text => exact .script text
    | date => exact .date
    | lookup enumeration => exact .lookup enumeration
    | «instance» className => exact hmake className source depth

/-- Objects in place are made in these ways.  The induction is on how many classes may still come to
enclose others. -/
theorem synthesizes_expand : ∀ (limit : ℕ) (enclosing : List String), types.Room limit enclosing →
    ∀ c source depth, types.Synthesizes .inline enclosing source depth
      (types.expand limit enclosing c source depth) := by
  intro limit
  induction limit using Nat.strongRecOn with
  | ind limit ih =>
    intro enclosing hroom c source depth
    have hexpands := expands_expand hroom c source depth
    generalize types.expand limit enclosing c source depth = result at hexpands ⊢
    cases hexpands with
    | mark hmem => exact .mark hmem
    | unknown hnew hclass =>
      refine .inlineObject rfl hnew hroom.length_le ?_
      intro name revival hfield
      cases hfield
    | @known less hnew hlimit hinner =>
      refine .inlineObject rfl hnew hroom.length_le ?_
      intro name revival hfield
      obtain ⟨p, -, hp⟩ := List.mem_map.mp hfield
      obtain ⟨rfl, hrevival⟩ := Prod.mk.inj hp
      exact synthesizes_reviver (ih less (by omega) _ hinner) _ _ hrevival

/-- Whatever is synthesized in a model is built in these ways. -/
theorem synthesizes_revivalOf {custom : Option String} {type : ValueType}
    {source revival : Revival} (h : types.revivalOf mode type custom source = some revival) :
    types.Synthesizes mode [] source 0 revival := by
  cases mode with
  | construct =>
    exact synthesizes_reviver (fun c source depth => .construct c rfl) custom type h
  | inline => exact synthesizes_reviver (synthesizes_expand _ _ types.room_nil) custom type h

end Synthesizes

end ModelTypes

end DataContract
