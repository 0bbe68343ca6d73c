import DataContract.Proofs.Revival.Synthesized
import Mathlib.Logic.Relation

/-!
# Object types within themselves

An expansion in place marks a class that it meets within itself.  Whether that happens is a question
about the classes alone: along the properties without a script, a cycle can be reached.  An
expansion without a mark could be followed around the cycle, each class a new one; and a mark closes
a cycle, since each class that encloses another leads to it.

Results:

* `ValueType.hasRecursion_of_reviver`: an expression has a mark when its innermost step has one.
* `ModelTypes.reachesCycle_of_marked`: a mark closes a cycle.
* `ModelTypes.Clear.step`, `ModelTypes.Clear.not_reachesCycle`: where there is no mark, there is
  none further on either, and so no cycle.
* `ModelTypes.hasRecursion_iff_reachesCycle`: both for what is synthesized in a model.
-/

namespace DataContract

open Relation

/-! ## Marks in an expression -/

namespace Revival

/-- There is a mark in the fields when there is one in the expression of a field. -/
theorem fieldsHaveRecursion_iff : ∀ {fields : List (String × Option Revival)},
    fieldsHaveRecursion fields = true ↔
      ∃ name revival, (name, some revival) ∈ fields ∧ revival.hasRecursion = true := by
  intro fields
  induction fields with
  | nil => simp [fieldsHaveRecursion]
  | cons field fields ih =>
    obtain ⟨name, revival⟩ := field
    cases revival with
    | none => simp [fieldsHaveRecursion, ih]
    | some revival =>
      rw [fieldsHaveRecursion, Bool.or_eq_true, ih]
      constructor
      · rintro (h | ⟨other, revival', hmem, h⟩)
        · exact ⟨name, revival, by simp, h⟩
        · exact ⟨other, revival', by simp [hmem], h⟩
      · rintro ⟨other, revival', hmem, h⟩
        rcases List.mem_cons.mp hmem with heq | hmem
        · cases heq
          exact Or.inl h
        · exact Or.inr ⟨other, revival', hmem, h⟩

end Revival

/-- For a source without a mark, an expression has a mark when its innermost step has one.  That
step is taken at the source itself or at a parameter. -/
theorem ValueType.hasRecursion_of_reviver (make : ObjectMaker) (custom : Option String)
    (type : ValueType) :
    ∀ {source revival : Revival} {depth : ℕ}, source.hasRecursion = false →
      type.reviver make custom source depth = some revival →
      ∃ step value inner, type.step? custom = some step ∧ value.hasRecursion = false ∧
        revival.hasRecursion = (step.revival make value inner).hasRecursion := by
  induction type using ValueType.layer_induction with
  | items type element hlayer ih =>
    intro source revival depth hsource hrevival
    rw [reviver_of_items _ _ _ hlayer] at hrevival
    obtain ⟨body, hbody, rfl⟩ := Option.map_eq_some_iff.mp hrevival
    obtain ⟨step, value, inner, hstep, hvalue, hmark⟩ := ih rfl hbody
    refine ⟨step, value, inner, by rw [step?_of_items hlayer, hstep], hvalue, ?_⟩
    rw [Revival.hasRecursion, hsource, Bool.false_or, hmark]
  | entries type element hlayer ih =>
    intro source revival depth hsource hrevival
    rw [reviver_of_entries _ _ _ hlayer] at hrevival
    obtain ⟨body, hbody, rfl⟩ := Option.map_eq_some_iff.mp hrevival
    obtain ⟨step, value, inner, hstep, hvalue, hmark⟩ := ih rfl hbody
    refine ⟨step, value, inner, by rw [step?_of_entries hlayer, hstep], hvalue, ?_⟩
    rw [Revival.hasRecursion, hsource, Bool.false_or, hmark]
  | innermost type hlayer =>
    intro source revival depth hsource hrevival
    rw [reviver_of_innermost _ _ _ hlayer] at hrevival
    obtain ⟨step, hstep, rfl⟩ := Option.map_eq_some_iff.mp hrevival
    exact ⟨step, source, depth, hstep, hsource, rfl⟩

namespace ModelTypes

/-! ## Cycles -/

/-- A property of the class, which may be inherited and has no script, holds objects of the other
class at its innermost. -/
def Holds (types : ModelTypes) (c d : String) : Prop :=
  ∃ p ∈ types.propertiesOf c, p.customReviver = none ∧ p.type.innermost.shape = .object ∧
    p.type.innermost.userDefined = true ∧ p.type.innermost.name = d

/-- From the class a class can be reached that leads back to itself. -/
def ReachesCycle (types : ModelTypes) (c : String) : Prop :=
  ∃ d, ReflTransGen types.Holds c d ∧ TransGen types.Holds d d

section Cycles

variable {types : ModelTypes} {limit : ℕ} {enclosing : List String} {c d : String}

theorem holds_iff : types.Holds c d ↔
    ∃ p ∈ types.propertiesOf c, p.type.step? p.customReviver = some (.instance d) := by
  simp only [Holds, ValueType.step?_eq_instance_iff]

theorem ReachesCycle.head (h : types.Holds c d) (hd : types.ReachesCycle d) :
    types.ReachesCycle c := by
  obtain ⟨e, hreach, hcycle⟩ := hd
  exact ⟨e, .head h hreach, hcycle⟩

/-! ## A mark closes a cycle -/

/-- Where each enclosing class leads to the one that is expanded, a mark closes a cycle.  The
induction is on how many classes may still come to enclose others. -/
theorem reachesCycle_of_marked : ∀ (limit : ℕ) (enclosing : List String),
    types.Room limit enclosing → ∀ c source depth, source.hasRecursion = false →
      (∀ e ∈ enclosing, TransGen types.Holds e c) →
      (types.expand limit enclosing c source depth).hasRecursion = true →
      types.ReachesCycle c := by
  intro limit
  induction limit using Nat.strongRecOn with
  | ind limit ih =>
    intro enclosing hroom c source depth hsource hleads hmark
    have hexpands := expands_expand hroom c source depth
    generalize types.expand limit enclosing c source depth = result at hexpands hmark
    cases hexpands with
    | mark hmem => exact ⟨c, .refl, hleads c hmem⟩
    | unknown hnew hclass =>
      rw [Revival.hasRecursion, hsource] at hmark
      cases hmark
    | @known less hnew hlimit hinner =>
      rw [Revival.hasRecursion, hsource, Bool.false_or, Revival.fieldsHaveRecursion_iff] at hmark
      obtain ⟨name, revival, hfield, hmark⟩ := hmark
      obtain ⟨p, hp, hfield⟩ := List.mem_map.mp hfield
      obtain ⟨rfl, hrevival⟩ := Prod.mk.inj hfield
      obtain ⟨step, value, inner, hstep, hvalue, hsame⟩ :=
        ValueType.hasRecursion_of_reviver _ _ _
          (by rw [Revival.hasRecursion, hsource]) hrevival
      rw [hsame] at hmark
      -- a step other than an instance has no mark of its own
      cases step with
      | script text => rw [Step.revival, Revival.hasRecursion, hvalue] at hmark; cases hmark
      | date => rw [Step.revival, Revival.hasRecursion, hvalue] at hmark; cases hmark
      | lookup enumeration =>
        rw [Step.revival, Revival.hasRecursion, hvalue] at hmark; cases hmark
      | «instance» d =>
        have hholds : types.Holds c d := holds_iff.mpr ⟨p, hp, hstep⟩
        have hinside : ∀ e ∈ enclosing ++ [c], TransGen types.Holds e d := by
          intro e he
          rcases List.mem_append.mp he with he | he
          · exact (hleads e he).tail hholds
          · rw [List.mem_singleton.mp he]
            exact .single hholds
        exact .head hholds (ih less (by omega) _ hinner d value inner hvalue hinside hmark)

/-! ## Without a mark there is no cycle -/

/-- Within these classes the class is expanded without a mark. -/
def Clear (types : ModelTypes) (enclosing : List String) (c : String) : Prop :=
  ∃ limit source depth, types.Room limit enclosing ∧ source.hasRecursion = false ∧
    (types.expand limit enclosing c source depth).hasRecursion = false

theorem Clear.not_mem (h : types.Clear enclosing c) : c ∉ enclosing := by
  obtain ⟨limit, source, depth, -, -, hclear⟩ := h
  intro hmem
  unfold expand at hclear
  rw [if_pos hmem] at hclear
  cases hclear

/-- Whatever the class holds is expanded without a mark within it. -/
theorem Clear.step (h : types.Clear enclosing c) (hholds : types.Holds c d) :
    types.Clear (enclosing ++ [c]) d := by
  obtain ⟨p, hp, hstep⟩ := holds_iff.mp hholds
  obtain ⟨limit, source, depth, hroom, hsource, hclear⟩ := h
  have hexpands := expands_expand hroom c source depth
  generalize types.expand limit enclosing c source depth = result at hexpands hclear
  cases hexpands with
  | mark hmem => cases hclear
  | unknown hnew hclass =>
    rw [propertiesOf_eq_nil hclass] at hp
    cases hp
  | @known less hnew hlimit hinner =>
    rw [Revival.hasRecursion, hsource, Bool.false_or] at hclear
    have hsome := ValueType.isSome_reviver_eq (types.expand less (enclosing ++ [c]))
      p.customReviver p.type (.member source p.name) depth
    rw [hstep] at hsome
    obtain ⟨revival, hrevival⟩ := Option.isSome_iff_exists.mp hsome
    have hfield : (p.name, some revival) ∈ types.fields less (enclosing ++ [c]) c source depth :=
      List.mem_map.mpr ⟨p, hp, by rw [hrevival]⟩
    have hunmarked : revival.hasRecursion = false := by
      by_contra hmark
      rw [Revival.fieldsHaveRecursion_iff.mpr
        ⟨p.name, revival, hfield, by simpa using hmark⟩] at hclear
      cases hclear
    obtain ⟨step, value, inner, hstep', hvalue, hsame⟩ :=
      ValueType.hasRecursion_of_reviver _ _ _ (by rw [Revival.hasRecursion, hsource]) hrevival
    rw [hstep] at hstep'
    cases hstep'
    exact ⟨less, value, inner, hinner, hvalue, by rw [← hunmarked, hsame]; rfl⟩

/-- Along the properties every class is expanded without a mark, within all that came before. -/
theorem Clear.reaches (h : types.Clear enclosing c) (hreach : ReflTransGen types.Holds c d) :
    ∃ more, types.Clear (enclosing ++ more) d := by
  induction hreach with
  | refl => exact ⟨[], by rwa [List.append_nil]⟩
  | @tail b d _ hholds ih =>
    obtain ⟨more, hmore⟩ := ih
    exact ⟨more ++ [b], by rw [← List.append_assoc]; exact hmore.step hholds⟩

/-- Around a cycle a class would be expanded within itself. -/
theorem Clear.not_reachesCycle (h : types.Clear enclosing c) : ¬ types.ReachesCycle c := by
  rintro ⟨d, hreach, hcycle⟩
  obtain ⟨before, hd⟩ := h.reaches hreach
  obtain ⟨next, hfirst, hback⟩ := TransGen.head'_iff.mp hcycle
  obtain ⟨around, hagain⟩ := (hd.step hfirst).reaches hback
  exact hagain.not_mem (by simp)

end Cycles

/-! ## Marks in a model -/

/-- What is synthesized in place for a type whose innermost elements are objects of a class has a
mark exactly when a cycle can be reached from that class.  The source has no mark of its own. -/
theorem hasRecursion_iff_reachesCycle (types : ModelTypes) {type : ValueType} {source : Revival}
    (hobject : type.innermost.shape = .object) (huser : type.innermost.userDefined = true)
    (hsource : source.hasRecursion = false) :
    ∃ revival, types.revivalOf .inline type none source = some revival ∧
      (revival.hasRecursion = true ↔
        ∃ d, ReflTransGen types.Holds type.innermost.name d ∧ TransGen types.Holds d d) := by
  have hstep : type.step? none = some (.instance type.innermost.name) :=
    ValueType.step?_eq_instance_iff.mpr ⟨rfl, hobject, huser, rfl⟩
  have hsome := ValueType.isSome_reviver_eq (types.maker .inline) none type source 0
  rw [hstep] at hsome
  obtain ⟨revival, hrevival⟩ := Option.isSome_iff_exists.mp hsome
  obtain ⟨step, value, depth, hstep', hvalue, hsame⟩ :=
    ValueType.hasRecursion_of_reviver _ _ _ hsource hrevival
  rw [hstep] at hstep'
  cases hstep'
  have hexpand : revival.hasRecursion =
      (types.expand types.classes.length [] type.innermost.name value depth).hasRecursion := hsame
  refine ⟨revival, hrevival, fun hmark => ?_, fun hcycle => ?_⟩
  · rw [hexpand] at hmark
    exact reachesCycle_of_marked _ _ types.room_nil _ _ _ hvalue (by simp) hmark
  · by_contra hclear
    rw [Bool.not_eq_true, hexpand] at hclear
    have hnone : types.Clear [] type.innermost.name :=
      ⟨_, value, depth, types.room_nil, hvalue, hclear⟩
    exact hnone.not_reachesCycle hcycle

/-- Nodes with children, which they inherit from what all parts of a tree have. -/
def trees : ModelTypes where
  enums := []
  names := []
  classes :=
    [{ name := "Part", superclass := none, identity := "Net.Part",
       properties := [{ name := "children", customReviver := none, revival := none,
                        type := ⟨"Node", .arrayOf ⟨"Node", .object, false, true⟩, true,
                          true⟩ }] },
      { name := "Node", superclass := some "Part", identity := "Net.Node", properties := [] }]

/-- A node is within itself, though only as an item of an array that it inherits. -/
theorem trees_marked : ∃ revival,
    trees.revivalOf .inline ⟨"Node", .object, false, true⟩ none (.value "data") = some revival ∧
      revival.hasRecursion = true := by
  have hchildren : ∃ p ∈ trees.propertiesOf "Node", p.customReviver = none ∧
      p.type.innermost.shape = .object ∧ p.type.innermost.userDefined = true ∧
        p.type.innermost.name = "Node" := by decide +kernel
  have hholds : trees.Holds "Node" "Node" := hchildren
  obtain ⟨revival, hrevival, hmark⟩ := hasRecursion_iff_reachesCycle trees
    (by rfl : (ValueType.innermost ⟨"Node", .object, false, true⟩).shape = .object) rfl
    (by rfl : (Revival.value "data").hasRecursion = false)
  exact ⟨revival, hrevival, hmark.mpr ⟨"Node", .refl, .single hholds⟩⟩

end ModelTypes

end DataContract
