import DataContract.Proofs.Revival.Synthesized
import DataContract.Revival.Evaluate
import Mathlib.Tactic.IntervalCases
import Std.Data.String.ToNat

/-!
# Scopes

The names of an expression are those of the values that it is given, and the parameters of its
maps.  What is synthesized for a source takes values from the source only, and within a map from the
parameter of that map only, whose name no map around it has.

Results:

* `mapParameter_injective`: maps at different depths have different parameters.
* `ModelTypes.Synthesizes.free_subset`, `ModelTypes.Synthesizes.mem_free`: the free names are those
  of the source.
* `ModelTypes.Synthesizes.scopedNode`: the scopes of maps.
* `ModelTypes.Synthesizes.error_inline`: an expansion in place fails on values of another kind only.
-/

namespace DataContract

/-! ## Names -/

namespace Revival

mutual

/-- The names that are free in an expression.  A map binds its parameter in its body. -/
def free : Revival → List String
  | .value name => [name]
  | .member object _ => object.free
  | .mapArray source param body => source.free ++ body.free.filter (· ≠ param)
  | .mapValues source param body => source.free ++ body.free.filter (· ≠ param)
  | .construct _ input => input.free
  | .enumLookup _ input => input.free
  | .date input => input.free
  | .custom _ input => input.free
  | .inlineObject _ input fields => input.free ++ freeInFields fields
  | .recursion _ => []

/-- The names that are free in the fields of an object. -/
def freeInFields : List (String × Option Revival) → List String
  | [] => []
  | (_, none) :: fields => freeInFields fields
  | (_, some revival) :: fields => revival.free ++ freeInFields fields

end

/-- A map that stands somewhere in an expression. -/
structure MapNode where
  /-- The parameters of the maps in whose bodies it stands, the outermost first. -/
  outer : List String
  param : String
  body : Revival

/-- The same map within the body of one more map. -/
def MapNode.within (node : MapNode) (param : String) : MapNode :=
  { node with outer := param :: node.outer }

mutual

/-- The maps in an expression. -/
def maps : Revival → List MapNode
  | .value _ => []
  | .member object _ => object.maps
  | .mapArray source param body =>
    source.maps ++ ⟨[], param, body⟩ :: body.maps.map (·.within param)
  | .mapValues source param body =>
    source.maps ++ ⟨[], param, body⟩ :: body.maps.map (·.within param)
  | .construct _ input => input.maps
  | .enumLookup _ input => input.maps
  | .date input => input.maps
  | .custom _ input => input.maps
  | .inlineObject _ input fields => input.maps ++ mapsInFields fields
  | .recursion _ => []

/-- The maps in the fields of an object. -/
def mapsInFields : List (String × Option Revival) → List MapNode
  | [] => []
  | (_, none) :: fields => mapsInFields fields
  | (_, some revival) :: fields => revival.maps ++ mapsInFields fields

end

theorem gathers_freeInFields : Gathers freeInFields [] free :=
  ⟨rfl, fun _ _ => rfl, fun _ _ _ => rfl⟩

theorem gathers_mapsInFields : Gathers mapsInFields [] maps :=
  ⟨rfl, fun _ _ => rfl, fun _ _ _ => rfl⟩

/-! ## Sources -/

/-- The expression takes the value of a name or a member of it. -/
inductive TakenFrom (name : String) : Revival → Prop where
  | value : TakenFrom name (.value name)
  | member {object : Revival} (property : String) : TakenFrom name object →
      TakenFrom name (.member object property)

namespace TakenFrom

variable {name : String} {source : Revival}

theorem free_eq (h : TakenFrom name source) : source.free = [name] := by
  induction h with
  | value => rfl
  | member property _ ih => exact ih

theorem maps_eq (h : TakenFrom name source) : source.maps = [] := by
  induction h with
  | value => rfl
  | member property _ ih => exact ih

/-- What is taken from a name that is bound is a value, or a member that is missing. -/
theorem exists_input (h : TakenFrom name source) {bindings : Bindings} {value : Json}
    (hbound : bindings.lookup name = some value) :
    ∃ found, source.input bindings = .ok found := by
  induction h with
  | value => exact ⟨some value, by rw [input, hbound]⟩
  | member property _ ih =>
    obtain ⟨found, hfound⟩ := ih
    exact ⟨found.bind (Json.member? property), by rw [input, hfound]; rfl⟩

end TakenFrom

end Revival

/-! ## Parameters -/

theorem mapParameter_of_lt {depth : ℕ} (h : 2 < depth) :
    mapParameter depth = "x" ++ depth.repr := by
  match depth, h with
  | depth + 3, _ => rfl

theorem mapParameter_ne {i j : ℕ} (hi : i ≤ 2) (hj : 2 < j) :
    mapParameter i ≠ mapParameter j := by
  intro h
  have hlist := congrArg String.toList h
  rw [mapParameter_of_lt hj, String.toList_append, Nat.toList_repr] at hlist
  interval_cases i <;> simp [mapParameter] at hlist

/-- Maps at different depths have different parameters. -/
theorem mapParameter_injective : mapParameter.Injective := by
  intro i j h
  rcases Nat.lt_or_ge 2 i with hi | hi <;> rcases Nat.lt_or_ge 2 j with hj | hj
  · rw [mapParameter_of_lt hi, mapParameter_of_lt hj] at h
    exact Nat.repr_injective ((String.append_right_inj _).mp h)
  · exact absurd h.symm (mapParameter_ne hj hi)
  · exact absurd h (mapParameter_ne hi hj)
  · interval_cases i <;> interval_cases j <;> first | rfl | simp [mapParameter] at h

/-! ## The scopes of what is synthesized -/

namespace ModelTypes

open Revival

namespace Synthesizes

variable {types : ModelTypes} {mode : ObjectRevival} {enclosing : List String}
  {source revival : Revival} {depth : ℕ}

/-- No name is free but the one from which the source is taken. -/
theorem free_subset (h : types.Synthesizes mode enclosing source depth revival) :
    ∀ root, TakenFrom root source → ∀ name ∈ revival.free, name = root := by
  have hsource : ∀ {source : Revival} (root : String), TakenFrom root source →
      ∀ name ∈ source.free, name = root := by
    intro source root htaken name hname
    rw [htaken.free_eq] at hname
    exact List.mem_singleton.mp hname
  induction h with
  | script | date | lookup | construct => exact hsource
  | mark => intro _ _ name hname; cases hname
  | @inlineObject enclosing source depth c fields _ _ _ _ ih =>
    intro root htaken name hname
    rcases List.mem_append.mp hname with hname | hname
    · exact hsource root htaken name hname
    · obtain ⟨⟨member, revival⟩, hmem, hname⟩ := gathers_freeInFields.mem_iff.mp hname
      cases revival with
      | none => cases hname
      | some revival => exact ih member revival hmem root (htaken.member member) name hname
  | @mapArray _ _ _ depth _ ih | @mapValues _ _ _ depth _ ih =>
    intro root htaken name hname
    rcases List.mem_append.mp hname with hname | hname
    · exact hsource root htaken name hname
    · -- the body is free in the parameter only, and that is bound
      obtain ⟨hbody, hother⟩ := List.mem_filter.mp hname
      have hparam := ih _ .value name hbody
      simp [hparam] at hother

/-- Outside of all objects in place, the name from which the source is taken is free. -/
theorem mem_free {root : String} (h : types.Synthesizes mode [] source depth revival)
    (htaken : TakenFrom root source) : root ∈ revival.free := by
  have hroot : root ∈ source.free := by simp [htaken.free_eq]
  cases h with
  | script | date | lookup | construct => exact hroot
  | mark hmem => cases hmem
  | inlineObject | mapArray | mapValues => exact List.mem_append_left _ hroot

/-- The scopes of a map within `depth` maps: its body is free in its parameter only, and the
parameters around it with its own are those of ever greater depths. -/
structure ScopedNode (depth : ℕ) (node : MapNode) : Prop where
  free : ∀ name ∈ node.body.free, name = node.param
  params : ∃ depths : List ℕ, node.outer ++ [node.param] = depths.map mapParameter ∧
    depths.Pairwise (· < ·) ∧ ∀ d ∈ depths, depth ≤ d

theorem ScopedNode.nodup {node : MapNode} (h : ScopedNode depth node) :
    (node.outer ++ [node.param]).Nodup := by
  obtain ⟨depths, hparams, hincreasing, -⟩ := h.params
  rw [hparams]
  exact List.Nodup.map mapParameter_injective (hincreasing.imp Nat.ne_of_lt)

theorem scopedNode_self (h : types.Synthesizes mode enclosing (.value (mapParameter depth))
    (depth + 1) revival) : ScopedNode depth ⟨[], mapParameter depth, revival⟩ :=
  ⟨h.free_subset _ .value, [depth], rfl, List.pairwise_singleton _ _, by simp⟩

theorem ScopedNode.within {node : MapNode} (h : ScopedNode (depth + 1) node) :
    ScopedNode depth (node.within (mapParameter depth)) := by
  obtain ⟨depths, hparams, hincreasing, hdepths⟩ := h.params
  refine ⟨h.free, depth :: depths, ?_, ?_, ?_⟩
  · rw [MapNode.within, List.cons_append, hparams, List.map_cons]
  · exact List.pairwise_cons.mpr ⟨fun d hd => hdepths d hd, hincreasing⟩
  · intro d hd
    rcases List.mem_cons.mp hd with rfl | hd
    · exact le_rfl
    · have := hdepths d hd
      omega

/-- Every map has such scopes. -/
theorem scopedNode (h : types.Synthesizes mode enclosing source depth revival) :
    ∀ root, TakenFrom root source → ∀ node ∈ revival.maps, ScopedNode depth node := by
  have hsource : ∀ {source : Revival} {depth : ℕ} (root : String), TakenFrom root source →
      ∀ node ∈ source.maps, ScopedNode depth node := by
    intro source depth root htaken node hnode
    rw [htaken.maps_eq] at hnode
    cases hnode
  induction h with
  | script | date | lookup | construct => exact hsource
  | mark => intro _ _ node hnode; cases hnode
  | @inlineObject enclosing source depth c fields _ _ _ _ ih =>
    intro root htaken node hnode
    rcases List.mem_append.mp hnode with hnode | hnode
    · exact hsource root htaken node hnode
    · obtain ⟨⟨member, revival⟩, hmem, hnode⟩ := gathers_mapsInFields.mem_iff.mp hnode
      cases revival with
      | none => cases hnode
      | some revival => exact ih member revival hmem root (htaken.member member) node hnode
  | mapArray hbody ih | mapValues hbody ih =>
    intro root htaken node hnode
    rcases List.mem_append.mp hnode with hnode | hnode
    · exact hsource root htaken node hnode
    · rcases List.mem_cons.mp hnode with rfl | hnode
      · exact scopedNode_self hbody
      · obtain ⟨inner, hinner, rfl⟩ := List.mem_map.mp hnode
        exact (ih _ .value inner hinner).within

end Synthesizes

end ModelTypes

/-! ## Evaluation in place -/

namespace Revival

variable {types : ModelTypes} {construct : Constructor} {bindings : Bindings} {failure : Failure}

/-- The fields of an object fail only where the expression of one of them does. -/
theorem exists_of_applyFields_error {members : List (String × Json)} :
    ∀ {fields : List (String × Option Revival)} {done : List (String × RevivedValue)},
      applyFields types construct bindings members done fields = .error failure →
      ∃ name revival, (name, some revival) ∈ fields ∧
        revival.apply types construct bindings = .error failure := by
  intro fields
  induction fields with
  | nil => intro done h; cases h
  | cons field fields ih =>
    intro done h
    have hrest : ∀ {done : List (String × RevivedValue)},
        applyFields types construct bindings members done fields = .error failure →
        ∃ name revival, (name, some revival) ∈ field :: fields ∧
          revival.apply types construct bindings = .error failure := by
      intro done h
      obtain ⟨name, revival, hmem, hfailure⟩ := ih h
      exact ⟨name, revival, List.mem_cons_of_mem field hmem, hfailure⟩
    obtain ⟨name, revival⟩ := field
    cases revival with
    | none =>
      rw [applyFields] at h
      split at h
      · exact hrest h
      · exact hrest h
    | some revival =>
      rw [applyFields] at h
      split at h
      · exact hrest h
      · rcases bind_eq_error h with hfailure | ⟨value, -, h⟩
        · exact ⟨name, revival, List.mem_cons_self .., hfailure⟩
        · exact hrest h

end Revival

namespace ModelTypes

open Revival

/-- What is expanded in place fails on values of another kind only. -/
theorem Synthesizes.error_inline {types compiled : ModelTypes} {construct : Constructor}
    {enclosing : List String} {source revival : Revival} {depth : ℕ}
    (h : types.Synthesizes .inline enclosing source depth revival) :
    ∀ {bindings : Bindings} {found : Option Json} {failure : Failure},
      source.input bindings = .ok found →
      revival.apply compiled construct bindings = .error failure →
      ∃ expected actual, failure = .typeMismatch expected actual := by
  induction h with
  | script text =>
    intro bindings found failure hinput hfailure
    rw [apply, hinput] at hfailure
    cases hfailure
  | date =>
    intro bindings found failure hinput hfailure
    rw [apply, hinput] at hfailure
    cases hfailure
  | lookup enumeration =>
    intro bindings found failure hinput hfailure
    rw [apply] at hfailure
    simp only [hinput] at hfailure
    cases found with
    | none => cases hfailure
    | some value => cases value <;> cases hfailure
  | construct c hmode => cases hmode
  | mark =>
    intro bindings found failure hinput hfailure
    rw [apply] at hfailure
    cases hfailure
  | @inlineObject enclosing source depth c fields _ _ _ _ ih =>
    intro bindings found failure hinput hfailure
    rw [apply] at hfailure
    simp only [hinput] at hfailure
    cases found with
    | none => cases hfailure
    | some value =>
      cases value with
      | null => cases hfailure
      | object members =>
        obtain ⟨name, revival, hmem, hfield⟩ := exists_of_applyFields_error (error_of_map hfailure)
        have hmember : (Revival.member source name).input bindings =
            .ok (Json.member? name (.object members)) := by
          rw [input, hinput]
          rfl
        exact ih name revival hmem hmember hfield
      | _ => cases hfailure; exact ⟨_, _, rfl⟩
  | mapArray _ ih =>
    intro bindings found failure hinput hfailure
    rw [apply_mapArray hinput] at hfailure
    cases found with
    | none => cases hfailure
    | some value =>
      cases value with
      | null => cases hfailure
      | array items =>
        obtain ⟨item, -, hitem⟩ := exists_of_mapItems_error (error_of_map hfailure)
        exact ih (input_param _ item bindings) hitem
      | _ => cases hfailure; exact ⟨_, _, rfl⟩
  | mapValues _ ih =>
    intro bindings found failure hinput hfailure
    rw [apply_mapValues hinput] at hfailure
    cases found with
    | none => cases hfailure
    | some value =>
      cases value with
      | null => cases hfailure
      | object members =>
        obtain ⟨member, -, hmember⟩ := exists_of_mapItems_error (error_of_map hfailure)
        exact ih (input_param _ member.2 bindings) (error_of_map hmember)
      | _ => cases hfailure; exact ⟨_, _, rfl⟩

end ModelTypes

end DataContract
