import DataContract.Proofs.Revival.Replacement
import DataContract.Proofs.Revival.Synthesized

/-!
# Expansion in place

An object that is expanded in place is expanded with all objects that its properties hold, and so is
each of these in turn.  What keeps this from going on without end is a stack of the classes that
are being expanded: a class that is on it is not expanded again.

Results:

* `ModelTypes.synthesize?`, `ModelTypes.expand?`: synthesis with one stack that is pushed and
  popped, of which it is open whether it ends.
* `ModelTypes.Restores.synthesize?`, `ModelTypes.restores`: it ends with the stack as it was, and
  with the expression of `ValueType.reviver`.
* `ModelTypes.Synthesizes.descends`, `ModelTypes.Synthesizes.placed`: on a path no class is
  expanded twice, and a mark stands within the class that it names.
* `ModelTypes.revivalOf_inline_spec`: both for whatever is synthesized in a model, and the copies of
  the source in it.
-/

namespace DataContract

/-! ## Expansion with a stack -/

namespace ModelTypes

/-- A computation with the stack of the classes that are being expanded, the innermost last.  It has
no result if it does not end. -/
abbrev Guarded := StateT (List String) Option

mutual

/-- The expression that revives a source of a type, with objects expanded in place. -/
def synthesize? (types : ModelTypes) (custom : Option String) (type : ValueType) (source : Revival)
    (depth : ℕ) : Guarded (Option Revival) :=
  match type.shape with
  | .arrayOf element => do
    let param := mapParameter depth
    let body ← types |>.synthesize? custom element (.value param) (depth + 1)
    return body.map (.mapArray source param ·)
  | .dictionary _ value => do
    let param := mapParameter depth
    let body ← types |>.synthesize? custom value (.value param) (depth + 1)
    return body.map (.mapValues source param ·)
  | .dictionaryOfArrays _ element => do
    let outer := mapParameter depth
    let inner := mapParameter (depth + 1)
    let body ← types |>.synthesize? custom element (.value inner) (depth + 2)
    return body.map fun body => .mapValues source outer (.mapArray (.value outer) inner body)
  | .scalar _ | .object | .enum =>
    match type.step? custom with
    | some (.instance className) => do
      let object ← types |>.expand? className source depth
      return some object
    | step => return step.map (·.revival .construct source depth)
partial_fixpoint

/-- An object of a class expanded in place, or a mark if the class is being expanded. -/
def expand? (types : ModelTypes) (className : String) (source : Revival) (depth : ℕ) :
    Guarded Revival := do
  let stack ← get
  if className ∈ stack then return .recursion className
  else
    set (stack ++ [className])
    let fields ← (types.propertiesOf className).mapM fun p => do
      let revival ← types |>.synthesize? p.customReviver p.type (.member source p.name) depth
      return (p.name, revival)
    modify List.dropLast
    return .inlineObject className source fields
partial_fixpoint

end

/-! ## The stack -/

section Stack

variable {types : ModelTypes} {limit : ℕ} {stack : List String}

/-- From a stack the computation ends with a result and another stack. -/
def Ends {α : Type} (computation : Guarded α) (before : List String) (result : α)
    (after : List String) : Prop :=
  computation.run before = some (result, after)

section Ends

variable {α β : Type} {computation : Guarded α} {before middle after : List String} {result : α}

theorem ends_return (result : α) : Ends (return result) stack result stack := rfl

theorem ends_get : Ends get stack stack stack := rfl

theorem ends_set : Ends (set after) before () after := rfl

theorem ends_modify (f : List String → List String) : Ends (modify f) before () (f before) := rfl

theorem Ends.bind {next : α → Guarded β} {final : β} (h : Ends computation before result middle)
    (hnext : Ends (next result) middle final after) :
    Ends (computation >>= next) before final after := by
  rw [Ends, StateT.run_bind, h]
  exact hnext

theorem ends_mapM {step : α → Guarded β} {made : α → β} :
    ∀ {items : List α}, (∀ item ∈ items, Ends (step item) stack (made item) stack) →
      Ends (items.mapM step) stack (items.map made) stack := by
  intro items
  induction items with
  | nil => intro _; rfl
  | cons item items ih =>
    intro h
    have hrest := ih fun other hother => h other (List.mem_cons_of_mem item hother)
    rw [List.mapM_cons]
    exact (h item (by simp)).bind (hrest.bind (ends_return _))

end Ends

/-- Every object that is expanded leaves the stack as it was. -/
def Restores (types : ModelTypes) (limit : ℕ) (stack : List String) : Prop :=
  ∀ c source depth,
    Ends (types.expand? c source depth) stack (types.expand limit stack c source depth) stack

theorem Restores.innermost (hexpand : types.Restores limit stack) {type : ValueType}
    (h : type.layer = .innermost) (custom : Option String) (source : Revival) (depth : ℕ) :
    Ends (types.synthesize? custom type source depth) stack
      (type.reviver (types.expand limit stack) custom source depth) stack := by
  have hatomic : types.synthesize? custom type source depth =
      match type.step? custom with
      | some (.instance className) => do
        let object ← types.expand? className source depth
        return some object
      | step => return step.map (·.revival .construct source depth) := by
    obtain ⟨name, shape, optional, userDefined⟩ := type
    rw [synthesize?]
    cases shape <;> first | rfl | cases h
  rw [hatomic, ValueType.reviver_of_innermost _ _ _ h]
  cases type.step? custom with
  | none => rfl
  | some step =>
    cases step with
    | «instance» className => exact (hexpand className source depth).bind (ends_return _)
    | _ => rfl

/-- Where every object leaves the stack as it was, so does every type, also where the expression
for what it holds is missing. -/
theorem Restores.synthesize? (hexpand : types.Restores limit stack) (custom : Option String) :
    ∀ (type : ValueType) (source : Revival) (depth : ℕ),
      Ends (types.synthesize? custom type source depth) stack
        (type.reviver (types.expand limit stack) custom source depth) stack
  | ⟨_, .arrayOf element, _, _⟩, source, depth => by
    rw [ModelTypes.synthesize?, ValueType.reviver, ValueShape.reviver]
    exact (hexpand.synthesize? custom element _ _).bind (ends_return _)
  | ⟨_, .dictionary _ value, _, _⟩, source, depth => by
    rw [ModelTypes.synthesize?, ValueType.reviver, ValueShape.reviver]
    exact (hexpand.synthesize? custom value _ _).bind (ends_return _)
  | ⟨_, .dictionaryOfArrays _ element, _, _⟩, source, depth => by
    rw [ModelTypes.synthesize?, ValueType.reviver, ValueShape.reviver]
    exact (hexpand.synthesize? custom element _ _).bind (ends_return _)
  | ⟨_, .scalar _, _, _⟩, source, depth => hexpand.innermost rfl custom source depth
  | ⟨_, .object, _, _⟩, source, depth => hexpand.innermost rfl custom source depth
  | ⟨_, .enum, _, _⟩, source, depth => hexpand.innermost rfl custom source depth

/-- The class is pushed, its fields leave the stack as it was, and the class is popped. -/
theorem ends_expand? {c : String} {source : Revival} {depth : ℕ}
    {fields : List (String × Option Revival)} (hnew : c ∉ stack)
    (hfields : Ends ((types.propertiesOf c).mapM fun p => do
      let revival ← types.synthesize? p.customReviver p.type (.member source p.name) depth
      return (p.name, revival)) (stack ++ [c]) fields (stack ++ [c])) :
    Ends (types.expand? c source depth) stack (.inlineObject c source fields) stack := by
  have hpop : Ends (modify List.dropLast) (stack ++ [c]) () (stack ++ [c]).dropLast :=
    ends_modify List.dropLast
  rw [List.dropLast_concat] at hpop
  rw [expand?]
  refine ends_get.bind ?_
  rw [if_neg hnew]
  exact ends_set.bind (hfields.bind (hpop.bind (ends_return _)))

/-- An expansion ends with the stack as it was.  The induction is on how many classes may still come
to be on the stack. -/
theorem restores : ∀ (limit : ℕ) (stack : List String), types.Room limit stack →
    types.Restores limit stack := by
  intro limit
  induction limit using Nat.strongRecOn with
  | ind limit ih =>
    intro stack hroom c source depth
    have hexpands := expands_expand hroom c source depth
    generalize types.expand limit stack c source depth = result at hexpands ⊢
    cases hexpands with
    | mark hmem =>
      rw [expand?]
      refine ends_get.bind ?_
      rw [if_pos hmem]
      exact ends_return _
    | unknown hnew hclass =>
      refine ends_expand? hnew ?_
      rw [propertiesOf_eq_nil hclass]
      exact ends_return _
    | @known less hnew hlimit hinner =>
      refine ends_expand? hnew (ends_mapM fun p _ => ?_)
      have hrestores := ih less (by omega) (stack ++ [c]) hinner
      exact (hrestores.synthesize? p.customReviver p.type _ _).bind (ends_return _)

end Stack

end ModelTypes

/-! ## Paths -/

namespace Revival

mutual

/-- The classes of the objects in place on each path from the root to a leaf. -/
def trails : Revival → List (List String)
  | .value _ => [[]]
  | .member object _ => object.trails
  | .mapArray source _ body => source.trails ++ body.trails
  | .mapValues source _ body => source.trails ++ body.trails
  | .construct _ input => input.trails
  | .enumLookup _ input => input.trails
  | .date input => input.trails
  | .custom _ input => input.trails
  | .inlineObject className input fields =>
    (input.trails ++ fieldTrails fields).map (className :: ·)
  | .recursion _ => [[]]

/-- The paths through the fields of an object.  A field without expression is a leaf. -/
def fieldTrails : List (String × Option Revival) → List (List String)
  | [] => []
  | (_, none) :: fields => [] :: fieldTrails fields
  | (_, some revival) :: fields => revival.trails ++ fieldTrails fields

end

mutual

/-- Each mark with the classes of the objects in place within whose fields it stands, the outermost
first. -/
def marks : Revival → List (List String × String)
  | .value _ => []
  | .member object _ => object.marks
  | .mapArray source _ body => source.marks ++ body.marks
  | .mapValues source _ body => source.marks ++ body.marks
  | .construct _ input => input.marks
  | .enumLookup _ input => input.marks
  | .date input => input.marks
  | .custom _ input => input.marks
  | .inlineObject className input fields =>
    input.marks ++ (fieldMarks fields).map fun mark => (className :: mark.1, mark.2)
  | .recursion className => [([], className)]

/-- The marks in the fields of an object. -/
def fieldMarks : List (String × Option Revival) → List (List String × String)
  | [] => []
  | (_, none) :: fields => fieldMarks fields
  | (_, some revival) :: fields => revival.marks ++ fieldMarks fields

end

theorem gathers_fieldTrails : Gathers fieldTrails [[]] trails :=
  ⟨rfl, fun _ _ => rfl, fun _ _ _ => rfl⟩

theorem gathers_fieldMarks : Gathers fieldMarks [] marks :=
  ⟨rfl, fun _ _ => rfl, fun _ _ _ => rfl⟩

end Revival

namespace ModelTypes

open Revival

section Paths

variable {types : ModelTypes} {mode : ObjectRevival} {enclosing : List String}
  {source revival : Revival} {c name : String} {trail : List String}

/-- The path expands classes that do not enclose it, each one once and at most one that is not in
the model, and may then go on in the source. -/
def Descends (types : ModelTypes) (enclosing : List String) (source : Revival)
    (trail : List String) : Prop :=
  ∃ own rest, trail = own ++ rest ∧ (enclosing ++ own).Nodup ∧
    (enclosing ++ own).length ≤ types.classes.length + 1 ∧ (rest = [] ∨ rest ∈ source.trails)

/-- A path to a leaf of the source expands nothing. -/
theorem descends_source (hdistinct : enclosing.Nodup)
    (hlength : enclosing.length ≤ types.classes.length + 1)
    (htrail : trail = [] ∨ trail ∈ source.trails) : types.Descends enclosing source trail :=
  ⟨[], trail, rfl, by rwa [List.append_nil], by rwa [List.append_nil], htrail⟩

theorem Descends.enter (h : types.Descends (enclosing ++ [c]) source trail) :
    types.Descends enclosing source (c :: trail) := by
  obtain ⟨own, rest, rfl, hdistinct, hlength, hrest⟩ := h
  rw [List.append_assoc, List.singleton_append] at hdistinct hlength
  exact ⟨c :: own, rest, rfl, hdistinct, hlength, hrest⟩

/-- A parameter is a leaf. -/
theorem Descends.param (h : types.Descends enclosing (.value name) trail) :
    types.Descends enclosing source trail := by
  obtain ⟨own, rest, rfl, hdistinct, hlength, hrest⟩ := h
  exact ⟨own, rest, rfl, hdistinct, hlength, Or.inl (by simpa [trails] using hrest)⟩

/-- On no path is a class expanded twice, whatever the classes that enclose the expression. -/
theorem Synthesizes.descends {depth : ℕ}
    (h : types.Synthesizes mode enclosing source depth revival) :
    enclosing.Nodup → enclosing.length ≤ types.classes.length + 1 →
      ∀ trail ∈ revival.trails, types.Descends enclosing source trail := by
  induction h with
  | script | date | lookup | construct =>
    intro hdistinct hlength trail htrail
    exact descends_source hdistinct hlength (Or.inr htrail)
  | mark hmem =>
    intro hdistinct hlength trail htrail
    exact descends_source hdistinct hlength (Or.inl (List.mem_singleton.mp htrail))
  | @inlineObject enclosing source depth c fields _ hnew hroom _ ih =>
    intro hdistinct _ trail htrail
    have hinner : (enclosing ++ [c]).Nodup := by
      rw [← List.concat_eq_append]
      exact hdistinct.concat hnew
    have hlength : (enclosing ++ [c]).length ≤ types.classes.length + 1 := by simpa using hroom
    obtain ⟨inner, hwithin, rfl⟩ := List.mem_map.mp htrail
    -- behind the object the path goes on in its source, or in a field, which the class encloses
    rcases List.mem_append.mp hwithin with hsource | hfield
    · exact (descends_source hinner hlength (Or.inr hsource)).enter
    · obtain ⟨⟨name, revival⟩, hmem, hfield⟩ := gathers_fieldTrails.mem_iff.mp hfield
      cases revival with
      | none =>
        have hleaf : inner = [] := List.mem_singleton.mp hfield
        exact (descends_source hinner hlength (Or.inl hleaf)).enter
      | some revival => exact (ih name revival hmem hinner hlength inner hfield).enter
  | mapArray _ ih | mapValues _ ih =>
    intro hdistinct hlength trail htrail
    rcases List.mem_append.mp htrail with hsource | hbody
    · exact descends_source hdistinct hlength (Or.inr hsource)
    · exact (ih hdistinct hlength trail hbody).param

/-- The mark names a class that encloses it, or it is one of the source. -/
def Placed (enclosing : List String) (source : Revival) (mark : List String × String) : Prop :=
  mark.2 ∈ enclosing ++ mark.1 ∨
    ∃ own rest, mark.1 = own ++ rest ∧ (rest, mark.2) ∈ source.marks

variable {mark : List String × String}

theorem placed_source (h : mark ∈ source.marks) : Placed enclosing source mark :=
  Or.inr ⟨[], mark.1, rfl, h⟩

theorem Placed.enter (h : Placed (enclosing ++ [c]) source mark) :
    Placed enclosing source (c :: mark.1, mark.2) := by
  rcases h with hmem | ⟨own, rest, hown, hrest⟩
  · left
    rwa [List.append_assoc, List.singleton_append] at hmem
  · exact Or.inr ⟨c :: own, rest, by rw [hown, List.cons_append], hrest⟩

theorem Placed.param (h : Placed enclosing (.value name) mark) :
    Placed enclosing source mark := by
  rcases h with hmem | ⟨own, rest, -, hrest⟩
  · exact Or.inl hmem
  · cases hrest

/-- A mark stands in the fields of an object of the class that it names. -/
theorem Synthesizes.placed {depth : ℕ}
    (h : types.Synthesizes mode enclosing source depth revival) :
    ∀ mark ∈ revival.marks, Placed enclosing source mark := by
  induction h with
  | script | date | lookup | construct => exact fun mark hmark => placed_source hmark
  | mark hmem =>
    intro mark hmark
    obtain rfl := List.mem_singleton.mp hmark
    exact Or.inl (List.mem_append_left _ hmem)
  | @inlineObject enclosing source depth c fields _ _ _ _ ih =>
    intro mark hmark
    rcases List.mem_append.mp hmark with hsource | hfield
    · exact placed_source hsource
    · obtain ⟨inner, hinner, rfl⟩ := List.mem_map.mp hfield
      obtain ⟨⟨name, revival⟩, hmem, hmark⟩ := gathers_fieldMarks.mem_iff.mp hinner
      cases revival with
      | none => cases hmark
      | some revival => exact (ih name revival hmem inner hmark).enter
  | mapArray _ ih | mapValues _ ih =>
    intro mark hmark
    rcases List.mem_append.mp hmark with hsource | hbody
    · exact placed_source hsource
    · exact (ih mark hbody).param

end Paths

/-! ## Expansion in a model -/

/-- In what is synthesized for a name, no class is expanded twice on a path, and every mark stands in
the fields of an object of the class that it names. -/
theorem expanded_once_of_name {types : ModelTypes} {custom : Option String} {type : ValueType}
    {name : String} {revival : Revival}
    (h : types.revivalOf .inline type custom (.value name) = some revival) :
    (∀ trail ∈ revival.trails, trail.Nodup ∧ trail.length ≤ types.classes.length + 1) ∧
      ∀ mark ∈ revival.marks, mark.2 ∈ mark.1 := by
  have hsynthesizes := synthesizes_revivalOf h
  refine ⟨fun trail htrail => ?_, fun mark hmark => ?_⟩
  · obtain ⟨own, rest, rfl, hdistinct, hlength, hrest⟩ :=
      hsynthesizes.descends List.nodup_nil (Nat.zero_le _) trail htrail
    obtain rfl : rest = [] := by simpa [trails] using hrest
    rw [List.append_nil]
    exact ⟨hdistinct, hlength⟩
  · rcases hsynthesizes.placed mark hmark with hmem | ⟨own, rest, -, hrest⟩
    · exact hmem
    · cases hrest

/-- Expansion ends and leaves the stack empty.  On each path from the root to a leaf, until it goes
on in the source, no class is expanded twice and at most one more than there are; and each mark
that is not one of the source stands in the fields of an object of the class that it names.  What is
one of the source is told by any name: the expression for the source is the one for the name with a
copy of the source wherever the name stands, and in the one for the name there is nothing but what
has been expanded. -/
theorem revivalOf_inline_spec (types : ModelTypes) (custom : Option String) (type : ValueType)
    (source : Revival) :
    (types.synthesize? custom type source 0).run [] =
        some (types.revivalOf .inline type custom source, []) ∧
      (∀ revival, types.revivalOf .inline type custom source = some revival →
        (∀ trail ∈ revival.trails, ∃ own rest, trail = own ++ rest ∧ own.Nodup ∧
          own.length ≤ types.classes.length + 1 ∧ (rest = [] ∨ rest ∈ source.trails)) ∧
        ∀ mark ∈ revival.marks, mark.2 ∈ mark.1 ∨
          ∃ own rest, mark.1 = own ++ rest ∧ (rest, mark.2) ∈ source.marks) ∧
      ∀ name,
        types.revivalOf .inline type custom source =
          (types.revivalOf .inline type custom (.value name)).map (·.replace name source) ∧
        ∀ revival, types.revivalOf .inline type custom (.value name) = some revival →
          (∀ trail ∈ revival.trails, trail.Nodup ∧ trail.length ≤ types.classes.length + 1) ∧
            ∀ mark ∈ revival.marks, mark.2 ∈ mark.1 := by
  refine ⟨(restores _ _ types.room_nil).synthesize? custom type source 0, ?_, fun name =>
    ⟨types.revivalOf_eq_replace .inline type custom source name,
      fun revival => expanded_once_of_name⟩⟩
  intro revival hrevival
  have hsynthesizes := synthesizes_revivalOf hrevival
  exact ⟨hsynthesizes.descends List.nodup_nil (Nat.zero_le _), hsynthesizes.placed⟩

/-- A source that has itself been expanded is a path on which its class is expanded twice. -/
theorem expanded_source_twice : ∃ revival trail,
    revivalOf ⟨[], [⟨"A", none, [], "Net.A"⟩], [⟨"Net.A", "A", .object⟩]⟩ .inline
      ⟨"A", .object, false, true⟩ none (.inlineObject "A" (.value "data") []) = some revival ∧
    trail ∈ revival.trails ∧ ¬ trail.Nodup :=
  ⟨.inlineObject "A" (.inlineObject "A" (.value "data") []) [], ["A", "A"], rfl, by
    simp [trails, fieldTrails], by simp⟩

end ModelTypes

end DataContract
