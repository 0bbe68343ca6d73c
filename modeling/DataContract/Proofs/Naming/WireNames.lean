import DataContract.Proofs.Naming.Retention

/-!
# Names in serialized form along the superclasses

A class declares each name in serialized form once.  What it has from its superclasses it leaves
out by the names of the declarations, though, so it can declare again, under another name, what a
superclass declares in serialized form.

Results:

* `ModelTypes.nodup_propertiesOf_iff`: when all properties of a class have distinct names.
* `Table.nodup_declared`: a class declares each name once.
* `Table.wireNames_spec`: when all names in serialized form of a class are distinct.
* `tags_repeated`: two properties of one class that have the same name in serialized form.
-/

namespace DataContract

open Relation (ReflTransGen TransGen)

/-! ## Distinct names along the superclasses -/

namespace ModelTypes

variable {types : ModelTypes}

/-- In the chain of a class each class stands before those that it inherits from. -/
theorem pairwise_chain (hnodup : (classNames types.classes).Nodup) :
    ∀ (limit : ℕ) (start : Option String), (types.chain limit (start.bind types.class?)).Pairwise
      fun c d => TransGen (Inherits types.classes) c.name d.name := by
  intro limit
  induction limit with
  | zero => intro start; exact .nil
  | succ limit ih =>
    intro start
    cases hclass : start.bind types.class? with
    | none => exact .nil
    | some c =>
      obtain ⟨_, -, hfind⟩ := Option.bind_eq_some_iff.mp hclass
      have hc : c ∈ types.classes := (findClass_eq_some hfind).1
      rw [chain, List.pairwise_cons]
      refine ⟨fun d hd => ?_, ih c.superclass⟩
      obtain ⟨k, -, hfound⟩ := (mem_chain_iff limit c.superclass).mp hd
      obtain ⟨up, hup, hfind⟩ := Option.bind_eq_some_iff.mp hfound
      obtain ⟨-, rfl⟩ := findClass_eq_some hfind
      cases hsuper : c.superclass with
      | none =>
        rw [hsuper, ancestor_none] at hup
        cases hup
      | some parent =>
        rw [hsuper] at hup
        exact TransGen.head' ⟨c, hc, rfl, hsuper⟩ (reflTransGen_of_ancestor hnodup k hup)

/-- All properties of a class have distinct names when, up its superclasses, those of each class
have, and no class has a property of the name of one further up. -/
theorem nodup_propertiesOf_iff (hnodup : (classNames types.classes).Nodup)
    (hacyclic : Acyclic types.classes) {name : String} :
    ((types.propertiesOf name).map (·.name)).Nodup ↔
      ∀ c ∈ types.classes, ReflTransGen (Inherits types.classes) name c.name →
        (c.properties.map (·.name)).Nodup ∧
          ∀ d ∈ types.classes, TransGen (Inherits types.classes) c.name d.name →
            (c.properties.map (·.name)).Disjoint (d.properties.map (·.name)) := by
  rw [propertiesOf, List.map_flatMap, List.nodup_flatMap, List.pairwise_reverse]
  constructor
  · rintro ⟨hown, happart⟩ c hc hreach
    have hchain := (mem_superclassChain hnodup).mpr ⟨hc, hreach⟩
    refine ⟨hown c (List.mem_reverse.mpr hchain), fun d hd hup => ?_⟩
    have hsymm : Std.Symm fun a b : ModelClass =>
        Function.onFun List.Disjoint (fun c => c.properties.map (·.name)) b a :=
      ⟨fun _ _ hdisjoint => hdisjoint.symm⟩
    -- Both stand in the chain, and they are two classes since none inherits from itself.
    have hne : d ≠ c := by
      rintro rfl
      exact hacyclic d.name hup
    exact happart.forall ((mem_superclassChain hnodup).mpr ⟨hd, hreach.trans hup.to_reflTransGen⟩)
      hchain hne
  · intro h
    refine ⟨fun c hc => ?_, (pairwise_chain hnodup _ (some name)).imp_of_mem ?_⟩
    · obtain ⟨hc, hreach⟩ := (mem_superclassChain hnodup).mp (List.mem_reverse.mp hc)
      exact (h c hc hreach).1
    · intro c d hc hd hup
      obtain ⟨hc, hreach⟩ := (mem_superclassChain hnodup).mp hc
      obtain ⟨hd, -⟩ := (mem_superclassChain hnodup).mp hd
      exact ((h c hc hreach).2 d hd hup).symm

end ModelTypes

namespace Table

/-! ## The names that a class declares -/

/-- A class declares each name in serialized form once. -/
theorem nodup_declaredProperties {names : NameTable} {inherited : String → Bool} :
    ∀ {properties : List DescribedProperty} {taken : List String},
      ((declaredProperties names inherited taken properties).map (·.name)).Nodup := by
  intro properties
  induction properties with
  | nil => intro taken; exact .nil
  | cons p properties ih =>
    intro taken
    rw [declaredProperties]
    split_ifs
    · exact ih
    · refine List.nodup_cons.mpr ⟨fun hagain => ?_, ih⟩
      exact (mem_declaredProperties.mp hagain).2 (by simp)

variable {table : Table}

theorem nodup_declared {c : ModelClass} (hc : c ∈ table.declarations.classes) :
    (c.properties.map (·.name)).Nodup := by
  obtain ⟨_, _, -, hcut⟩ := table.exists_named_of_declared hc
  rw [hcut.properties]
  exact nodup_declaredProperties

/-- A superclass is the class of the parent. -/
theorem exists_parent_of_inherits {name parent : String}
    (h : Inherits table.declarations.classes name parent) :
    ∃ o q, table.Named name o ∧ table.parent? table.names o = some (parent, q) := by
  obtain ⟨c, hc, rfl, hsuper⟩ := h
  obtain ⟨identity, o, hnamed, hcut⟩ := table.exists_named_of_declared hc
  rcases hcut with hsame | hcut
  · rw [hsame] at hsuper
    obtain ⟨⟨_, q⟩, hparent, rfl⟩ := Option.map_eq_some_iff.mp hsuper
    exact ⟨o, q, hnamed, hparent⟩
  · rw [hcut] at hsuper
    cases hsuper

/-! ## Types that do not declare a name again -/

variable (table)

/-- Up the superclasses of a class each type lists every name in serialized form that its parent
lists, and lists it under the same name as that. -/
structure Faithful (name : String) : Prop where
  listed : ∀ up o parent q, ReflTransGen (Inherits table.declarations.classes) name up →
    table.Named up o → table.parent? table.names o = some (parent, q) → ∀ p' ∈ q.properties,
      ∃ p ∈ o.properties, p.serializedName = p'.serializedName
  same : ∀ up o parent q, ReflTransGen (Inherits table.declarations.classes) name up →
    table.Named up o → table.parent? table.names o = some (parent, q) → ∀ p ∈ o.properties,
      ∀ p' ∈ q.properties, p.serializedName = p'.serializedName → q.lists p.name = true

/-- The type of a class lists a property under that name in serialized form. -/
def ListsWire (name wire : String) : Prop :=
  ∃ o p, table.Named name o ∧ p ∈ o.properties ∧ p.serializedName = wire

variable {table}

/-- What a type lists is listed by all types below that are faithful. -/
theorem Faithful.listsWire {name lower upper wire : String} (h : table.Faithful name)
    (hreach : ReflTransGen (Inherits table.declarations.classes) name lower)
    (hup : ReflTransGen (Inherits table.declarations.classes) lower upper)
    (hlists : table.ListsWire upper wire) : table.ListsWire lower wire := by
  induction hup using ReflTransGen.head_induction_on with
  | refl => exact hlists
  | head hedge _ ih =>
    obtain ⟨q', p', hnamed', hp', rfl⟩ := ih (hreach.tail hedge)
    obtain ⟨o, q, hnamed, hparent⟩ := exists_parent_of_inherits hedge
    obtain rfl := hnamed'.unique (table.named_of_parent? hparent)
    obtain ⟨p, hp, hsame⟩ := h.listed _ o _ _ hreach hnamed hparent p' hp'
    exact ⟨o, p, hnamed, hp, hsame⟩

/-- A faithful type declares nothing that is declared further up. -/
theorem Faithful.not_declares {name lower upper wire : String} (h : table.Faithful name)
    (hreach : ReflTransGen (Inherits table.declarations.classes) name lower)
    (hup : TransGen (Inherits table.declarations.classes) lower upper)
    (hlower : table.Declares lower wire) : ¬ table.Declares upper wire := by
  rintro ⟨above, r, habove, hr, hwire, -⟩
  obtain ⟨o, p, hnamed, hp, rfl, hnot⟩ := hlower
  obtain ⟨parent, hedge, hrest⟩ := TransGen.head'_iff.mp hup
  obtain ⟨q', p', hnamed', hp', hsame⟩ :=
    h.listsWire (hreach.tail hedge) hrest ⟨above, r, habove, hr, hwire⟩
  obtain ⟨o', q, hnamed'', hparent⟩ := exists_parent_of_inherits hedge
  obtain rfl := hnamed.unique hnamed''
  obtain rfl := hnamed'.unique (table.named_of_parent? hparent)
  exact hnot ⟨parent, _, hparent, h.same _ _ _ _ hreach hnamed hparent p hp p' hp' hsame.symm⟩

/-- A class declares each name in serialized form once.  All its properties, with the inherited
ones, have distinct names exactly when no class up its superclasses declares a name that one
further up declares.  So it is where types list what their parents list under the same names. -/
theorem wireNames_spec (table : Table) (name : String) :
    (∀ c ∈ table.declarations.classes, (c.properties.map (·.name)).Nodup) ∧
    (((table.declarations.propertiesOf name).map (·.name)).Nodup ↔
      ∀ lower upper wire, ReflTransGen (Inherits table.declarations.classes) name lower →
        TransGen (Inherits table.declarations.classes) lower upper →
          table.Declares lower wire → ¬ table.Declares upper wire) ∧
    (table.Faithful name → ((table.declarations.propertiesOf name).map (·.name)).Nodup) := by
  have hiff : ((table.declarations.propertiesOf name).map (·.name)).Nodup ↔
      ∀ lower upper wire, ReflTransGen (Inherits table.declarations.classes) name lower →
        TransGen (Inherits table.declarations.classes) lower upper →
          table.Declares lower wire → ¬ table.Declares upper wire := by
    rw [ModelTypes.nodup_propertiesOf_iff table.classNames_declarations_nodup
      table.acyclic_declarations]
    constructor
    · intro h lower upper wire hreach hup hlower hupper
      obtain ⟨c, hc, rfl⟩ := hlower.exists_class
      obtain ⟨d, hd, rfl⟩ := hupper.exists_class
      exact (h c hc hreach).2 d hd hup ((table.mem_declared_iff hc).mpr hlower)
        ((table.mem_declared_iff hd).mpr hupper)
    · intro h c hc hreach
      refine ⟨nodup_declared hc, fun d hd hup wire hlower hupper => ?_⟩
      exact h c.name d.name wire hreach hup ((table.mem_declared_iff hc).mp hlower)
        ((table.mem_declared_iff hd).mp hupper)
  refine ⟨fun c hc => nodup_declared hc, hiff, fun hfaithful => hiff.mpr ?_⟩
  intro lower upper wire hreach hup hlower
  exact hfaithful.not_declares hreach hup hlower

theorem items_faithful (name : String) : items.Faithful name := by
  have hlisted : ∀ named ∈ items.named, ∀ o ∈ named.1.description.object?,
      ∀ parent ∈ items.parent? items.names o, ∀ p' ∈ parent.2.properties,
        ∃ p ∈ o.properties, p.serializedName = p'.serializedName := by decide +kernel
  have hsame : ∀ named ∈ items.named, ∀ o ∈ named.1.description.object?,
      ∀ parent ∈ items.parent? items.names o, ∀ p ∈ o.properties,
        ∀ p' ∈ parent.2.properties, p.serializedName = p'.serializedName →
          parent.2.lists p.name = true := by decide +kernel
  refine ⟨?_, ?_⟩
  · rintro up o parent q - ⟨entry, hentry, hobject⟩ hparent
    exact hlisted (entry, up) hentry o hobject (parent, q) hparent
  · rintro up o parent q - ⟨entry, hentry, hobject⟩ hparent
    exact hsame (entry, up) hentry o hobject (parent, q) hparent

/-- An item has its identifier once. -/
theorem items_distinct : ((items.declarations.propertiesOf "Item").map (·.name)).Nodup :=
  (wireNames_spec items "Item").2.2 (items_faithful "Item")

end Table

/-! ## A name that is declared again -/

/-- An entity and an item that is one, each with a property of its own that is `id` in serialized
form. -/
def tags : Document where
  types :=
    [("Shop.Entity", .object
      { properties := [{ name := "Id", type := .named "int" [], jsonName := some "id" }] }),
     ("Shop.Item", .object
      { base := some (.named "Shop.Entity" [])
        properties := [{ name := "Key", type := .named "string" [], jsonName := some "id" }] })]

/-- The entries of these types. -/
def tagEntries : Table :=
  [{ identity := "Shop.Entity", reason := .manual
     description :=
      { identity := "Shop.Entity", shortName := "Entity", nameOverride := none, genericArgs := []
        kind := .object
          { properties := [⟨"Id", .named "int" [], some "id", none, none⟩], base := none
            interfaces := [], knownInheritors := [] } } },
    { identity := "Shop.Item", reason := .manual
      description :=
      { identity := "Shop.Item", shortName := "Item", nameOverride := none, genericArgs := []
        kind := .object
          { properties := [⟨"Key", .named "string" [], some "id", none, none⟩,
              ⟨"Id", .named "int" [], some "id", none, none⟩]
            base := some (.named "Shop.Entity" []), interfaces := [], knownInheritors := [] } } }]

theorem tags_discovered :
    let scope := tags.scope {}
    (scope.close (scope.addRoots [] [(.named "Shop.Entity" [], .manual),
      (.named "Shop.Item" [], .manual)])).1 = tagEntries := by
  have hclose : (tags.scope {}).closeWithin 2 [(.named "Shop.Entity" [], .manual),
      (.named "Shop.Item" [], .manual)] = some (tagEntries, 1) := by
    rw [Document.scope_eq_scopeWithin (by simp [tags])]
    decide +kernel
  intro scope
  rw [Scope.close_of_closeWithin hclose]

/-- The class of the item has the name of the entity's property a second time. -/
theorem tags_repeated :
    let scope := tags.scope {}
    let table := (scope.close (scope.addRoots [] [(.named "Shop.Entity" [], .manual),
      (.named "Shop.Item" [], .manual)])).1
    ∃ c ∈ table.declarations.classes,
      ¬ ((table.declarations.propertiesOf c.name).map (·.name)).Nodup := by
  intro scope table
  have htable : table = tagEntries := tags_discovered
  have hitem : ∃ c ∈ breakCycles tagEntries.classes,
      c.superclass = some "Entity" ∧ "id" ∈ c.properties.map (·.name) := by decide +kernel
  have hentity : ∃ d ∈ breakCycles tagEntries.classes, d.name = "Entity" ∧
      "id" ∈ d.properties.map (·.name) := by decide +kernel
  rw [htable]
  obtain ⟨c, hc, hsuper, hid⟩ := hitem
  obtain ⟨d, hd, hparent, hid'⟩ := hentity
  rw [← hparent] at hsuper
  replace hc : c ∈ tagEntries.declarations.classes :=
    tagEntries.perm_declarations.mem_iff.mpr hc
  replace hd : d ∈ tagEntries.declarations.classes :=
    tagEntries.perm_declarations.mem_iff.mpr hd
  refine ⟨c, hc, fun hdistinct => ?_⟩
  rw [ModelTypes.nodup_propertiesOf_iff tagEntries.classNames_declarations_nodup
    tagEntries.acyclic_declarations] at hdistinct
  exact (hdistinct c hc .refl).2 d hd (.single ⟨c, hc, rfl, hsuper⟩) hid hid'

end DataContract
