import DataContract.Proofs.Discovery.Bounded
import DataContract.Proofs.Naming.Declarations

/-!
# Which properties a class retains

A class declares what its parent does not list, by the names of the declarations, and relies on
its superclass for the rest.  Two things undo this.  A class that inherits from itself loses its
superclass, but the properties that its parent lists stay left out: on a cycle of superclasses all
properties can get lost.  And a property that a type lists under another name in serialized form
than its parent does is left out as well, and with it that name.

Results:

* `ModelTypes.mem_propertiesOf`: the properties of a class are those along its superclasses.
* `Table.mem_propertiesOf_iff`: the names in serialized form that a class retains.
* `Table.retained_iff`: when a listed property is retained, and that without cycles and renaming
  each one is.
* `loop_not_retained`: a type that names itself as its base retains nothing.
-/

namespace DataContract

open Relation (ReflTransGen TransGen)

/-! ## The properties along the superclasses -/

namespace ModelTypes

variable {types : ModelTypes}

theorem bind_superclassOf (start : Option String) :
    start.bind (superclassOf types.classes) = (start.bind types.class?).bind (·.superclass) := by
  rw [Option.bind_assoc]
  rfl

/-- The chain of a class is that of its superclasses, as far as the limit goes. -/
theorem mem_chain_iff {c : ModelClass} : ∀ (limit : ℕ) (start : Option String),
    c ∈ types.chain limit (start.bind types.class?) ↔
      ∃ k < limit, (ancestor types.classes k start).bind types.class? = some c := by
  intro limit
  induction limit with
  | zero => intro start; simp [chain]
  | succ limit ih =>
    intro start
    cases hclass : start.bind types.class? with
    | none =>
      have hnone : start.bind (superclassOf types.classes) = none := by
        rw [bind_superclassOf, hclass, Option.bind_none]
      constructor
      · intro h
        cases h
      · rintro ⟨k, -, hk⟩
        cases k with
        | zero =>
          rw [ancestor_zero, hclass] at hk
          cases hk
        | succ k =>
          rw [ancestor_succ, hnone, ancestor_none] at hk
          cases hk
    | some first =>
      have hnext : start.bind (superclassOf types.classes) = first.superclass := by
        rw [bind_superclassOf, hclass, Option.bind_some]
      rw [chain, List.mem_cons, ih]
      constructor
      · rintro (rfl | ⟨k, hk, hfound⟩)
        · exact ⟨0, by omega, hclass⟩
        · refine ⟨k + 1, by omega, ?_⟩
          rw [ancestor_succ, hnext]
          exact hfound
      · rintro ⟨k, hk, hfound⟩
        cases k with
        | zero =>
          rw [ancestor_zero, hclass] at hfound
          exact Or.inl (Option.some.inj hfound).symm
        | succ k =>
          rw [ancestor_succ, hnext] at hfound
          exact Or.inr ⟨k, by omega, hfound⟩

/-- The chain of a class consists of the classes up its superclasses. -/
theorem mem_superclassChain (hnodup : (classNames types.classes).Nodup) {name : String}
    {c : ModelClass} : c ∈ types.chain (types.classes.length + 1) (types.class? name) ↔
      c ∈ types.classes ∧ ReflTransGen (Inherits types.classes) name c.name := by
  constructor
  · intro h
    obtain ⟨k, -, hfound⟩ := (mem_chain_iff _ (some name)).mp h
    obtain ⟨up, hup, hclass⟩ := Option.bind_eq_some_iff.mp hfound
    obtain ⟨hmem, rfl⟩ := findClass_eq_some hclass
    exact ⟨hmem, reflTransGen_of_ancestor hnodup k hup⟩
  · rintro ⟨hc, hup⟩
    obtain ⟨k, hk, hancestor⟩ := exists_ancestor_le (exists_ancestor_of_reflTransGen hnodup hup)
    refine (mem_chain_iff _ (some name)).mpr ⟨k, by omega, ?_⟩
    rw [hancestor]
    exact findClass_name hnodup hc

/-- The properties of a class are those along its superclasses. -/
theorem mem_propertiesOf (hnodup : (classNames types.classes).Nodup) {name : String}
    {p : ModelProperty} : p ∈ types.propertiesOf name ↔
      ∃ c ∈ types.classes, ReflTransGen (Inherits types.classes) name c.name ∧
        p ∈ c.properties := by
  rw [propertiesOf, List.mem_flatMap]
  simp only [List.mem_reverse, mem_superclassChain hnodup, and_assoc]

end ModelTypes

/-! ## The names that classes declare -/

namespace Table

variable (table : Table)

/-- The parent of an object type lists a property of that name. -/
def ParentLists (o : DescribedObject) (name : String) : Prop :=
  ∃ parent p, table.parent? table.names o = some (parent, p) ∧ p.lists name = true

theorem mem_declaredProperties {names : NameTable} {inherited : String → Bool} {name : String} :
    ∀ {properties : List DescribedProperty} {taken : List String},
      name ∈ (declaredProperties names inherited taken properties).map (·.name) ↔
        (∃ p ∈ properties, p.serializedName = name ∧ inherited p.name = false) ∧
          name ∉ taken := by
  intro properties
  induction properties with
  | nil => intro taken; simp [declaredProperties]
  | cons p properties ih =>
    intro taken
    rw [declaredProperties]
    split_ifs with hskip
    · rw [ih]
      constructor
      · rintro ⟨⟨q, hq, hspec⟩, hfree⟩
        exact ⟨⟨q, by simp [hq], hspec⟩, hfree⟩
      · rintro ⟨⟨q, hq, rfl, howned⟩, hfree⟩
        rcases List.mem_cons.mp hq with rfl | hq
        · rw [howned, Bool.false_or, decide_eq_true_eq] at hskip
          exact absurd hskip hfree
        · exact ⟨⟨q, hq, rfl, howned⟩, hfree⟩
    · rw [Bool.or_eq_true, not_or, Bool.not_eq_true, decide_eq_true_eq] at hskip
      rw [List.map_cons, List.mem_cons, ih]
      constructor
      · rintro (rfl | ⟨⟨q, hq, hspec⟩, hfree⟩)
        · exact ⟨⟨p, by simp, rfl, hskip.1⟩, hskip.2⟩
        · exact ⟨⟨q, by simp [hq], hspec⟩, fun htaken => hfree (by simp [htaken])⟩
      · rintro ⟨⟨q, hq, rfl, howned⟩, hfree⟩
        by_cases hfirst : q.serializedName = p.serializedName
        · exact Or.inl hfirst
        · rcases List.mem_cons.mp hq with rfl | hq
          · exact absurd rfl hfirst
          · exact Or.inr ⟨⟨q, hq, rfl, howned⟩, by simp [hfirst, hfree]⟩

/-- A class declares the names of the properties that the parent does not list. -/
theorem mem_classOf {name identity wire : String} {o : DescribedObject} :
    wire ∈ (table.classOf table.names name identity o).properties.map (·.name) ↔
      ∃ p ∈ o.properties, p.serializedName = wire ∧ ¬ table.ParentLists o p.name := by
  have hinherited : ∀ property,
      ((table.parent? table.names o).any fun above => above.2.lists property) = false ↔
        ¬ table.ParentLists o property := by
    intro property
    rw [ParentLists]
    cases hparent : table.parent? table.names o with
    | none => simp
    | some above =>
      obtain ⟨parent, q⟩ := above
      simp
  rw [classOf, mem_declaredProperties]
  simp [hinherited]

/-- The type of a class lists a property under that name in serialized form, which its parent does
not list. -/
def Declares (name wire : String) : Prop :=
  ∃ o p, table.Named name o ∧ p ∈ o.properties ∧ p.serializedName = wire ∧
    ¬ table.ParentLists o p.name

theorem mem_declared_iff {c : ModelClass} (hc : c ∈ table.declarations.classes) {wire : String} :
    wire ∈ c.properties.map (·.name) ↔ table.Declares c.name wire := by
  obtain ⟨identity, o, hnamed, hcut⟩ := table.exists_named_of_declared hc
  rw [hcut.properties, mem_classOf]
  constructor
  · rintro ⟨p, hspec⟩
    exact ⟨o, p, hnamed, hspec⟩
  · rintro ⟨o', p, hnamed', hspec⟩
    obtain rfl := hnamed.unique hnamed'
    exact ⟨p, hspec⟩

theorem Declares.exists_class {table : Table} {name wire : String} (h : table.Declares name wire) :
    ∃ c ∈ table.declarations.classes, c.name = name := by
  obtain ⟨o, -, hnamed, -⟩ := h
  obtain ⟨_, c, hc, hcut⟩ := table.exists_declared_of_named hnamed
  exact ⟨c, hc, hcut.name⟩

/-! ## The names that classes retain -/

/-- Up the superclasses that are declared there is a type that lists a property under that name in
serialized form, which its parent does not list. -/
def Supplies (name wire : String) : Prop :=
  ∃ up o p, ReflTransGen (Inherits table.declarations.classes) name up ∧ table.Named up o ∧
    p ∈ o.properties ∧ p.serializedName = wire ∧ ¬ table.ParentLists o p.name

theorem supplies_iff {name wire : String} : table.Supplies name wire ↔
    ∃ up, ReflTransGen (Inherits table.declarations.classes) name up ∧ table.Declares up wire := by
  simp only [Supplies, Declares, exists_and_left]

/-- The names that a class retains are those that are supplied up its superclasses. -/
theorem mem_propertiesOf_iff {name wire : String} :
    wire ∈ (table.declarations.propertiesOf name).map (·.name) ↔ table.Supplies name wire := by
  have hnodup := table.classNames_declarations_nodup
  rw [supplies_iff]
  constructor
  · intro h
    obtain ⟨property, hproperty, hname⟩ := List.mem_map.mp h
    obtain ⟨c, hc, hup, hmem⟩ := (ModelTypes.mem_propertiesOf hnodup).mp hproperty
    have hwire : wire ∈ c.properties.map (·.name) := List.mem_map.mpr ⟨property, hmem, hname⟩
    exact ⟨c.name, hup, (table.mem_declared_iff hc).mp hwire⟩
  · rintro ⟨up, hup, hdeclares⟩
    obtain ⟨c, hc, rfl⟩ := hdeclares.exists_class
    obtain ⟨property, hmem, hname⟩ := List.mem_map.mp ((table.mem_declared_iff hc).mpr hdeclares)
    exact List.mem_map.mpr
      ⟨property, (ModelTypes.mem_propertiesOf hnodup).mpr ⟨c, hc, hup, hmem⟩, hname⟩

/-! ## Types that retain everything -/

/-- Up from a class no class inherits from itself, and what a parent lists too it lists with the
same name in serialized form. -/
structure Orderly (name : String) : Prop where
  acyclic : ∀ up, ReflTransGen (Inherits table.classes) name up →
    ¬ TransGen (Inherits table.classes) up up
  same : ∀ up o parent q, ReflTransGen (Inherits table.classes) name up → table.Named up o →
    table.parent? table.names o = some (parent, q) → ∀ p ∈ o.properties, q.lists p.name = true →
      ∃ p' ∈ q.properties, p'.serializedName = p.serializedName

variable {table}

theorem Orderly.step {name parent : String} (h : table.Orderly name)
    (hedge : Inherits table.classes name parent) : table.Orderly parent :=
  ⟨fun up hup => h.acyclic up (hup.head hedge),
    fun up o above q hup => h.same up o above q (hup.head hedge)⟩

/-- A class that is on no cycle inherits from its parent also in the order of declaration. -/
theorem inherits_parent {name parent : String} {o q : DescribedObject} (hnamed : table.Named name o)
    (hparent : table.parent? table.names o = some (parent, q))
    (hcycle : ¬ TransGen (Inherits table.classes) name name) :
    Inherits table.classes name parent ∧ Inherits table.declarations.classes name parent := by
  obtain ⟨identity, hclass⟩ := hnamed.exists_class
  have hsuper : (table.classOf table.names name identity o).superclass = some parent := by
    rw [classOf, hparent]
    rfl
  have hkept := mem_breakCycles table.classNames_nodup hclass hcycle
  exact ⟨⟨_, hclass, rfl, hsuper⟩, ⟨_, table.perm_declarations.mem_iff.mpr hkept, rfl, hsuper⟩⟩

/-- Whatever an orderly type lists is supplied.  The induction is on how much a superclass may
still outweigh the class. -/
theorem supplies_of_orderly : ∀ (rest : ℕ) {name : String} {o : DescribedObject}
    {p : DescribedProperty},
    table.declarations.classes.length - weight table.declarations.classes name ≤ rest →
    table.Orderly name → table.Named name o → p ∈ o.properties →
    table.Supplies name p.serializedName := by
  intro rest
  induction rest with
  | zero =>
    intro name o p hrest horderly hnamed hp
    refine ⟨name, o, p, .refl, hnamed, hp, rfl, ?_⟩
    rintro ⟨parent, q, hparent, -⟩
    have hedge := (inherits_parent hnamed hparent (horderly.acyclic name .refl)).2
    obtain ⟨c, hc, hname, hsuper⟩ := id hedge
    have hmore := weight_lt table.acyclic_declarations hedge
      (table.superclass_mem_declarations hc hsuper)
    have hle : weight table.declarations.classes parent ≤ table.declarations.classes.length :=
      weight_le parent
    omega
  | succ rest ih =>
    intro name o p hrest horderly hnamed hp
    by_cases hlisted : table.ParentLists o p.name
    · obtain ⟨parent, q, hparent, hlists⟩ := hlisted
      obtain ⟨hedge, hkept⟩ := inherits_parent hnamed hparent (horderly.acyclic name .refl)
      obtain ⟨p', hp', hsame⟩ := horderly.same name o parent q .refl hnamed hparent p hp hlists
      obtain ⟨c, hc, -, hsuper⟩ := id hkept
      have hmore := weight_lt table.acyclic_declarations hkept
        (table.superclass_mem_declarations hc hsuper)
      obtain ⟨up, above, r, hup, hsupplied⟩ :=
        ih (by omega) (horderly.step hedge) (table.named_of_parent? hparent) hp'
      rw [hsame] at hsupplied
      exact ⟨up, above, r, hup.head hkept, hsupplied⟩
    · exact ⟨name, o, p, .refl, hnamed, hp, rfl, hlisted⟩

/-- A property that a discovered type lists is retained by its class exactly when its name in
serialized form is supplied up the superclasses that are declared.  Where no class up from it
inherits from itself, and no parent lists one of the properties under another name in serialized
form only, every property is. -/
theorem retained_iff {name : String} {o : DescribedObject} (hnamed : table.Named name o)
    {p : DescribedProperty} (hp : p ∈ o.properties) :
    (p.serializedName ∈ (table.declarations.propertiesOf name).map (·.name) ↔
      table.Supplies name p.serializedName) ∧
    (table.Orderly name →
      p.serializedName ∈ (table.declarations.propertiesOf name).map (·.name)) := by
  refine ⟨table.mem_propertiesOf_iff, fun horderly => ?_⟩
  rw [table.mem_propertiesOf_iff]
  exact supplies_of_orderly _ le_rfl horderly hnamed hp

/-- An entity and an item that is one. -/
def items : Table :=
  [{ identity := "Shop.Entity", reason := .manual
     description :=
      { identity := "Shop.Entity", shortName := "Entity", nameOverride := none, genericArgs := []
        kind := .object
          { properties := [⟨"Id", .named "int" [], some "id", none, none⟩], base := none
            interfaces := [], knownInheritors := [] } } },
    { identity := "Shop.Item", reason := .manual
      description :=
      { identity := "Shop.Item", shortName := "Item", nameOverride := none, genericArgs := []
        kind := .object
          { properties := [⟨"Title", .named "string" [], none, none, none⟩,
              ⟨"Id", .named "int" [], some "id", none, none⟩]
            base := some (.named "Shop.Entity" []), interfaces := [], knownInheritors := [] } } }]

theorem items_orderly (name : String) : items.Orderly name := by
  have hclasses : items.classes.map (fun c => (c.name, c.superclass)) =
      [("Entity", none), ("Item", some "Entity")] := by decide +kernel
  have hsame : ∀ named ∈ items.named, ∀ o ∈ named.1.description.object?,
      ∀ parent ∈ items.parent? items.names o, ∀ p ∈ o.properties,
        parent.2.lists p.name = true →
          ∃ p' ∈ parent.2.properties, p'.serializedName = p.serializedName := by decide +kernel
  have hedge : ∀ {a b}, Inherits items.classes a b → a = "Item" ∧ b = "Entity" := by
    rintro a b ⟨c, hc, rfl, hsuper⟩
    have hmem := List.mem_map_of_mem (f := fun c : ModelClass => (c.name, c.superclass)) hc
    rw [hclasses, hsuper] at hmem
    simpa using hmem
  refine ⟨?_, ?_⟩
  · intro up _ hcycle
    obtain ⟨next, hfirst, hrest⟩ := TransGen.head'_iff.mp hcycle
    obtain ⟨rfl, rfl⟩ := hedge hfirst
    rcases ReflTransGen.cases_head hrest with heq | ⟨above, hsecond, -⟩
    · exact absurd heq (by decide)
    · exact absurd (hedge hsecond).1 (by decide)
  · rintro up o parent q - ⟨entry, hentry, hobject⟩ hparent p hp hlists
    exact hsame (entry, up) hentry o hobject (parent, q) hparent p hp hlists

/-- An item retains the identifier that it has from the entity. -/
theorem items_retained :
    "id" ∈ (items.declarations.propertiesOf "Item").map (·.name) := by
  have hitem : ∃ named ∈ items.named, named.2 = "Item" ∧ ∃ o ∈ named.1.description.object?,
      ⟨"Id", .named "int" [], some "id", none, none⟩ ∈ o.properties := by decide +kernel
  obtain ⟨⟨entry, _⟩, hentry, rfl, o, hobject, hp⟩ := hitem
  exact (retained_iff ⟨entry, hentry, hobject⟩ hp).2 (items_orderly "Item")

end Table

/-! ## A type that names itself as its base -/

/-- A type that names itself as its base. -/
def loop : Document where
  types :=
    [("Shop.Loop", .object
      { base := some (.named "Shop.Loop" [])
        properties := [{ name := "Next", type := .named "Shop.Loop" [] }] })]

/-- The entry of that type. -/
def loopEntry : Entry where
  identity := "Shop.Loop"
  reason := .manual
  description :=
    { identity := "Shop.Loop", shortName := "Loop", nameOverride := none, genericArgs := []
      kind := .object
        { properties := [⟨"Next", .named "Shop.Loop" [], none, none, none⟩]
          base := some (.named "Shop.Loop" []), interfaces := [], knownInheritors := [] } }

theorem loop_discovered :
    let scope := loop.scope {}
    (scope.close (scope.addRoots [] [(.named "Shop.Loop" [], .manual)])).1 = [loopEntry] := by
  have hclose : (loop.scope {}).closeWithin 2 [(.named "Shop.Loop" [], .manual)] =
      some ([loopEntry], 1) := by
    rw [Document.scope_eq_scopeWithin (by simp [loop])]
    decide +kernel
  intro scope
  rw [Scope.close_of_closeWithin hclose]

/-- Its class has no superclass, but leaves out what it lists itself as its own parent. -/
theorem loop_not_retained :
    let scope := loop.scope {}
    let table := (scope.close (scope.addRoots [] [(.named "Shop.Loop" [], .manual)])).1
    ∃ name o, table.Named name o ∧ ∃ p ∈ o.properties,
      p.serializedName ∉ (table.declarations.propertiesOf name).map (·.name) := by
  intro scope table
  have htable : table = [loopEntry] := loop_discovered
  have hnamed : ∃ named ∈ Table.named [loopEntry], ∃ o ∈ named.1.description.object?,
      ∃ p ∈ o.properties, p.serializedName = "Next" := by decide +kernel
  have hlisted : ∀ named ∈ Table.named [loopEntry], ∀ o ∈ named.1.description.object?,
      ∀ p ∈ o.properties, ∃ parent ∈ Table.parent? [loopEntry] (Table.names [loopEntry]) o,
        parent.2.lists p.name = true := by decide +kernel
  rw [htable]
  obtain ⟨⟨entry, name⟩, hentry, o, hobject, p, hp, -⟩ := hnamed
  refine ⟨name, o, ⟨entry, hentry, hobject⟩, p, hp, ?_⟩
  rw [Table.mem_propertiesOf_iff]
  rintro ⟨up, o', q, -, ⟨entry', hentry', hobject'⟩, hq, -, hnot⟩
  obtain ⟨⟨parent, above⟩, hparent, hlists⟩ := hlisted (entry', up) hentry' o' hobject' q hq
  exact hnot ⟨parent, above, hparent, hlists⟩

end DataContract
