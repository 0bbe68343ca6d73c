import DataContract.Proofs.Naming.WireNames
import DataContract.Proofs.Revival.Attachment

/-!
# Properties along chains of superclasses

The properties of a class are collected up its superclasses, over one class more than there are at
most.  Where no class inherits from itself and every superclass is declared, the classes up from one
are distinct.  So the walk ends at a class without superclass, and the bound cuts nothing off.

Results:

* `FullChain.chain_eq`: a walk with a bound that is large enough takes the whole chain.
* `Rooted.length_chain_le`: the classes on a walk are no more than there are.
* `Rooted.exists_fullChain`: a class has a whole chain.
* `Table.inherited_properties`: the properties of a class are those of its superclass and its own.
-/

namespace DataContract

open Relation (TransGen)

namespace ModelTypes

variable {types : ModelTypes} {c : ModelClass} {ups : List ModelClass}

/-! ## Whole chains -/

/-- A class with all classes that it inherits from, itself first.  Each superclass is declared, and
the last class has none. -/
inductive FullChain (types : ModelTypes) : ModelClass → List ModelClass → Prop where
  | root {c : ModelClass} : c.superclass = none → FullChain types c [c]
  | up {c parent : ModelClass} {name : String} {ups : List ModelClass} :
      c.superclass = some name → types.class? name = some parent →
        FullChain types parent ups → FullChain types c (c :: ups)

theorem chain_none (types : ModelTypes) (limit : ℕ) : types.chain limit none = [] := by
  cases limit <;> rfl

/-- A walk with a bound that is large enough takes the whole chain. -/
theorem FullChain.chain_eq (h : types.FullChain c ups) :
    ∀ {limit : ℕ}, ups.length ≤ limit → types.chain limit (some c) = ups := by
  induction h with
  | root hsuper =>
    intro limit hlimit
    obtain ⟨limit, rfl⟩ := Nat.exists_eq_add_of_le' hlimit
    rw [List.length_singleton, chain, hsuper, Option.bind_none, chain_none]
  | up hsuper hparent _ ih =>
    intro limit hlimit
    rw [List.length_cons] at hlimit
    obtain ⟨limit, rfl⟩ := Nat.exists_eq_add_of_le' (Nat.le_of_add_left_le hlimit)
    rw [chain, hsuper, Option.bind_some, hparent, ih (by omega)]

/-! ## Classes that end in one without superclass -/

/-- Classes with distinct names, every superclass among them, and none that inherits from itself. -/
structure Rooted (types : ModelTypes) : Prop where
  nodup : (classNames types.classes).Nodup
  acyclic : Acyclic types.classes
  declared : ∀ {a b}, Inherits types.classes a b → b ∈ classNames types.classes

namespace Rooted

theorem class?_name (h : types.Rooted) (hc : c ∈ types.classes) : types.class? c.name = some c :=
  findClass_name h.nodup hc

/-- The classes on a walk are distinct, so that they are no more than there are. -/
theorem length_chain_le (h : types.Rooted) (limit : ℕ) (start : Option String) :
    (types.chain limit (start.bind types.class?)).length ≤ types.classes.length := by
  have hdistinct : (classNames (types.chain limit (start.bind types.class?))).Nodup := by
    refine List.pairwise_map.mpr ((pairwise_chain h.nodup limit start).imp ?_)
    intro c d hup heq
    rw [heq] at hup
    exact h.acyclic d.name hup
  have hdeclared : classNames (types.chain limit (start.bind types.class?)) ⊆
      classNames types.classes := by
    refine List.map_subset _ fun c hc => ?_
    obtain ⟨k, -, hfound⟩ := (mem_chain_iff limit start).mp hc
    obtain ⟨up, -, hfind⟩ := Option.bind_eq_some_iff.mp hfound
    exact (findClass_eq_some hfind).1
  have hlength := (hdistinct.subperm hdeclared).length_le
  rwa [List.length_map, List.length_map] at hlength

/-- A walk that ends below its bound has come to a class without superclass. -/
theorem fullChain_of_length_lt (h : types.Rooted) : ∀ {limit : ℕ} {c : ModelClass},
    c ∈ types.classes → (types.chain limit (some c)).length < limit →
      types.FullChain c (types.chain limit (some c)) := by
  intro limit
  induction limit with
  | zero => intro c _ hlimit; cases hlimit
  | succ limit ih =>
    intro c hc hlimit
    rw [chain, List.length_cons] at hlimit
    rw [chain]
    cases hsuper : c.superclass with
    | none =>
      rw [Option.bind_none, chain_none]
      exact .root hsuper
    | some name =>
      obtain ⟨parent, hmem, rfl⟩ := List.mem_map.mp (h.declared ⟨c, hc, rfl, hsuper⟩)
      rw [hsuper, Option.bind_some, h.class?_name hmem] at hlimit
      rw [Option.bind_some, h.class?_name hmem]
      exact .up hsuper (h.class?_name hmem) (ih hmem (by omega))

/-- A class has a whole chain, of no more classes than there are. -/
theorem exists_fullChain (h : types.Rooted) (hc : c ∈ types.classes) :
    ∃ ups, types.FullChain c ups ∧ ups.length ≤ types.classes.length := by
  have hlength := h.length_chain_le (types.classes.length + 1) (some c.name)
  rw [Option.bind_some, h.class?_name hc] at hlength
  exact ⟨_, h.fullChain_of_length_lt hc (by omega), hlength⟩

/-- The properties of a class are those of its superclass and its own. -/
theorem propertiesOf_eq (h : types.Rooted) (hc : c ∈ types.classes) :
    types.propertiesOf c.name = c.superclass.elim [] types.propertiesOf ++ c.properties := by
  obtain ⟨ups, hchain, hlength⟩ := h.exists_fullChain hc
  rw [propertiesOf, h.class?_name hc, hchain.chain_eq (by omega)]
  cases hchain with
  | root hsuper => simp [hsuper]
  | @up _ parent name ups hsuper hparent hups =>
    rw [List.length_cons] at hlength
    have hinherited : types.propertiesOf name = ups.reverse.flatMap (·.properties) := by
      rw [propertiesOf, hparent, hups.chain_eq (by omega)]
    rw [hsuper, Option.elim_some, hinherited, List.reverse_cons, List.flatMap_append,
      List.flatMap_singleton]

/-- To attach revivals changes neither names nor superclasses. -/
theorem attachRevivals (h : types.Rooted) (mode : ObjectRevival) :
    (types.attachRevivals mode).Rooted := by
  have hnames : classNames (types.attachRevivals mode).classes = classNames types.classes := by
    rw [classes_attachRevivals, classNames, List.map_map]
    rfl
  have hinherits : ∀ {a b}, Inherits (types.attachRevivals mode).classes a b →
      Inherits types.classes a b := by
    rintro a b ⟨c, hc, rfl, hsuper⟩
    rw [classes_attachRevivals] at hc
    obtain ⟨d, hd, rfl⟩ := List.mem_map.mp hc
    exact ⟨d, hd, rfl, hsuper⟩
  refine ⟨?_, fun a hcycle => ?_, fun hedge => ?_⟩
  · rw [hnames]
    exact h.nodup
  · exact h.acyclic a (TransGen.mono (fun _ _ => hinherits) a a hcycle)
  · rw [hnames]
    exact h.declared (hinherits hedge)

end Rooted

end ModelTypes

/-! ## The classes of discovered types -/

namespace Table

theorem rooted_declarations (table : Table) : table.declarations.Rooted where
  nodup := table.classNames_declarations_nodup
  acyclic := table.acyclic_declarations
  declared := by
    rintro a b ⟨c, hc, rfl, hsuper⟩
    exact table.superclass_mem_declarations hc hsuper

/-- Whatever types are discovered, the properties of a class are those of its superclass, if it has
one, before its own.  The walk that collects them comes to a class without superclass, and so does
any other one whose bound is at least the number of classes.  All this holds with and without the
revivals of properties. -/
theorem inherited_properties (table : Table) {types : ModelTypes}
    (hcompiled : types = table.declarations ∨
      ∃ mode, types = table.declarations.attachRevivals mode) :
    ∀ c ∈ types.classes,
      types.propertiesOf c.name = c.superclass.elim [] types.propertiesOf ++ c.properties ∧
      types.FullChain c (types.chain (types.classes.length + 1) (types.class? c.name)) ∧
      ∀ limit, types.classes.length ≤ limit → types.chain limit (types.class? c.name) =
        types.chain (types.classes.length + 1) (types.class? c.name) := by
  have hrooted : types.Rooted := by
    rcases hcompiled with rfl | ⟨mode, rfl⟩
    · exact table.rooted_declarations
    · exact table.rooted_declarations.attachRevivals mode
  intro c hc
  obtain ⟨ups, hups, hlength⟩ := hrooted.exists_fullChain hc
  have hchain : ∀ limit, types.classes.length ≤ limit →
      types.chain limit (types.class? c.name) = ups := by
    intro limit hlimit
    rw [hrooted.class?_name hc, hups.chain_eq (hlength.trans hlimit)]
  have hbound := hchain (types.classes.length + 1) (Nat.le_succ _)
  refine ⟨hrooted.propertiesOf_eq hc, ?_, fun limit hlimit => ?_⟩
  · rw [hbound]
    exact hups
  · rw [hbound, hchain limit hlimit]

/-- An item has the identifier of the entity before its own title. -/
theorem item_properties : ∃ c ∈ items.declarations.classes, c.superclass = some "Entity" ∧
    items.declarations.propertiesOf "Item" =
      items.declarations.propertiesOf "Entity" ++ c.properties := by
  have hitem : ∃ c ∈ breakCycles items.classes, c.name = "Item" ∧ c.superclass = some "Entity" := by
    decide +kernel
  obtain ⟨c, hc, hname, hsuper⟩ := hitem
  replace hc : c ∈ items.declarations.classes := items.perm_declarations.mem_iff.mpr hc
  refine ⟨c, hc, hsuper, ?_⟩
  have hproperties := (inherited_properties items (.inl rfl) c hc).1
  rwa [hname, hsuper] at hproperties

end Table

end DataContract
