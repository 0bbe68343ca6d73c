import DataContract.Proofs.Naming.Settling
import DataContract.Proofs.Naming.Uniqueness

/-!
# The declarations of the discovered types

Every discovered type becomes a class or an enumeration, under a name of its own.  A superclass is
always the class of a discovered type, and the order of declaration puts it first.

Results:

* `Table.classNames_nodup`: classes have distinct names.
* `Table.superclass_mem`: a superclass is one of the classes.
* `InOrder.exists_before`: a superclass stands before the classes that inherit from it.
* `Table.declarations_spec`: what is declared, and in which order.
-/

namespace DataContract

/-- What is read off the results of a partial map is read off the arguments that have one. -/
theorem map_filterMap_of {α β γ : Type} {f : α → Option β} {g : β → γ} {h : α → γ}
    (hf : ∀ a b, f a = some b → g b = h a) (l : List α) :
    (l.filterMap f).map g = (l.filter fun a => (f a).isSome).map h := by
  induction l with
  | nil => rfl
  | cons a l ih =>
    cases ha : f a with
    | none => simp [ha, ih]
    | some b => simp [ha, ih, hf a b ha]

theorem Description.isSome_object? (d : Description) : d.object?.isSome = !d.isEnum := by
  unfold Description.object? Description.isEnum
  cases d.kind <;> rfl

namespace Table

variable (table : Table)

/-! ## Classes in the order of discovery -/

theorem mem_classes {c : ModelClass} : c ∈ table.classes ↔
    ∃ entry name o, (entry, name) ∈ table.named ∧ entry.description.object? = some o ∧
      c = table.classOf table.names name entry.identity o := by
  rw [classes, List.mem_filterMap]
  constructor
  · rintro ⟨⟨entry, name⟩, hmem, hc⟩
    obtain ⟨o, ho, rfl⟩ := Option.map_eq_some_iff.mp hc
    exact ⟨entry, name, o, hmem, ho, rfl⟩
  · rintro ⟨entry, name, o, hmem, ho, rfl⟩
    exact ⟨(entry, name), hmem, Option.map_eq_some_iff.mpr ⟨o, ho, rfl⟩⟩

/-- What is read off the classes is read off the discovered object types with their names. -/
theorem map_classes {γ : Type} {g : ModelClass → γ} {h : Entry × String → γ}
    (hgh : ∀ entry name o, g (table.classOf table.names name entry.identity o) = h (entry, name)) :
    table.classes.map g =
      (table.named.filter fun p => !p.1.description.isEnum).map h := by
  rw [classes, map_filterMap_of (h := h)]
  · simp only [Option.isSome_map, Description.isSome_object?]
  · rintro ⟨entry, name⟩ c hc
    obtain ⟨o, -, rfl⟩ := Option.map_eq_some_iff.mp hc
    exact hgh entry name o

/-- What is read off the enumerations is read off the discovered ones with their names. -/
theorem map_enums {γ : Type} {g : ModelEnum → γ} {h : Entry × String → γ}
    (hgh : ∀ entry name members,
      g { name, members, identity := entry.identity } = h (entry, name)) :
    table.enums.map g = (table.named.filter fun p => p.1.description.isEnum).map h := by
  rw [enums]
  refine (map_filterMap_of (h := h) ?_ table.named).trans ?_
  · rintro ⟨entry, name⟩ e he
    dsimp only at he
    split at he
    · cases he
      exact hgh entry name _
    · cases he
  · congr 2
    funext p
    unfold Description.isEnum
    dsimp only
    cases p.1.description.kind <;> rfl

theorem classNames_classes : classNames table.classes =
    (table.named.filter fun p => !p.1.description.isEnum).map (·.2) :=
  table.map_classes fun _ _ _ => rfl

/-- Classes have distinct names. -/
theorem classNames_nodup : (classNames table.classes).Nodup := by
  rw [classNames_classes]
  exact table.named_nodup.sublist (List.filter_sublist.map _)

theorem map_identity_named {p : Entry → Bool} :
    (table.named.filter fun q => p q.1).map (·.1.identity) =
      (table.filter p).map (·.identity) := by
  conv_rhs => rw [← table.map_fst_named, List.filter_map, List.map_map]
  rfl

/-- Every discovered object type has one class. -/
theorem map_identity_classes : table.classes.map (·.identity) =
    (table.filter fun entry => !entry.description.isEnum).map (·.identity) := by
  rw [← table.map_identity_named]
  exact table.map_classes fun _ _ _ => rfl

/-- Every discovered enumeration is declared once. -/
theorem map_identity_enums : table.enums.map (·.identity) =
    (table.filter fun entry => entry.description.isEnum).map (·.identity) := by
  rw [← table.map_identity_named]
  exact table.map_enums fun _ _ _ => rfl

/-- A parent is the discovered object type that the base type or, without one, the first interface
names. -/
theorem parent?_eq_some {names : NameTable} {o parent : DescribedObject} {name : String} :
    table.parent? names o = some (name, parent) ↔
      ∃ t assigned entry, o.parent? = some t ∧ names.lookup t.render = some assigned ∧
        assigned.kind = .object ∧ table.entry? t.render = some entry ∧
        entry.description.object? = some parent ∧ assigned.name = name := by
  unfold parent?
  simp only [bind, Option.bind_eq_some_iff, guard, pure, failure]
  constructor
  · rintro ⟨t, ht, assigned, hassigned, _, hkind, entry, hentry, found, hfound, heq⟩
    split_ifs at hkind with hobject
    cases heq
    exact ⟨t, assigned, entry, ht, hassigned, hobject, hentry, hfound, rfl⟩
  · rintro ⟨t, assigned, entry, ht, hassigned, hobject, hentry, hfound, rfl⟩
    exact ⟨t, ht, assigned, hassigned, (), if_pos hobject, entry, hentry, parent, hfound, rfl⟩

/-- A name is looked up by finding the entry of that identity. -/
theorem names_lookup (identity : String) : table.names.lookup identity =
    (table.named.find? (·.1.identity == identity)).map fun p =>
      { name := p.2, kind := p.1.description.assignedKind } := by
  rw [names_eq_map_named]
  exact lookup_map _ identity

theorem entry?_eq (identity : String) :
    table.entry? identity = (table.named.find? (·.1.identity == identity)).map (·.1) := by
  conv_lhs => rw [← table.map_fst_named, entry?, List.find?_map]
  rfl

/-- A name is looked up under the identity of the type that it was given to. -/
theorem mem_named_of_lookup {identity : String} {assigned : AssignedName}
    (h : table.names.lookup identity = some assigned) :
    ∃ entry, (entry, assigned.name) ∈ table.named ∧ table.entry? identity = some entry ∧
      assigned.kind = entry.description.assignedKind := by
  rw [names_lookup] at h
  obtain ⟨p, hfind, rfl⟩ := Option.map_eq_some_iff.mp h
  refine ⟨p.1, List.mem_of_find?_eq_some hfind, ?_, rfl⟩
  rw [entry?_eq, hfind, Option.map_some]

/-- The class of a discovered object type has that name. -/
def Named (name : String) (o : DescribedObject) : Prop :=
  ∃ entry, (entry, name) ∈ table.named ∧ entry.description.object? = some o

/-- A parent goes by the name of its own class. -/
theorem named_of_parent? {o parent : DescribedObject} {name : String}
    (h : table.parent? table.names o = some (name, parent)) : table.Named name parent := by
  obtain ⟨t, assigned, entry, -, hassigned, -, hentry, hobject, rfl⟩ := table.parent?_eq_some.mp h
  obtain ⟨above, habove, hfound, -⟩ := table.mem_named_of_lookup hassigned
  obtain rfl : above = entry := Option.some.inj (hfound.symm.trans hentry)
  exact ⟨above, habove, hobject⟩

theorem Named.exists_class {table : Table} {name : String} {o : DescribedObject}
    (h : table.Named name o) :
    ∃ identity, table.classOf table.names name identity o ∈ table.classes := by
  obtain ⟨entry, hentry, hobject⟩ := h
  exact ⟨entry.identity, table.mem_classes.mpr ⟨entry, name, o, hentry, hobject, rfl⟩⟩

/-- There is one type for the name of a class. -/
theorem Named.unique {table : Table} {name : String} {o o' : DescribedObject}
    (h : table.Named name o) (h' : table.Named name o') : o = o' := by
  obtain ⟨entry, hentry, hobject⟩ := h
  obtain ⟨entry', hentry', hobject'⟩ := h'
  have hsame : (entry, name) = (entry', name) :=
    List.inj_on_of_nodup_map table.named_nodup hentry hentry' rfl
  obtain rfl : entry = entry' := congrArg Prod.fst hsame
  exact Option.some.inj (hobject.symm.trans hobject')

/-- A superclass is one of the classes. -/
theorem superclass_mem {c : ModelClass} (hc : c ∈ table.classes) {parent : String}
    (hparent : c.superclass = some parent) : parent ∈ classNames table.classes := by
  obtain ⟨entry, name, o, -, -, rfl⟩ := table.mem_classes.mp hc
  obtain ⟨⟨_, described⟩, hfound, rfl⟩ := Option.map_eq_some_iff.mp hparent
  obtain ⟨identity, hclass⟩ := (table.named_of_parent? hfound).exists_class
  exact List.mem_map.mpr ⟨_, hclass, rfl⟩

end Table

/-! ## The order of declaration -/

/-- A superclass is one of the classes and stands before the class that inherits from it. -/
def SuperclassesFirst (classes : List ModelClass) : Prop :=
  ∀ (j : ℕ) (c : ModelClass), classes[j]? = some c → ∀ parent, c.superclass = some parent →
    ∃ i < j, ∃ d, classes[i]? = some d ∧ d.name = parent

/-- Where no class stands before its superclass, a superclass that is declared at all, and not the
class itself, stands before it. -/
theorem InOrder.exists_before {classes : List ModelClass} (h : InOrder classes) {j : ℕ}
    {c : ModelClass} (hc : classes[j]? = some c) {parent : String}
    (hsuper : c.superclass = some parent) (hmem : parent ∈ classNames classes)
    (hself : c.name ≠ parent) : ∃ i < j, ∃ d, classes[i]? = some d ∧ d.name = parent := by
  obtain ⟨d, hd, rfl⟩ := List.mem_map.mp hmem
  obtain ⟨i, hi⟩ := List.mem_iff_getElem?.mp hd
  refine ⟨i, ?_, d, hi, rfl⟩
  obtain ⟨hjlt, hjget⟩ := List.getElem?_eq_some_iff.mp hc
  obtain ⟨hilt, higet⟩ := List.getElem?_eq_some_iff.mp hi
  by_contra hnot
  rcases Nat.eq_or_lt_of_not_lt hnot with rfl | hlt
  · rw [hi] at hc
    cases hc
    exact hself rfl
  · have hbefore := List.pairwise_iff_getElem.mp h j i hjlt hilt hlt
    rw [hjget, higet] at hbefore
    exact hbefore hsuper

namespace Table

variable (table : Table)

/-- What is declared are the classes with cycles broken, in another order. -/
theorem perm_declarations : table.declarations.classes.Perm (breakCycles table.classes) :=
  (settles_declarationOrder table.classNames_nodup).perm.trans
    (perm_sortByName (breakCycles table.classes))

theorem classNames_declarations_nodup : (classNames table.declarations.classes).Nodup := by
  have hnodup := table.classNames_nodup
  rw [← (breakCycles_cut table.classes).classNames_eq] at hnodup
  exact (table.perm_declarations.map _).nodup_iff.mpr hnodup

theorem acyclic_declarations : Acyclic table.declarations.classes :=
  (acyclic_breakCycles table.classNames_nodup).of_perm table.perm_declarations.symm

/-- A class that is declared is the class of a discovered type, as it was or without its
superclass. -/
theorem exists_class_of_declared {c : ModelClass} (hc : c ∈ table.declarations.classes) :
    ∃ d ∈ table.classes, Cut d c :=
  (breakCycles_cut table.classes).exists_of_mem (table.perm_declarations.mem_iff.mp hc)

/-- The class that is declared under a name is that of the type of the name. -/
theorem exists_named_of_declared {c : ModelClass} (hc : c ∈ table.declarations.classes) :
    ∃ identity o, table.Named c.name o ∧
      Cut (table.classOf table.names c.name identity o) c := by
  obtain ⟨d, hd, hcut⟩ := table.exists_class_of_declared hc
  obtain ⟨entry, name, o, hentry, hobject, rfl⟩ := table.mem_classes.mp hd
  obtain rfl : c.name = name := hcut.name
  exact ⟨entry.identity, o, ⟨entry, hentry, hobject⟩, hcut⟩

/-- A type has a class that is declared under its name. -/
theorem exists_declared_of_named {up : String} {o : DescribedObject} (h : table.Named up o) :
    ∃ identity, ∃ c ∈ table.declarations.classes,
      Cut (table.classOf table.names up identity o) c := by
  obtain ⟨identity, hclass⟩ := h.exists_class
  obtain ⟨c, hc, hcut⟩ := (breakCycles_cut table.classes).exists_cut hclass
  exact ⟨identity, c, table.perm_declarations.mem_iff.mpr hc, hcut⟩

theorem superclass_mem_declarations {c : ModelClass} (hc : c ∈ table.declarations.classes)
    {parent : String} (hparent : c.superclass = some parent) :
    parent ∈ classNames table.declarations.classes := by
  obtain ⟨d, hd, hcut⟩ := table.exists_class_of_declared hc
  have hsame : d.superclass = some parent := by
    rcases hcut with rfl | rfl
    · exact hparent
    · cases hparent
  have hnames := (table.perm_declarations.map (·.name)).mem_iff (a := parent)
  rw [hnames]
  show parent ∈ classNames (breakCycles table.classes)
  rw [(breakCycles_cut table.classes).classNames_eq]
  exact table.superclass_mem hd hsame

/-- Naming the types of any table ends: each search for a free name does, and so do the moves that
put classes behind their superclasses.  Every discovered object type has become one class and
every discovered enumeration one enumeration, the names of classes are distinct, and a superclass
is a class at a smaller position. -/
theorem declarations_spec :
    (∀ base taken, ∃ rank, FirstFree base taken rank ∧
      uniqueName base taken = rankedName base rank) ∧
    Settles (sortByName (breakCycles table.classes)) table.declarations.classes ∧
    (table.declarations.classes.map (·.identity)).Perm
      ((table.filter fun entry => !entry.description.isEnum).map (·.identity)) ∧
    (table.declarations.enums.map (·.identity)).Perm
      ((table.filter fun entry => entry.description.isEnum).map (·.identity)) ∧
    (classNames table.declarations.classes).Nodup ∧
    SuperclassesFirst table.declarations.classes := by
  have hsettles : Settles (sortByName (breakCycles table.classes)) table.declarations.classes :=
    settles_declarationOrder table.classNames_nodup
  refine ⟨uniqueName_spec, hsettles, ?_, ?_, table.classNames_declarations_nodup, ?_⟩
  · rw [← table.map_identity_classes, ← (breakCycles_cut table.classes).map_identity]
    exact table.perm_declarations.map _
  · rw [← table.map_identity_enums]
    exact (List.mergeSort_perm table.enums _).map _
  · intro j c hc parent hsuper
    have hmem : c ∈ table.declarations.classes := List.mem_of_getElem? hc
    refine hsettles.inOrder.exists_before hc hsuper
      (table.superclass_mem_declarations hmem hsuper) ?_
    rintro rfl
    exact table.acyclic_declarations c.name (.single ⟨c, hmem, rfl, hsuper⟩)

end Table

end DataContract
