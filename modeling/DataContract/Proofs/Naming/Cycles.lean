import DataContract.Proofs.Naming.Declarations

/-!
# Cycles of parents

The parent of a discovered object type is its base type or, without one, its first interface, if
that is a discovered object type too.  Each class has the class of its parent as its superclass,
except for one class on each cycle of parents: the one of the type that was discovered first.

Results:

* `Table.transGen_inherits_iff`: classes inherit from each other as their types have parents.
* `Table.superclasses_exact`: which classes lose their superclass, and what that of all others is.
-/

namespace DataContract

open Relation (ReflTransGen TransGen)

namespace Table

variable (table : Table)

/-! ## Parents by position -/

/-- The object type at position `j` is the parent of the one at position `i`. -/
def Parent (i j : ℕ) : Prop :=
  ∃ entry o t above, table[i]? = some entry ∧ entry.description.object? = some o ∧
    (o.base = some t ∨ o.base = none ∧ o.interfaces.head? = some t) ∧
    table.findIdx? (·.identity == t.render) = some j ∧ table[j]? = some above ∧
    above.description.object?.isSome = true

/-- The type at this position is on a cycle of parents, and none on that cycle was discovered before
it. -/
def FirstOnCycle (i : ℕ) : Prop :=
  TransGen table.Parent i i ∧
    ∀ j, TransGen table.Parent i j → TransGen table.Parent j i → i ≤ j

/-- The class of the type at a position. -/
def classAt? (i : ℕ) : Option ModelClass :=
  (table.names[i]?).bind fun p => findClass table.declarations.classes p.2.name

variable {table : Table}

theorem getElem?_of_named {i : ℕ} {entry : Entry} {name : String}
    (h : table.named[i]? = some (entry, name)) : table[i]? = some entry := by
  conv_lhs => rw [← table.map_fst_named, List.getElem?_map, h]
  rfl

theorem exists_named {i : ℕ} {entry : Entry} (h : table[i]? = some entry) :
    ∃ name, table.named[i]? = some (entry, name) := by
  rw [← table.map_fst_named, List.getElem?_map] at h
  obtain ⟨⟨_, name⟩, hnamed, rfl⟩ := Option.map_eq_some_iff.mp h
  exact ⟨name, hnamed⟩

/-- A name is that of one position. -/
theorem position_unique {i j : ℕ} {p q : Entry × String} (hi : table.named[i]? = some p)
    (hj : table.named[j]? = some q) (h : p.2 = q.2) : i = j := by
  have hlt : i < (table.named.map (·.2)).length := by
    rw [List.length_map]
    exact (List.getElem?_eq_some_iff.mp hi).1
  refine (List.getElem?_inj hlt table.named_nodup).mp ?_
  rw [List.getElem?_map, List.getElem?_map, hi, hj, Option.map_some, Option.map_some, h]

theorem findIdx?_named {identity : String} :
    table.named.findIdx? (·.1.identity == identity) = table.findIdx? (·.identity == identity) := by
  conv_rhs => rw [← table.map_fst_named, List.findIdx?_map]
  rfl

theorem parent?_eq_some_iff {o : DescribedObject} {t : TypeExpr} : o.parent? = some t ↔
    o.base = some t ∨ o.base = none ∧ o.interfaces.head? = some t := by
  rw [DescribedObject.parent?]
  cases o.base <;> simp

/-- The superclass of a class is the name at the position of the parent. -/
theorem superclass_classOf_iff {i : ℕ} {entry : Entry} {o : DescribedObject}
    (hentry : table[i]? = some entry) (ho : entry.description.object? = some o)
    {name identity parent : String} :
    (table.classOf table.names name identity o).superclass = some parent ↔
      ∃ j above, table.Parent i j ∧ table.named[j]? = some (above, parent) := by
  show (table.parent? table.names o).map (·.1) = some parent ↔ _
  constructor
  · intro h
    obtain ⟨⟨_, q⟩, hparent, rfl⟩ := Option.map_eq_some_iff.mp h
    obtain ⟨t, assigned, above, ht, hassigned, -, habove, hobject, rfl⟩ :=
      table.parent?_eq_some.mp hparent
    rw [names_lookup] at hassigned
    obtain ⟨⟨found, name⟩, hfind, rfl⟩ := Option.map_eq_some_iff.mp hassigned
    rw [entry?_eq, hfind] at habove
    obtain rfl : found = above := Option.some.inj habove
    obtain ⟨j, hj, hnamed⟩ := find?_eq_some_iff_findIdx?.mp hfind
    rw [findIdx?_named] at hj
    refine ⟨j, found, ⟨entry, o, t, found, hentry, ho, parent?_eq_some_iff.mp ht, hj,
      getElem?_of_named hnamed, ?_⟩, hnamed⟩
    rw [hobject, Option.isSome_some]
  · rintro ⟨j, above, ⟨entry', o', t, above', hentry', ho', ht, hj, habove, hobject⟩, hnamed⟩
    obtain rfl : entry = entry' := Option.some.inj (hentry.symm.trans hentry')
    obtain rfl : o = o' := Option.some.inj (ho.symm.trans ho')
    obtain rfl : above' = above :=
      Option.some.inj (habove.symm.trans (getElem?_of_named hnamed))
    have hfind : table.named.find? (·.1.identity == t.render) = some (above', parent) := by
      refine find?_eq_some_iff_findIdx?.mpr ⟨j, ?_, hnamed⟩
      rw [findIdx?_named]
      exact hj
    have hkind : above'.description.assignedKind = .object := by
      rw [Description.isSome_object?, Bool.not_eq_true'] at hobject
      rw [Description.assignedKind, hobject]
      rfl
    obtain ⟨q, hq⟩ := Option.isSome_iff_exists.mp hobject
    refine Option.map_eq_some_iff.mpr ⟨(parent, q), table.parent?_eq_some.mpr
      ⟨t, ⟨parent, above'.description.assignedKind⟩, above', parent?_eq_some_iff.mpr ht, ?_,
        hkind, ?_, hq, rfl⟩, rfl⟩
    · rw [names_lookup, hfind, Option.map_some]
    · rw [entry?_eq, hfind, Option.map_some]

/-! ## Classes inherit as types have parents -/

theorem inherits_classes_iff {a b : String} : Inherits table.classes a b ↔
    ∃ i j entry above, table.Parent i j ∧ table.named[i]? = some (entry, a) ∧
      table.named[j]? = some (above, b) := by
  constructor
  · rintro ⟨c, hc, rfl, hsuper⟩
    obtain ⟨entry, name, o, hnamed, ho, rfl⟩ := table.mem_classes.mp hc
    obtain ⟨i, hi⟩ := List.mem_iff_getElem?.mp hnamed
    obtain ⟨j, above, hparent, hj⟩ :=
      (superclass_classOf_iff (getElem?_of_named hi) ho).mp hsuper
    exact ⟨i, j, entry, above, hparent, hi, hj⟩
  · rintro ⟨i, j, entry, above, hparent, hi, hj⟩
    obtain ⟨entry', o, _, _, hentry, ho, -⟩ := id hparent
    obtain rfl : entry' = entry := Option.some.inj (hentry.symm.trans (getElem?_of_named hi))
    exact ⟨_, table.mem_classes.mpr ⟨entry', a, o, List.mem_of_getElem? hi, ho, rfl⟩, rfl,
      (superclass_classOf_iff hentry ho).mpr ⟨j, above, hparent, hj⟩⟩

theorem Parent.exists_named {i j : ℕ} (h : table.Parent i j) :
    ∃ p, table.named[i]? = some p ∧ p.1.description.object?.isSome = true := by
  obtain ⟨entry, o, _, _, hentry, ho, -⟩ := h
  obtain ⟨name, hnamed⟩ := Table.exists_named hentry
  refine ⟨(entry, name), hnamed, ?_⟩
  rw [ho, Option.isSome_some]

/-- Classes inherit from each other as their types have parents. -/
theorem transGen_inherits_iff {i j : ℕ} {p q : Entry × String} (hi : table.named[i]? = some p)
    (hj : table.named[j]? = some q) :
    TransGen (Inherits table.classes) p.2 q.2 ↔ TransGen table.Parent i j := by
  constructor
  · intro h
    suffices hall : ∀ b, TransGen (Inherits table.classes) p.2 b →
        ∃ k r, table.named[k]? = some (r, b) ∧ TransGen table.Parent i k by
      obtain ⟨k, r, hk, hto⟩ := hall q.2 h
      obtain rfl := position_unique hk hj rfl
      exact hto
    intro b hto
    induction hto with
    | single hedge =>
      obtain ⟨i', k, entry, above, hparent, hi', hk⟩ := inherits_classes_iff.mp hedge
      obtain rfl := position_unique hi' hi rfl
      exact ⟨k, above, hk, .single hparent⟩
    | tail _ hedge ih =>
      obtain ⟨m, r, hm, hto⟩ := ih
      obtain ⟨m', k, entry, above, hparent, hm', hk⟩ := inherits_classes_iff.mp hedge
      obtain rfl := position_unique hm' hm rfl
      exact ⟨k, above, hk, hto.tail hparent⟩
  · intro h
    induction h generalizing q with
    | single hparent => exact .single (inherits_classes_iff.mpr ⟨i, _, p.1, q.1, hparent, hi, hj⟩)
    | tail _ hparent ih =>
      obtain ⟨r, hm, -⟩ := hparent.exists_named
      exact (ih hm).tail (inherits_classes_iff.mpr ⟨_, _, r.1, q.1, hparent, hm, hj⟩)

/-! ## Classes by position -/

/-- The class of a named type, for an object type. -/
def classFor (table : Table) (p : Entry × String) : Option ModelClass :=
  p.1.description.object?.map (table.classOf table.names p.2 p.1.identity)

/-- The classes of the types discovered before the one at a position. -/
def classesBefore (table : Table) (i : ℕ) : List ModelClass :=
  (table.named.take i).filterMap table.classFor

/-- The classes of the types discovered behind the one at a position. -/
def classesBehind (table : Table) (i : ℕ) : List ModelClass :=
  (table.named.drop (i + 1)).filterMap table.classFor

theorem name_mem_classesBefore {i : ℕ} {name : String} :
    name ∈ classNames (table.classesBefore i) ↔
      ∃ k < i, ∃ p, table.named[k]? = some p ∧ p.1.description.object?.isSome = true ∧
        p.2 = name := by
  rw [List.mem_map]
  constructor
  · rintro ⟨c, hc, rfl⟩
    obtain ⟨p, hp, hclass⟩ := List.mem_filterMap.mp hc
    obtain ⟨o, ho, rfl⟩ := Option.map_eq_some_iff.mp hclass
    obtain ⟨k, hk⟩ := List.mem_iff_getElem?.mp hp
    rw [List.getElem?_take] at hk
    split_ifs at hk with hlt
    exact ⟨k, hlt, p, hk, by rw [ho, Option.isSome_some], rfl⟩
  · rintro ⟨k, hlt, p, hk, hobject, rfl⟩
    obtain ⟨o, ho⟩ := Option.isSome_iff_exists.mp hobject
    have hmem : p ∈ table.named.take i := by
      refine List.mem_of_getElem? (i := k) ?_
      rw [List.getElem?_take_of_lt hlt, hk]
    exact ⟨_, List.mem_filterMap.mpr ⟨p, hmem, Option.map_eq_some_iff.mpr ⟨o, ho, rfl⟩⟩, rfl⟩

section Position

variable {i : ℕ} {entry : Entry} {name : String} {o : DescribedObject}

theorem classes_split (hi : table.named[i]? = some (entry, name))
    (ho : entry.description.object? = some o) : table.classes =
      table.classesBefore i ++
        table.classOf table.names name entry.identity o :: table.classesBehind i := by
  obtain ⟨hlt, hget⟩ := List.getElem?_eq_some_iff.mp hi
  have hsplit : table.named = table.named.take i ++ (entry, name) :: table.named.drop (i + 1) := by
    rw [← hget, ← List.drop_eq_getElem_cons hlt, List.take_append_drop]
  have hclass : table.classFor (entry, name) =
      some (table.classOf table.names name entry.identity o) :=
    Option.map_eq_some_iff.mpr ⟨o, ho, rfl⟩
  have hclasses : table.classes = table.named.filterMap table.classFor := rfl
  rw [hclasses]
  conv_lhs => rw [hsplit]
  rw [List.filterMap_append, List.filterMap_cons, hclass]
  rfl

/-- The first class on a cycle is that of the type that is first on a cycle of parents. -/
theorem opensCycle_iff (hi : table.named[i]? = some (entry, name))
    (ho : entry.description.object? = some o) :
    OpensCycle (table.classesBefore i) (table.classOf table.names name entry.identity o)
      (table.classesBehind i) ↔ table.FirstOnCycle i := by
  have hself : TransGen (Inherits table.classes) name name ↔ TransGen table.Parent i i :=
    transGen_inherits_iff hi hi
  rw [OpensCycle, ← classes_split hi ho]
  refine and_congr hself ⟨fun hfirst j hto hback => ?_, fun hfirst d hd hto hback => ?_⟩
  · obtain ⟨next, hparent, -⟩ := TransGen.head'_iff.mp hback
    obtain ⟨p, hj, hobject⟩ := hparent.exists_named
    by_contra hlt
    obtain ⟨d, hd, hname⟩ := List.mem_map.mp
      (name_mem_classesBefore.mpr ⟨j, Nat.lt_of_not_le hlt, p, hj, hobject, rfl⟩)
    refine hfirst d hd ?_ ?_
    · rw [hname]
      exact (transGen_inherits_iff hi hj).mpr hto
    · rw [hname]
      exact (transGen_inherits_iff hj hi).mpr hback
  · obtain ⟨k, hlt, p, hk, -, hname⟩ := name_mem_classesBefore.mp (List.mem_map_of_mem hd)
    rw [← hname] at hto hback
    have hle := hfirst k ((transGen_inherits_iff hi hk).mp hto)
      ((transGen_inherits_iff hk hi).mp hback)
    omega

end Position

theorem classAt?_eq_some {i : ℕ} {c : ModelClass} : table.classAt? i = some c ↔
    c ∈ table.declarations.classes ∧ ∃ entry, table.named[i]? = some (entry, c.name) := by
  rw [classAt?, names_eq_map_named, List.getElem?_map]
  constructor
  · intro h
    obtain ⟨_, hnamed, hfind⟩ := Option.bind_eq_some_iff.mp h
    obtain ⟨⟨entry, name⟩, hi, rfl⟩ := Option.map_eq_some_iff.mp hnamed
    obtain ⟨hc, rfl⟩ := findClass_eq_some hfind
    exact ⟨hc, entry, hi⟩
  · rintro ⟨hc, entry, hi⟩
    rw [hi, Option.map_some, Option.bind_some]
    exact findClass_name table.classNames_declarations_nodup hc

/-- The class of an object type is the one it was given, without its superclass if the type is first
on a cycle of parents. -/
theorem classAt?_of_named {i : ℕ} {entry : Entry} {name : String} {o : DescribedObject}
    (hi : table.named[i]? = some (entry, name)) (ho : entry.description.object? = some o) :
    (table.FirstOnCycle i → table.classAt? i =
      some { table.classOf table.names name entry.identity o with superclass := none }) ∧
    (¬ table.FirstOnCycle i →
      table.classAt? i = some (table.classOf table.names name entry.identity o)) := by
  have hopens := opensCycle_iff hi ho
  have hnodup := table.classNames_nodup
  rw [classes_split hi ho] at hnodup
  obtain ⟨hcut, hkept⟩ := breakCycles_exact hnodup
  rw [← classes_split hi ho] at hcut hkept
  refine ⟨fun hfirst => ?_, fun hnot => ?_⟩
  · exact classAt?_eq_some.mpr
      ⟨table.perm_declarations.mem_iff.mpr (hcut (hopens.mpr hfirst)), entry, hi⟩
  · exact classAt?_eq_some.mpr
      ⟨table.perm_declarations.mem_iff.mpr (hkept (mt hopens.mp hnot)), entry, hi⟩

/-- A class is that of one object type. -/
theorem exists_object_of_classAt? {i : ℕ} {c : ModelClass} (h : table.classAt? i = some c) :
    ∃ entry o, table.named[i]? = some (entry, c.name) ∧ entry.description.object? = some o := by
  obtain ⟨hc, entry, hi⟩ := classAt?_eq_some.mp h
  obtain ⟨_, o, ⟨entry', hentry, ho⟩, -⟩ := table.exists_named_of_declared hc
  obtain ⟨k, hk⟩ := List.mem_iff_getElem?.mp hentry
  obtain rfl := position_unique hk hi rfl
  obtain rfl : entry' = entry := congrArg Prod.fst (Option.some.inj (hk.symm.trans hi))
  exact ⟨entry', o, hi, ho⟩

/-- Every discovered object type has a class. -/
theorem exists_classAt? {i : ℕ} {entry : Entry} (hentry : table[i]? = some entry)
    (hobject : entry.description.object?.isSome = true) :
    ∃ c, table.classAt? i = some c ∧ c.identity = entry.identity := by
  obtain ⟨name, hi⟩ := exists_named hentry
  obtain ⟨o, ho⟩ := Option.isSome_iff_exists.mp hobject
  obtain ⟨hcut, hkept⟩ := classAt?_of_named hi ho
  by_cases hfirst : table.FirstOnCycle i
  · exact ⟨_, hcut hfirst, rfl⟩
  · exact ⟨_, hkept hfirst, rfl⟩

theorem Parent.exists_class {i j : ℕ} (h : table.Parent i j) :
    ∃ d, table.classAt? j = some d := by
  obtain ⟨_, _, _, above, _, _, _, _, habove, hobject⟩ := h
  obtain ⟨d, hd, -⟩ := exists_classAt? habove hobject
  exact ⟨d, hd⟩

/-- The superclass of a class that is declared is that of the parent, unless the type is the first
one on a cycle of parents. -/
theorem superclass_classAt?_iff {i : ℕ} {c : ModelClass} (hclass : table.classAt? i = some c)
    {parent : String} : c.superclass = some parent ↔
      ¬ table.FirstOnCycle i ∧
        ∃ j d, table.Parent i j ∧ table.classAt? j = some d ∧ d.name = parent := by
  obtain ⟨entry, o, hi, ho⟩ := exists_object_of_classAt? hclass
  obtain ⟨hcut, hkept⟩ := classAt?_of_named hi ho
  by_cases hfirst : table.FirstOnCycle i
  · have hnone : c.superclass = none := by
      rw [Option.some.inj (hclass.symm.trans (hcut hfirst))]
    rw [hnone]
    exact ⟨fun h => absurd h (by simp), fun h => absurd hfirst h.1⟩
  · have hsame := congrArg ModelClass.superclass
      (Option.some.inj (hclass.symm.trans (hkept hfirst)))
    rw [hsame, superclass_classOf_iff (getElem?_of_named hi) ho, and_iff_right hfirst]
    constructor
    · rintro ⟨j, above, hparent, hj⟩
      obtain ⟨d, hd⟩ := hparent.exists_class
      obtain ⟨-, above', hj'⟩ := classAt?_eq_some.mp hd
      exact ⟨j, d, hparent, hd, congrArg Prod.snd (Option.some.inj (hj'.symm.trans hj))⟩
    · rintro ⟨j, d, hparent, hd, rfl⟩
      obtain ⟨-, above, hj⟩ := classAt?_eq_some.mp hd
      exact ⟨j, above, hparent, hj⟩

/-- No class inherits from itself.  Every class is that of one discovered object type, and every
such type has one.  A class has lost its superclass exactly when its type is the first one on a
cycle of parents, and whatever superclass a class has is the class of its parent. -/
theorem superclasses_exact (table : Table) :
    Acyclic table.declarations.classes ∧
    (∀ c ∈ table.declarations.classes, ∃! i, table.classAt? i = some c) ∧
    (∀ i entry, table[i]? = some entry → entry.description.object?.isSome = true →
      ∃ c, table.classAt? i = some c ∧ c.identity = entry.identity) ∧
    ∀ i c, table.classAt? i = some c →
      ((∃ j, table.Parent i j) ∧ c.superclass = none ↔ table.FirstOnCycle i) ∧
      ∀ parent, c.superclass = some parent ↔
        ¬ table.FirstOnCycle i ∧
          ∃ j d, table.Parent i j ∧ table.classAt? j = some d ∧ d.name = parent := by
  refine ⟨table.acyclic_declarations, ?_, fun i entry => exists_classAt?, fun i c hclass =>
    ⟨⟨?_, fun hfirst => ⟨?_, ?_⟩⟩, fun parent => superclass_classAt?_iff hclass⟩⟩
  · intro c hc
    obtain ⟨_, _, ⟨entry, hentry, -⟩, -⟩ := table.exists_named_of_declared hc
    obtain ⟨i, hi⟩ := List.mem_iff_getElem?.mp hentry
    refine ⟨i, classAt?_eq_some.mpr ⟨hc, entry, hi⟩, fun k hk => ?_⟩
    obtain ⟨-, _, hk⟩ := classAt?_eq_some.mp hk
    exact position_unique hk hi rfl
  · rintro ⟨⟨j, hparent⟩, hnone⟩
    by_contra hnot
    obtain ⟨d, hd⟩ := hparent.exists_class
    rw [(superclass_classAt?_iff hclass).mpr ⟨hnot, j, d, hparent, hd, rfl⟩] at hnone
    cases hnone
  · obtain ⟨j, hparent, -⟩ := TransGen.head'_iff.mp hfirst.1
    exact ⟨j, hparent⟩
  · cases hsuper : c.superclass with
    | none => rfl
    | some parent => exact absurd hfirst ((superclass_classAt?_iff hclass).mp hsuper).1

/-- Two types that are each other's base, discovered behind one that leads to them. -/
def knot : Table :=
  [("Leaf", "Right"), ("Left", "Right"), ("Right", "Left")].map fun (name, base) =>
    { identity := name, reason := .manual
      description :=
        { identity := name, shortName := name, nameOverride := none, genericArgs := []
          kind := .object
            { properties := [], base := some (.named base []), interfaces := []
              knownInheritors := [] } } }

example : (breakCycles knot.classes).map (fun c => (c.name, c.superclass)) =
    [("Leaf", some "Right"), ("Left", none), ("Right", some "Left")] := by
  decide +kernel

end Table

end DataContract
