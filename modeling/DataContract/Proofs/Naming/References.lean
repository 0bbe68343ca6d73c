import DataContract.Proofs.Naming.Declarations

/-!
# References to declarations

A name that the table of names holds is the one of a single declaration, which is made for the type
under whose identity the name is found.

Results:

* `Table.enumNames_nodup`: enumerations have distinct names.
* `Table.filter_classes_of_lookup`, `Table.filter_enums_of_lookup`: the declaration of a name that
  is found.
-/

namespace DataContract

/-- Where keys are distinct, the key of an element selects nothing else. -/
theorem filter_eq_singleton {α : Type} {key : α → String} {a : α} :
    ∀ {l : List α}, (l.map key).Nodup → a ∈ l → (l.filter fun b => key b == key a) = [a] := by
  intro l
  induction l with
  | nil => intro _ ha; cases ha
  | cons b l ih =>
    intro hnodup ha
    obtain ⟨hfirst, hrest⟩ := List.nodup_cons.mp hnodup
    rcases List.mem_cons.mp ha with rfl | ha
    · have hothers : (l.filter fun b => key b == key a) = [] := by
        rw [List.filter_eq_nil_iff]
        intro b hb hsame
        exact hfirst (List.mem_map.mpr ⟨b, hb, beq_iff_eq.mp hsame⟩)
      rw [List.filter_cons, if_pos (beq_self_eq_true _), hothers]
    · have hother : ¬ (key b == key a) = true := by
        intro hsame
        exact hfirst (List.mem_map.mpr ⟨a, ha, (beq_iff_eq.mp hsame).symm⟩)
      rw [List.filter_cons, if_neg hother, ih hrest ha]

namespace Table

variable (table : Table)

/-- Enumerations have distinct names. -/
theorem enumNames_nodup : (table.enums.map (·.name)).Nodup := by
  rw [enums, map_filterMap_of (h := Prod.snd)]
  · exact table.named_nodup.sublist (List.filter_sublist.map _)
  · intro p e he
    dsimp only at he
    split at he
    · cases he
      rfl
    · cases he

/-- A type has a name exactly when it is in the table. -/
theorem isSome_lookup_names (identity : String) :
    (table.names.lookup identity).isSome = table.holds identity := by
  have hkeys : table.names.map (·.1) = table.map (·.identity) := by
    rw [names, List.map_map]
    show (table.zip (uniqueNames [] _)).map (Entry.identity ∘ Prod.fst) = _
    rw [← List.map_map, List.map_fst_zip (by simp)]
  have hnames : (∃ p ∈ table.names, identity = p.1) ↔ identity ∈ table.names.map (·.1) := by
    simp only [List.mem_map, eq_comm]
  rw [Bool.eq_iff_iff, List.lookup_isSome_iff]
  simp only [beq_iff_eq]
  rw [hnames, hkeys, List.mem_map, holds, List.any_eq_true]
  simp only [beq_iff_eq]

variable {table} {identity : String} {assigned : AssignedName}

/-- The name of an object type is the one of a single class, which is made for it. -/
theorem filter_classes_of_lookup (h : table.names.lookup identity = some assigned)
    (hkind : assigned.kind = .object) :
    ∃ c, (table.declarations.classes.filter (·.name == assigned.name)) = [c] ∧
      c.identity = identity := by
  obtain ⟨entry, hnamed, hentry, hdescribed⟩ := table.mem_named_of_lookup h
  have hidentity : entry.identity = identity := by simpa using List.find?_some hentry
  obtain ⟨o, hobject⟩ : ∃ o, entry.description.object? = some o := by
    rw [hkind, Description.assignedKind] at hdescribed
    unfold Description.isEnum at hdescribed
    unfold Description.object?
    cases hform : entry.description.kind with
    | object o => exact ⟨o, rfl⟩
    | enum members => simp [hform] at hdescribed
  have hclass := table.mem_classes.mpr ⟨entry, assigned.name, o, hnamed, hobject, rfl⟩
  obtain ⟨c, hc, hcut⟩ := (breakCycles_cut table.classes).exists_cut hclass
  have hdeclared : c ∈ table.declarations.classes := table.perm_declarations.mem_iff.mpr hc
  have hname : c.name = assigned.name := hcut.name
  refine ⟨c, ?_, ?_⟩
  · rw [← hname]
    exact filter_eq_singleton table.classNames_declarations_nodup hdeclared
  · rw [← hidentity]
    rcases hcut with rfl | rfl <;> rfl

/-- The name of an enumeration type is the one of a single enumeration, which is made for it. -/
theorem filter_enums_of_lookup (h : table.names.lookup identity = some assigned)
    (hkind : assigned.kind = .enum) :
    ∃ e, (table.declarations.enums.filter (·.name == assigned.name)) = [e] ∧
      e.identity = identity := by
  obtain ⟨entry, hnamed, hentry, hdescribed⟩ := table.mem_named_of_lookup h
  have hidentity : entry.identity = identity := by simpa using List.find?_some hentry
  obtain ⟨members, henum⟩ : ∃ members, entry.description.kind = .enum members := by
    rw [hkind, Description.assignedKind] at hdescribed
    unfold Description.isEnum at hdescribed
    cases hform : entry.description.kind with
    | object o => simp [hform] at hdescribed
    | enum members => exact ⟨members, rfl⟩
  let e : ModelEnum :=
    { name := assigned.name, members := modelMembers members, identity := entry.identity }
  have hmem : e ∈ table.enums := by
    rw [enums, List.mem_filterMap]
    refine ⟨(entry, assigned.name), hnamed, ?_⟩
    simp only [henum]
    rfl
  have hperm : table.declarations.enums.Perm table.enums := List.mergeSort_perm _ _
  refine ⟨e, ?_, hidentity⟩
  exact filter_eq_singleton ((hperm.map _).nodup_iff.mpr table.enumNames_nodup)
    (hperm.mem_iff.mpr hmem)

end Table

end DataContract
