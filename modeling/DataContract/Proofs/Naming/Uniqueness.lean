import DataContract.Naming.Assign
import Mathlib.Data.List.Nodup
import Mathlib.Data.Fintype.Card
import Std.Data.String.ToNat

/-!
# Distinct names

The names for one base are pairwise distinct, so among more of them than there are taken names one
is free.  The search for a free name therefore ends, and the names of the discovered types are
pairwise distinct, whatever names they would have had.

Results:

* `uniqueName_spec`: the first free name for a base.
* `uniqueNames_nodup`: the names for several bases are distinct.
* `Table.named_nodup`: the names of the discovered types are distinct.
-/

namespace DataContract

/-! ## Names for a base -/

theorem rankedName_one (base : String) : rankedName base 1 = base := rfl

theorem rankedName_of_lt {base : String} {rank : ℕ} (h : 1 < rank) :
    rankedName base rank = base ++ "_" ++ rank.repr := by
  rw [rankedName, if_neg (by omega)]
  rfl

theorem ne_rankedName {base : String} {rank : ℕ} (h : 1 < rank) : base ≠ rankedName base rank := by
  intro heq
  have hlength := congrArg (fun s : String => s.toList.length) heq
  rw [rankedName_of_lt h] at hlength
  simp at hlength

/-- The names for a base are pairwise distinct. -/
theorem rankedName_inj {base : String} {i j : ℕ} (hi : 1 ≤ i) (hj : 1 ≤ j)
    (h : rankedName base i = rankedName base j) : i = j := by
  rcases hi.eq_or_lt with rfl | hi <;> rcases hj.eq_or_lt with rfl | hj
  · rfl
  · rw [rankedName_one] at h
    exact absurd h (ne_rankedName hj)
  · rw [rankedName_one] at h
    exact absurd h.symm (ne_rankedName hi)
  · rw [rankedName_of_lt hi, rankedName_of_lt hj] at h
    exact Nat.repr_injective ((String.append_right_inj _).mp h)

/-- Among one name more than there are taken ones there is a free one. -/
theorem exists_free_rank (base : String) (taken : List String) :
    ∃ rank ∈ List.range' 1 (taken.length + 1), rankedName base rank ∉ taken := by
  by_contra hall
  push Not at hall
  have hnodup : ((List.range' 1 (taken.length + 1)).map (rankedName base)).Nodup := by
    refine List.Nodup.map_on ?_ List.nodup_range'
    intro i hi j hj heq
    rw [List.mem_range'_1] at hi hj
    exact rankedName_inj hi.1 hj.1 heq
  have hsub : (List.range' 1 (taken.length + 1)).map (rankedName base) ⊆ taken := by
    intro name hname
    obtain ⟨rank, hrank, rfl⟩ := List.mem_map.mp hname
    exact hall rank hrank
  have hlength := (hnodup.subperm hsub).length_le
  rw [List.length_map, List.length_range'] at hlength
  omega

/-- A search upwards from rank 1 comes to that rank and ends there, because the name is free. -/
def FirstFree (base : String) (taken : List String) (rank : ℕ) : Prop :=
  1 ≤ rank ∧ rankedName base rank ∉ taken ∧
    ∀ lower, 1 ≤ lower → lower < rank → rankedName base lower ∈ taken

/-- The name for a base is the first one that is not taken. -/
theorem uniqueName_spec (base : String) (taken : List String) :
    ∃ rank, FirstFree base taken rank ∧ uniqueName base taken = rankedName base rank := by
  obtain ⟨free, hfree, hnotin⟩ := exists_free_rank base taken
  unfold uniqueName
  cases hfind : (List.range' 1 (taken.length + 1)).find?
      fun rank => rankedName base rank ∉ taken with
  | none =>
    have hall := List.find?_eq_none.mp hfind free hfree
    simp [hnotin] at hall
  | some rank =>
    obtain ⟨hrank, hmem, hleast⟩ := List.find?_range'_eq_some.mp hfind
    rw [List.mem_range'_1] at hmem
    refine ⟨rank, ⟨hmem.1, by simpa using hrank, ?_⟩, rfl⟩
    intro lower hlower hless
    simpa using hleast lower hlower hless

theorem uniqueName_notMem (base : String) (taken : List String) :
    uniqueName base taken ∉ taken := by
  obtain ⟨rank, ⟨-, hfree, -⟩, hname⟩ := uniqueName_spec base taken
  rw [hname]
  exact hfree

/-! ## Names for several bases -/

@[simp] theorem length_uniqueNames (taken bases : List String) :
    (uniqueNames taken bases).length = bases.length := by
  induction bases generalizing taken with
  | nil => rfl
  | cons base bases ih => simp [uniqueNames, ih]

/-- The names for several bases are distinct, also from the taken ones. -/
theorem uniqueNames_nodup : ∀ (bases taken : List String),
    (uniqueNames taken bases).Nodup ∧ ∀ name ∈ uniqueNames taken bases, name ∉ taken := by
  intro bases
  induction bases with
  | nil => intro taken; simp [uniqueNames]
  | cons base bases ih =>
    intro taken
    obtain ⟨hnodup, hfree⟩ := ih (uniqueName base taken :: taken)
    rw [uniqueNames]
    refine ⟨List.nodup_cons.mpr ⟨?_, hnodup⟩, ?_⟩
    · intro hagain
      exact hfree _ hagain (by simp)
    · intro name hname
      rcases List.mem_cons.mp hname with rfl | hname
      · exact uniqueName_notMem base taken
      · intro htaken
        exact hfree name hname (by simp [htaken])

/-! ## Names of the discovered types -/

namespace Table

variable (table : Table)

theorem map_name_names : table.names.map (·.2.name) =
    uniqueNames [] (table.map (·.description.naturalName)) := by
  rw [names, List.map_map]
  exact List.map_snd_zip (by simp)

theorem map_fst_named : table.named.map (·.1) = table := by
  rw [named, map_name_names]
  exact List.map_fst_zip (by simp)

/-- The names by identity are those that go with the entries. -/
theorem names_eq_map_named : table.names = table.named.map fun p =>
    (p.1.identity, { name := p.2, kind := p.1.description.assignedKind }) := by
  rw [named, map_name_names]
  rfl

/-- The discovered types have distinct names. -/
theorem named_nodup : (table.named.map (·.2)).Nodup := by
  rw [named, map_name_names, List.map_snd_zip (by simp)]
  exact (uniqueNames_nodup _ _).1

end Table

end DataContract
