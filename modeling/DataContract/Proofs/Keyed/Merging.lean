import DataContract.Keyed
import Mathlib.Data.List.Dedup
import Mathlib.Data.List.Induction

/-!
# Values that are set one after the other

A value that is set under a key takes the place of the one before it.  So after several values have
been set, each key stands where it came up first and has the value that came up last.

Results:

* `Keyed.lookup_set`: what is found under a key after a value has been set.
* `Keyed.setAll_eq_merged`: what several values that are set come to.
-/

namespace DataContract.Keyed

variable {α : Type}

/-- Each key once, at its first place and with its last value. -/
def merged (entries : List (String × α)) : List (String × α) :=
  let latest := entries.reverse
  (latest.map (·.1)).dedup.reverse.filterMap fun key => (latest.lookup key).map (key, ·)

/-- The values that are set one after the other. -/
def setAll (entries : List (String × α)) : List (String × α) :=
  entries.foldl (fun done entry => set entry.1 entry.2 done) []

theorem setAll_concat (entries : List (String × α)) (entry : String × α) :
    setAll (entries ++ [entry]) = set entry.1 entry.2 (setAll entries) := by
  rw [setAll, List.foldl_append]
  rfl

theorem lookup_set (key other : String) (value : α) (entries : List (String × α)) :
    (set key value entries).lookup other =
      if other = key then some value else entries.lookup other := by
  induction entries with
  | nil =>
    by_cases h : other = key
    · simp [set, h]
    · have hne : (other == key) = false := by simpa using h
      simp [set, List.lookup_cons, h, hne]
  | cons entry rest ih =>
    obtain ⟨first, old⟩ := entry
    rw [set]
    by_cases hfirst : first = key
    · subst hfirst
      by_cases h : other = first
      · simp [h]
      · have hne : (other == first) = false := by simpa using h
        simp [List.lookup_cons, h, hne]
    · by_cases h : other = first
      · subst h
        simp [hfirst]
      · have hne : (other == first) = false := by simpa using h
        simp only [if_neg hfirst, List.lookup_cons, hne, ih]

/-- A new key comes last. -/
theorem set_of_not_mem {key : String} {value : α} {entries : List (String × α)}
    (h : key ∉ entries.map (·.1)) : set key value entries = entries ++ [(key, value)] := by
  induction entries with
  | nil => rfl
  | cons entry rest ih =>
    rw [List.map_cons, List.mem_cons, not_or] at h
    rw [set, if_neg (Ne.symm h.1), ih h.2, List.cons_append]

theorem nodup_keys_set {key : String} {value : α} {entries : List (String × α)}
    (h : (entries.map (·.1)).Nodup) : ((set key value entries).map (·.1)).Nodup := by
  rw [keys_set]
  by_cases hkey : key ∈ entries.map (·.1)
  · rw [if_pos hkey, List.append_nil]
    exact h
  · rw [if_neg hkey]
    exact List.nodup_append_comm.mp (List.nodup_cons.mpr ⟨hkey, h⟩)

theorem lookup_setAll (entries : List (String × α)) (key : String) :
    (setAll entries).lookup key = entries.reverse.lookup key := by
  induction entries using List.reverseRecOn with
  | nil => rfl
  | append_singleton entries entry ih =>
    rw [setAll_concat, lookup_set, ih, List.reverse_append, List.reverse_singleton,
      List.singleton_append, List.lookup_cons]
    by_cases h : key = entry.1
    · simp [h]
    · have hne : (key == entry.1) = false := by simpa using h
      simp [h, hne]

theorem keys_setAll (entries : List (String × α)) :
    (setAll entries).map (·.1) = (entries.reverse.map (·.1)).dedup.reverse := by
  induction entries using List.reverseRecOn with
  | nil => rfl
  | append_singleton entries entry ih =>
    rw [setAll_concat, keys_set, ih, List.reverse_append, List.reverse_singleton,
      List.singleton_append, List.map_cons, List.dedup_cons]
    by_cases h : entry.1 ∈ entries.reverse.map (·.1)
    · simp only [List.mem_reverse, List.mem_dedup, if_pos h, List.append_nil]
    · simp only [List.mem_reverse, List.mem_dedup, if_neg h, List.reverse_cons]

/-- Entries with distinct keys are what is looked up under their keys. -/
theorem filterMap_lookup {entries : List (String × α)} (h : (entries.map (·.1)).Nodup) :
    ((entries.map (·.1)).filterMap fun key => (entries.lookup key).map (key, ·)) = entries := by
  induction entries with
  | nil => rfl
  | cons first rest ih =>
    obtain ⟨hfirst, hrest⟩ := List.nodup_cons.mp h
    have hothers : ∀ key ∈ rest.map (·.1),
        ((first :: rest).lookup key).map (key, ·) = (rest.lookup key).map (key, ·) := by
      rintro key hkey
      have hne : (key == first.1) = false := by
        rw [beq_eq_false_iff_ne]
        rintro rfl
        exact hfirst hkey
      rw [List.lookup_cons, hne]
    rw [List.map_cons, List.filterMap_cons, List.filterMap_congr hothers, ih hrest,
      List.lookup_cons, beq_self_eq_true]
    rfl

/-- Of values that are set one after the other, each key stays at its first place and has its last
value. -/
theorem setAll_eq_merged (entries : List (String × α)) : setAll entries = merged entries := by
  have hnodup : ((setAll entries).map (·.1)).Nodup := by
    rw [keys_setAll, List.nodup_reverse]
    exact List.nodup_dedup _
  calc setAll entries
      = ((setAll entries).map (·.1)).filterMap fun key =>
          ((setAll entries).lookup key).map (key, ·) := (filterMap_lookup hnodup).symm
    _ = merged entries := by
      rw [keys_setAll]
      simp only [lookup_setAll]
      rfl

end DataContract.Keyed
