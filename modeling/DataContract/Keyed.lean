/-!
# Keyed values

Values under keys, in the order in which the keys came up.

Specification (`SPEC_FULL.md`, part II): section 10.4, maps ordered by insertion.

Contents:

* `Keyed.set`: the values with a value under a key.

Results:

* `keys_set`: a key that is there keeps its place, a new one comes last.
-/

namespace DataContract.Keyed

variable {α : Type}

/-- The values with a value under a key.  It takes the place of the value that the key has. -/
def set (key : String) (value : α) : List (String × α) → List (String × α)
  | [] => [(key, value)]
  | (other, old) :: rest =>
    if other = key then (other, value) :: rest else (other, old) :: set key value rest

theorem keys_set (key : String) (value : α) (entries : List (String × α)) :
    (set key value entries).map (·.1) =
      entries.map (·.1) ++ if key ∈ entries.map (·.1) then [] else [key] := by
  induction entries with
  | nil => simp [set]
  | cons entry rest ih =>
    obtain ⟨other, old⟩ := entry
    by_cases h : other = key
    · simp [set, h]
    · have h' : ¬ key = other := fun e => h e.symm
      simp only [set, h, if_false, List.map_cons, ih, List.mem_cons, h', false_or,
        List.cons_append]

end DataContract.Keyed
