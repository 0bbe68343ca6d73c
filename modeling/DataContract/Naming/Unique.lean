/-!
# Unique names

The first of the names `base`, `base_2`, `base_3`, … that is not taken.

Specification (`SPEC_FULL.md`, part II): sections 4.3 and 4.5, `_2`, `_3`, … for names that
collide.

Contents:

* `uniqueName`: the name.
* `uniqueNames`: names for several bases, each one taken by the time of the next one.
-/

namespace DataContract

/-- The name of that rank among the names for a base, counted from 1. -/
def rankedName (base : String) (rank : Nat) : String :=
  if rank ≤ 1 then base else s!"{base}_{rank}"

/-- The first name for a base that is not taken (`make_unique_name`).  Among one name more than
there are taken ones there is a free one. -/
def uniqueName (base : String) (taken : List String) : String :=
  match (List.range' 1 (taken.length + 1)).find? fun rank => rankedName base rank ∉ taken with
  | some rank => rankedName base rank
  | none => base

/-- A name for every base, distinct from the taken ones and from each other. -/
def uniqueNames (taken : List String) : List String → List String
  | [] => []
  | base :: bases =>
    let name := uniqueName base taken
    name :: uniqueNames (name :: taken) bases

end DataContract
