import Mathlib.Data.List.Nodup

/-!
# What is found under a key

Classes, entries and records are found by a key of theirs, the first one with that key counting.

Results:

* `find?_key`: where no two have the same key, each of them is found under its own.
* `lookup_map`: a table of values by key is that of what they are read off.
* `find?_eq_some_iff_findIdx?`: what is found stands at the first position with that key.
-/

namespace DataContract

variable {α β : Type} {l : List α} {k : α → String}

/-- Where no two have the same key, each of them is found under its own. -/
theorem find?_key (hnodup : (l.map k).Nodup) {a : α} (ha : a ∈ l) :
    l.find? (k · == k a) = some a := by
  cases hfind : l.find? (k · == k a) with
  | none => simpa using List.find?_eq_none.mp hfind a ha
  | some b =>
    have hsame : k b = k a := by simpa using List.find?_some hfind
    rw [List.inj_on_of_nodup_map hnodup (List.mem_of_find?_eq_some hfind) ha hsame]

/-- A table of values by key is looked up by finding what they are read off. -/
theorem lookup_map (v : α → β) (key : String) :
    (l.map fun a => (k a, v a)).lookup key = (l.find? (k · == key)).map v := by
  induction l with
  | nil => rfl
  | cons a l ih =>
    rw [List.map_cons, List.lookup_cons, List.find?_cons, ih]
    by_cases h : k a = key
    · simp [h]
    · rw [beq_false_of_ne h, beq_false_of_ne (Ne.symm h)]

/-- What is found stands at the first position with that property. -/
theorem find?_eq_some_iff_findIdx? {p : α → Bool} {a : α} :
    l.find? p = some a ↔ ∃ i, l.findIdx? p = some i ∧ l[i]? = some a := by
  rw [List.find?_eq_bind_findIdx?_getElem?, Option.bind_eq_some_iff]

end DataContract
