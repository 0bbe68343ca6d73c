/-!
# Searching in text

Finding, cutting and replacing pieces of a text, all on its list of characters.

Specification (`SPEC_FULL.md`, part II): sections 4.4 and 4.5, the replacements in scripts and
in routes.

Contents:

* `cut?`: the text on both sides of the first occurrence of a pattern.
* `replaceAll`: every occurrence replaced, from left to right.
* `pieces`: the text between separators.
* `dropCaseless?`: the rest after a beginning that matches up to ASCII case.

Results:

* `cut?_eq_some`: the two sides with the pattern between them are the text.
* `length_lt_of_cut?`: what stands behind the pattern is shorter than the text.
-/

namespace DataContract.Text

/-! ## Occurrences of a pattern -/

/-- The text before and after the first occurrence of the pattern. -/
def cut? (pattern : List Char) : List Char → Option (List Char × List Char)
  | [] => if pattern = [] then some ([], []) else none
  | c :: rest =>
    if pattern.isPrefixOf (c :: rest) then some ([], (c :: rest).drop pattern.length)
    else (cut? pattern rest).map fun (before, after) => (c :: before, after)

theorem cut?_eq_some {pattern text before after : List Char}
    (h : cut? pattern text = some (before, after)) : text = before ++ pattern ++ after := by
  induction text generalizing before with
  | nil =>
    simp only [cut?] at h
    split at h
    · simp_all
    · simp at h
  | cons c rest ih =>
    simp only [cut?] at h
    split at h
    · rename_i hp
      obtain ⟨tail, ht⟩ := List.isPrefixOf_iff_prefix.1 hp
      simp only [Option.some.injEq, Prod.mk.injEq] at h
      obtain ⟨rfl, rfl⟩ := h
      simp [← ht]
    · obtain ⟨⟨b, a⟩, hc, he⟩ := Option.map_eq_some_iff.1 h
      simp only [Prod.mk.injEq] at he
      obtain ⟨rfl, rfl⟩ := he
      simp [ih hc]

/-- What stands behind an occurrence is shorter than the text. -/
theorem length_lt_of_cut? {pattern text before after : List Char} (hpattern : pattern ≠ [])
    (h : cut? pattern text = some (before, after)) : after.length < text.length := by
  have hlength := congrArg List.length (cut?_eq_some h)
  have hpos := List.length_pos_iff.mpr hpattern
  simp only [List.length_append] at hlength
  omega

/-- The pattern occurs in the text. -/
def occurs (pattern text : List Char) : Bool := (cut? pattern text).isSome

/-- Replacement that first drops `skip` characters, the rest of an occurrence just replaced. -/
def replaceFrom (pattern replacement : List Char) : Nat → List Char → List Char
  | _, [] => []
  | skip + 1, _ :: rest => replaceFrom pattern replacement skip rest
  | 0, c :: rest =>
    if pattern.isPrefixOf (c :: rest) then
      replacement ++ replaceFrom pattern replacement (pattern.length - 1) rest
    else c :: replaceFrom pattern replacement 0 rest

/-- Every occurrence of a pattern that is not empty replaced, from left to right and without
looking into what has been put in. -/
def replaceAll (pattern replacement text : List Char) : List Char :=
  replaceFrom pattern replacement 0 text

/-! ## Separators -/

/-- The pieces between the occurrences of a separator, always at least one. -/
def pieces (separator : Char) : List Char → List (List Char)
  | [] => [[]]
  | c :: rest =>
    if c = separator then [] :: pieces separator rest
    else
      match pieces separator rest with
      | [] => [[c]]
      | piece :: more => (c :: piece) :: more

theorem pieces_ne_nil (separator : Char) (text : List Char) : pieces separator text ≠ [] := by
  cases text with
  | nil => simp [pieces]
  | cons c rest =>
    rw [pieces]
    split
    · simp
    · split <;> simp

/-- The part before the first occurrence of a character, all of the text if there is none. -/
def beforeFirst (c : Char) (text : List Char) : List Char := text.takeWhile (· != c)

/-- The part after the last occurrence of a character, all of the text if there is none. -/
def afterLast (c : Char) (text : List Char) : List Char :=
  (text.reverse.takeWhile (· != c)).reverse

/-! ## ASCII case -/

/-- Equality up to the case of ASCII letters. -/
def caselessEq (a b : String) : Bool := a.toList.map Char.toLower == b.toList.map Char.toLower

/-- The rest of a text after a beginning that matches up to the case of ASCII letters. -/
def dropCaseless? : List Char → List Char → Option (List Char)
  | [], text => some text
  | _ :: _, [] => none
  | p :: pattern, c :: text =>
    if p.toLower = c.toLower then dropCaseless? pattern text else none

end DataContract.Text
