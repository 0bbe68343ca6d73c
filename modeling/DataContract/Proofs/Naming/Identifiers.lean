import DataContract.Proofs.Naming.Stability
import DataContract.Proofs.Text.Identifier
import DataContract.Proofs.TypeExpr.Spelling

/-!
# Names that are identifiers

The name of a type with generic arguments begins with the name that is given for the type.  What
follows are the short names of all names in the arguments, with words of letters and underscores
between them, and perhaps a number.  So the name is an identifier if the given one is, unless the
arguments bring in other characters: namespaces, arities and brackets do not show, but letters
beyond ASCII do.

Results:

* `isWord_shortName`: a name of ASCII characters has a short name that can be part of an identifier.
* `Table.isIdentifier_iff`: when the name of a discovered type is an identifier.
* `Table.names_are_identifiers`: generic arguments of ASCII characters leave names legal.
-/

namespace DataContract

open Text

/-! ## Short names -/

/-- Of a name's characters only dots and backticks cannot be part of an identifier, and neither
shows in the short name. -/
theorem isWord_shortName {name : String} (hname : TypeExpr.IsName name) (hascii : IsAscii name) :
    IsWord (shortName name) := by
  intro c hc
  rw [shortName, String.toList_ofList, beforeFirst] at hc
  have hbacktick := List.mem_takeWhile_imp hc
  have hbehind := (List.takeWhile_subset _) hc
  rw [afterLast, List.mem_reverse] at hbehind
  have hdot := List.mem_takeWhile_imp hbehind
  have hmem := List.mem_reverse.mp ((List.takeWhile_subset _) hbehind)
  have hchar := hname.2 c hmem
  rw [TypeExpr.isNameChar, isAlphanumeric_of_ascii (hascii c hmem)] at hchar
  simp only [bne_iff_ne, ne_eq] at hbacktick hdot
  simpa [hbacktick, hdot, isIdentifierChar] using hchar

/-! ## Names in arguments -/

namespace TypeExpr

mutual

/-- The names in an expression, with arguments or without. -/
def names : TypeExpr → List String
  | .void => []
  | .array element => element.names
  | .named name args => name :: allNames args

/-- The names in the expressions of a list. -/
def allNames : List TypeExpr → List String
  | [] => []
  | arg :: args => arg.names ++ allNames args

end

theorem mem_allNames {name : String} {args : List TypeExpr} :
    name ∈ allNames args ↔ ∃ arg ∈ args, name ∈ arg.names := by
  induction args with
  | nil => simp [allNames]
  | cons arg args ih => simp [allNames, ih]

mutual

theorem WellFormed.isName : ∀ t : TypeExpr, t.WellFormed → ∀ name ∈ t.names, IsName name
  | .void, _ => by simp [names]
  | .array element, h => WellFormed.isName element h
  | .named n args, h => by
    rw [names, List.forall_mem_cons]
    exact ⟨h.1, AllWellFormed.isName args h.2.2⟩

theorem AllWellFormed.isName :
    ∀ args : List TypeExpr, AllWellFormed args → ∀ name ∈ allNames args, IsName name
  | [], _ => by simp [allNames]
  | arg :: args, h => by
    rw [allNames, List.forall_mem_append]
    exact ⟨WellFormed.isName arg h.1, AllWellFormed.isName args h.2⟩

end

end TypeExpr

/-! ## Natural names -/

theorem isWord_nameOfArguments {name : String} {args : List String} :
    IsWord (nameOfArguments name args) ↔ IsWord name ∧ ∀ arg ∈ args, IsWord arg := by
  have hof : IsWord "_of_" := by decide +kernel
  have hand : IsWord "_and_" := by decide +kernel
  rw [nameOfArguments, isWord_append, isWord_append, and_iff_left hof, isWord_intercalate hand]

namespace TypeExpr

mutual

/-- The name of an argument holds the short names of all names in it. -/
theorem isWord_nameAsArgument : ∀ t : TypeExpr,
    IsWord t.nameAsArgument ↔ ∀ name ∈ t.names, IsWord (shortName name)
  | .void => by decide +kernel
  | .array element => isWord_nameAsArgument element
  | .named name [] => by simp [nameAsArgument, names, allNames]
  | .named name (arg :: args) => by
    rw [nameAsArgument, ← namesAsArguments, isWord_nameOfArguments, names, List.forall_mem_cons]
    exact and_congr_right fun _ => isWord_namesAsArguments (arg :: args)

theorem isWord_namesAsArguments : ∀ args : List TypeExpr,
    (∀ text ∈ namesAsArguments args, IsWord text) ↔
      ∀ name ∈ allNames args, IsWord (shortName name)
  | [] => by simp [namesAsArguments, allNames]
  | arg :: args => by
    rw [namesAsArguments, allNames, List.forall_mem_cons, List.forall_mem_append,
      isWord_nameAsArgument arg, isWord_namesAsArguments args]

end

end TypeExpr

namespace Description

/-- The name that is given for a type, or else its short name. -/
def givenName (d : Description) : String := d.nameOverride.getD d.shortName

/-- The names that show in the natural name behind the given one.  There are none if a name is given
that takes the place of the computed one. -/
def shownNames (d : Description) : List String :=
  if d.nameOverride = none then TypeExpr.allNames d.genericArgs else []

variable {d : Description}

theorem naturalName_eq_ite : d.naturalName =
    if d.nameOverride = none ∧ d.genericArgs ≠ [] then
      nameOfArguments d.givenName (TypeExpr.namesAsArguments d.genericArgs)
    else d.givenName := by
  unfold naturalName givenName
  split <;> simp_all

theorem naturalName_begins : d.givenName.toList <+: d.naturalName.toList := by
  rw [naturalName_eq_ite]
  split_ifs
  · rw [nameOfArguments, String.append_assoc, String.toList_append]
    exact List.prefix_append _ _
  · exact List.prefix_refl _

end Description

theorem isWord_naturalName {d : Description} : IsWord d.naturalName ↔
    IsWord d.givenName ∧ ∀ name ∈ d.shownNames, IsWord (shortName name) := by
  rw [Description.naturalName_eq_ite, Description.shownNames]
  by_cases hnone : d.nameOverride = none
  · rw [if_pos hnone]
    by_cases hargs : d.genericArgs = []
    · simp [hargs, TypeExpr.allNames]
    · rw [if_pos ⟨hnone, hargs⟩, isWord_nameOfArguments, TypeExpr.isWord_namesAsArguments]
  · simp [hnone]

/-! ## Names of the discovered types -/

theorem rankedName_begins (base : String) (rank : ℕ) :
    base.toList <+: (rankedName base rank).toList := by
  rcases le_or_gt rank 1 with hfirst | hlater
  · rw [rankedName, if_pos hfirst]
  · rw [rankedName_of_lt hlater, String.append_assoc, String.toList_append]
    exact List.prefix_append _ _

theorem isWord_rankedName {base : String} {rank : ℕ} :
    IsWord (rankedName base rank) ↔ IsWord base := by
  have hline : IsWord "_" := by decide +kernel
  rcases le_or_gt rank 1 with hfirst | hlater
  · rw [rankedName, if_pos hfirst]
  · rw [rankedName_of_lt hlater, isWord_append, isWord_append, and_iff_left hline,
      and_iff_left (isWord_repr rank)]

namespace Table

variable {table : Table} {entry : Entry} {name : String}

/-- A type has its natural name, perhaps with a number. -/
theorem exists_rankedName (h : (entry, name) ∈ table.named) :
    ∃ rank, name = rankedName entry.description.naturalName rank := by
  rw [named_eq_giveNames] at h
  obtain ⟨before, after, hsplit⟩ := List.append_of_mem h
  obtain ⟨rank, -, hname⟩ := namedInTurn_giveNames table before entry name after hsplit
  exact ⟨rank, hname⟩

/-- The name of a discovered type is an identifier if the given name is one and the names in its
arguments bring in no other characters. -/
theorem isIdentifier_iff (h : (entry, name) ∈ table.named)
    (hgiven : isIdentifier entry.description.givenName = true) :
    isIdentifier name = true ↔
      ∀ shown ∈ entry.description.shownNames, IsWord (shortName shown) := by
  obtain ⟨rank, rfl⟩ := exists_rankedName h
  have hbegins := Description.naturalName_begins.trans
    (rankedName_begins entry.description.naturalName rank)
  rw [isIdentifier_iff_isWord hgiven hbegins, isWord_rankedName, isWord_naturalName,
    and_iff_right (isWord_of_isIdentifier hgiven)]

/-- A letter beyond ASCII shows in the name. -/
example : isIdentifier (nameOfArguments "Page"
    [(TypeExpr.array (.named "Shop.Größe" [])).nameAsArgument]) = false := by decide +kernel

/-- Names that are parsed show nothing beyond ASCII if they have nothing beyond it. -/
theorem isWord_shortName_of_mem {d : Description} {shown : String}
    (hargs : ∀ arg ∈ d.genericArgs, arg.WellFormed ∧ ∀ name ∈ arg.names, IsAscii name)
    (h : shown ∈ d.shownNames) : IsWord (shortName shown) := by
  rw [Description.shownNames] at h
  split_ifs at h
  · obtain ⟨arg, harg, hshown⟩ := TypeExpr.mem_allNames.mp h
    obtain ⟨hparsed, hascii⟩ := hargs arg harg
    exact isWord_shortName (hparsed.isName arg shown hshown) (hascii shown hshown)
  · cases h

variable (table)

/-- If the names that are given for types, or else their short names, are identifiers, then the name
of a type is one exactly when all short names that show in it are words.  So all discovered types
have identifiers as names if the names in generic arguments are parsed, as by
`TypeExpr.wellFormed_iff_parse`, and of ASCII characters, and then the names of enumerations, of
classes and of superclasses are identifiers. -/
theorem names_are_identifiers
    (hgiven : ∀ entry ∈ table, isIdentifier entry.description.givenName = true) :
    (∀ p ∈ table.named, isIdentifier p.2 = true ↔
      ∀ shown ∈ p.1.description.shownNames, IsWord (shortName shown)) ∧
    ((∀ entry ∈ table, ∀ arg ∈ entry.description.genericArgs,
        arg.WellFormed ∧ ∀ name ∈ arg.names, IsAscii name) →
      (∀ assigned ∈ table.names, isIdentifier assigned.2.name = true) ∧
      (∀ e ∈ table.declarations.enums, isIdentifier e.name = true) ∧
      ∀ c ∈ table.declarations.classes, isIdentifier c.name = true ∧
        ∀ superclass ∈ c.superclass, isIdentifier superclass = true) := by
  have hentry : ∀ p ∈ table.named, p.1 ∈ table := by
    intro p hp
    rw [← table.map_fst_named]
    exact List.mem_map_of_mem hp
  have hexact : ∀ p ∈ table.named, isIdentifier p.2 = true ↔
      ∀ shown ∈ p.1.description.shownNames, IsWord (shortName shown) :=
    fun p hp => isIdentifier_iff hp (hgiven p.1 (hentry p hp))
  refine ⟨hexact, fun hargs => ?_⟩
  have hnamed : ∀ name ∈ table.named.map (·.2), isIdentifier name = true := by
    intro name hname
    obtain ⟨p, hp, rfl⟩ := List.mem_map.mp hname
    exact (hexact p hp).mpr fun _ => isWord_shortName_of_mem (hargs p.1 (hentry p hp))
  have hdeclared : ∀ name ∈ table.declarations.enums.map (·.name) ++
      classNames table.declarations.classes, isIdentifier name = true := fun name hname =>
    hnamed name (table.perm_declaredNames.mem_iff.mp hname)
  rw [List.forall_mem_append] at hdeclared
  refine ⟨fun assigned hmem => ?_, fun e he => ?_, fun c hc => ⟨?_, fun superclass hsuper => ?_⟩⟩
  · rw [names_eq_map_named] at hmem
    obtain ⟨p, hp, rfl⟩ := List.mem_map.mp hmem
    exact hnamed p.2 (List.mem_map_of_mem hp)
  · exact hdeclared.1 e.name (List.mem_map_of_mem he)
  · exact hdeclared.2 c.name (List.mem_map_of_mem hc)
  · exact hdeclared.2 superclass (table.superclass_mem_declarations hc hsuper)

end Table

/-- A page of what an argument refers to. -/
def pageOf (arg : TypeExpr) : Entry where
  identity := (TypeExpr.named "Shop.Page" [arg]).render
  reason := .manual
  description :=
    { identity := (TypeExpr.named "Shop.Page" [arg]).render, shortName := "Page"
      nameOverride := none, genericArgs := [arg]
      kind := .object { properties := [], base := none, interfaces := [], knownInheritors := [] } }

/-- A pair, the name of which has a namespace and an arity, of an array and no value. -/
def pairIn (space : String) : TypeExpr :=
  .named (space ++ ".Pair\x602")
    [.array (.named "System.Collections.Generic.List" [(TypeExpr.named "int" []).nullable]), .void]

/-- Pages of pairs from two namespaces. -/
def pages : Table := [pageOf (pairIn "Shop"), pageOf (pairIn "Store")]

/-- The pages go by one name, and the second one has a number. -/
theorem pages_named : pages.names.map (·.2.name) =
      ["Page_of_Pair_of_List_of_Nullable_of_int_and_void",
        "Page_of_Pair_of_List_of_Nullable_of_int_and_void_2"] ∧
    ∀ assigned ∈ pages.names, isIdentifier assigned.2.name = true := by
  have hgiven : ∀ entry ∈ pages, isIdentifier entry.description.givenName = true := by
    decide +kernel
  have hparsed : ∀ entry ∈ pages, ∀ arg ∈ entry.description.genericArgs,
      TypeExpr.parse arg.render = .ok arg := by decide +kernel
  have hascii : ∀ entry ∈ pages, ∀ arg ∈ entry.description.genericArgs,
      ∀ name ∈ arg.names, IsAscii name := by decide +kernel
  refine ⟨by decide +kernel, ((pages.names_are_identifiers hgiven).2 ?_).1⟩
  exact fun entry hentry arg harg =>
    ⟨.of_parse (hparsed entry hentry arg harg), hascii entry hentry arg harg⟩

end DataContract
