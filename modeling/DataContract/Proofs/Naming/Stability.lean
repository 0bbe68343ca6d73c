import DataContract.Proofs.Model.Compiled
import DataContract.Proofs.Naming.References

/-!
# Names that are given in turn

Types and operations get their names one after the other, each one the first name for its base that
is not given yet.  So a name depends on what comes before it only: the names are distinct, and
whatever is added behind leaves them as they are.

Results:

* `uniqueNames_append`: names that are given to more bases begin with those for the first ones.
* `namedInTurn_giveNames`: each name is the first one for its base that is not given before it.
* `Table.perm_declaredNames`: classes and enumerations share the names of the discovered types.
* `names_spec`: the names of the discovered types and of the operations.
-/

namespace DataContract

/-! ## The first free name -/

/-- Which name is the first free one depends only on which names are taken. -/
theorem FirstFree.congr {base : String} {taken others : List String} {rank : ℕ}
    (h : FirstFree base taken rank) (hsame : ∀ name, name ∈ taken ↔ name ∈ others) :
    FirstFree base others rank := by
  obtain ⟨hpos, hfree, hleast⟩ := h
  refine ⟨hpos, fun hmem => hfree ((hsame _).mpr hmem), fun lower hlower hless => ?_⟩
  exact (hsame _).mp (hleast lower hlower hless)

/-- Names that are given to more bases begin with those for the first ones, which are taken for the
rest. -/
theorem uniqueNames_append : ∀ (bases more taken : List String),
    uniqueNames taken (bases ++ more) =
      uniqueNames taken bases ++ uniqueNames ((uniqueNames taken bases).reverse ++ taken) more := by
  intro bases
  induction bases with
  | nil => intro more taken; rfl
  | cons base bases ih =>
    intro more taken
    rw [List.cons_append, uniqueNames, uniqueNames, ih]
    simp only [List.reverse_cons, List.append_assoc, List.cons_append, List.nil_append]

/-! ## Names in turn -/

section Turn

variable {α : Type} {base : α → String}

/-- Each one with the first name for its base that is not given to one before it. -/
def giveNames (base : α → String) (l : List α) : List (α × String) :=
  l.zip (uniqueNames [] (l.map base))

/-- Each name is the first one for its base that no name before it is. -/
def NamedInTurn (base : α → String) (named : List (α × String)) : Prop :=
  ∀ before a name after, named = before ++ (a, name) :: after →
    ∃ rank, FirstFree (base a) (before.map (·.2)) rank ∧ name = rankedName (base a) rank

theorem map_fst_giveNames (l : List α) : (giveNames base l).map (·.1) = l :=
  List.map_fst_zip (by simp)

theorem map_snd_giveNames (l : List α) :
    (giveNames base l).map (·.2) = uniqueNames [] (l.map base) :=
  List.map_snd_zip (by simp)

theorem namedInTurn_giveNames (l : List α) : NamedInTurn base (giveNames base l) := by
  intro before a name after hsplit
  have hnames : uniqueNames [] (l.map base) =
      before.map (·.2) ++ name :: after.map (·.2) := by
    rw [← map_snd_giveNames, hsplit, List.map_append, List.map_cons]
  have hbases : l.map base = before.map (fun p => base p.1) ++ base a ::
      after.map (fun p => base p.1) := by
    rw [← map_fst_giveNames l, hsplit, List.map_map, List.map_append, List.map_cons]
    rfl
  rw [hbases, uniqueNames_append, uniqueNames] at hnames
  obtain ⟨hbefore, hname⟩ := List.append_inj hnames (by simp)
  obtain ⟨rank, hfree, hranked⟩ := uniqueName_spec (base a)
    ((uniqueNames [] (before.map fun p => base p.1)).reverse ++ [])
  refine ⟨rank, hfree.congr fun other => ?_, ?_⟩
  · rw [← hbefore, List.append_nil, List.mem_reverse]
  · rw [← hranked]
    exact (List.cons.inj hname).1.symm

theorem giveNames_nodup (l : List α) : ((giveNames base l).map (·.2)).Nodup := by
  rw [map_snd_giveNames]
  exact (uniqueNames_nodup _ _).1

/-- What is added behind leaves the names as they are. -/
theorem giveNames_prefix (l more : List α) : giveNames base l <+: giveNames base (l ++ more) := by
  refine ⟨more.zip (uniqueNames ((uniqueNames [] (l.map base)).reverse ++ []) (more.map base)), ?_⟩
  rw [giveNames, giveNames, List.map_append, uniqueNames_append, List.zip_append (by simp)]

end Turn

/-- A name that another type would have with a number is given before, so a number is added to
it. -/
example : uniqueNames [] ["Item", "Item", "Item_2", "Item"] =
    ["Item", "Item_2", "Item_2_2", "Item_3"] := by decide +kernel

/-! ## Types -/

namespace Table

variable (table : Table)

theorem named_eq_giveNames :
    table.named = giveNames (fun entry => entry.description.naturalName) table := by
  rw [named, map_name_names]
  rfl

theorem map_name_enums : table.enums.map (·.name) =
    (table.named.filter fun p => p.1.description.isEnum).map (·.2) :=
  table.map_enums fun _ _ _ => rfl

/-- Enumerations and classes together have the names of the discovered types. -/
theorem perm_declaredNames :
    (table.declarations.enums.map (·.name) ++ classNames table.declarations.classes).Perm
      (table.named.map (·.2)) := by
  have hdeclared : (table.declarations.enums.map (·.name) ++
      classNames table.declarations.classes).Perm
        (table.enums.map (·.name) ++ classNames table.classes) := by
    refine ((List.mergeSort_perm table.enums _).map _).append ?_
    rw [← (breakCycles_cut table.classes).classNames_eq]
    exact table.perm_declarations.map _
  refine hdeclared.trans ?_
  rw [map_name_enums, classNames_classes, ← List.map_append]
  exact (List.filter_append_perm _ _).map _

end Table

/-! ## Operations -/

theorem includedOperations_eq_giveNames (config : Config) (operations : List DeclaredOperation) :
    includedOperations config operations = giveNames (operationBaseName config)
      (operations.filter fun op => !config.excludes op.controller) := rfl

/-- The discovered types are named in turn, each with the first free name for its natural one, and
so are the operations that are not left out, apart from the types.  So enumerations and classes have
distinct names, and so have the operations of a model.  What comes behind changes no name. -/
theorem names_spec {document : Document} {config : Config} {contract : Contract}
    (h : document.compile config = .ok contract) (table : Table) :
    (table.named.map (·.1) = table ∧
      NamedInTurn (fun entry => entry.description.naturalName) table.named ∧
      (table.declarations.enums.map (·.name) ++ classNames table.declarations.classes).Perm
        (table.named.map (·.2)) ∧
      (table.declarations.enums.map (·.name) ++ classNames table.declarations.classes).Nodup ∧
      ∀ more : Table, table.named <+: Table.named (table ++ more)) ∧
    let named := includedOperations config document.operations
    named.map (·.1) = document.operations.filter (fun op => !config.excludes op.controller) ∧
      contract.operations.map (·.name) = named.map (·.2) ∧
      NamedInTurn (operationBaseName config) named ∧
      (contract.operations.map (·.name)).Nodup ∧
      ∀ more, named <+: includedOperations config (document.operations ++ more) := by
  have hoperations := (Document.compiled_of_compile h).name_of_operation
  refine ⟨⟨table.map_fst_named, ?_, table.perm_declaredNames, ?_, fun more => ?_⟩,
    map_fst_giveNames _, hoperations, namedInTurn_giveNames _, ?_, fun more => ?_⟩
  · rw [table.named_eq_giveNames]
    exact namedInTurn_giveNames table
  · exact table.perm_declaredNames.nodup_iff.mpr table.named_nodup
  · rw [table.named_eq_giveNames, Table.named_eq_giveNames]
    exact giveNames_prefix table more
  · rw [hoperations]
    exact giveNames_nodup _
  · rw [includedOperations_eq_giveNames, includedOperations_eq_giveNames, List.filter_append]
    exact giveNames_prefix _ _

/-- Two operations of one controller, and one of another controller that has the name which the
second one is given. -/
def shelves : Document where
  operations :=
    [{ controller := "Items", action := some "All" },
      { controller := "Items", action := some "All" },
      { controller := "Items_All", action := some "2" }]

theorem shelves_names : ∃ contract, shelves.compile {} = .ok contract ∧
    contract.operations.map (·.name) = ["Items_All", "Items_All_2", "Items_All_2_2"] ∧
    (contract.operations.map (·.name)).Nodup := by
  obtain ⟨contract, h⟩ : ∃ contract, shelves.compile {} = .ok contract :=
    Document.exists_compile rfl
  refine ⟨contract, h, ?_, ?_⟩
  · rw [(Document.compiled_of_compile h).name_of_operation]
    decide +kernel
  · obtain ⟨-, -, -, -, hdistinct, -⟩ := names_spec h []
    exact hdistinct

end DataContract
