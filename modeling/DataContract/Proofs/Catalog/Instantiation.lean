import DataContract.Proofs.Catalog.BaseChain
import DataContract.Proofs.TypeExpr.Substitution

/-!
# Generic base types

A base type is written with arguments in which the parameters of the declaration stand that names
it.  Going down a chain of base types, what is declared at its far end is instantiated with what is
written in one declaration after the other.  The catalog goes up instead: it fills in the arguments
of each base type before it looks at the declaration, so that every property type is instantiated
once.

Both ways lead to the same types, as long as no name that is left in place has an argument further
down.

Results:

* `Document.Instantiates.exists_atOnce`: the arguments that the catalog fills in.
* `Document.exists_instantiates`: how a base type is written, step by step.
* `substitution_composes`: substitutions in turn and at once, and the properties of base types.
-/

namespace DataContract

namespace Document

variable {document : Document} {start t : TypeExpr} {levels : List Instantiation}

/-- The chain of base types of a type leads to another one.  The levels are the parameters of the
declarations on the way with the arguments that are written for them, the furthest declaration
first. -/
inductive Instantiates (document : Document) (start : TypeExpr) :
    TypeExpr → List Instantiation → Prop where
  | start {decl : DeclaredObject} {args : List TypeExpr} :
      document.object? start = some (decl, args) →
      Instantiates document start start [⟨decl.genericParams, args⟩]
  | base {t : TypeExpr} {levels : List Instantiation} {decl above : DeclaredObject}
      {args filled written : List TypeExpr} {name : String} :
      Instantiates document start t levels → document.object? t = some (decl, args) →
      decl.base = some (.named name written) →
      document.parent? t = some (.named name filled) →
      filled = written.map (TypeExpr.substitute decl.genericParams args) →
      document.object? (.named name filled) = some (above, filled) →
      Instantiates document start (.named name filled) (⟨above.genericParams, written⟩ :: levels)

/-- The arguments that the catalog fills in are those of all levels at once. -/
theorem Instantiates.exists_atOnce (h : document.Instantiates start t levels) :
    ∃ i rest decl, levels = i :: rest ∧ i.params = decl.genericParams ∧
      document.object? t = some (decl, (i.atOnce rest).args) := by
  induction h with
  | start hobject => exact ⟨_, [], _, rfl, rfl, hobject⟩
  | base _ hobject _ _ hfilled habove ih =>
    obtain ⟨i, rest, decl, rfl, hparams, hlevels⟩ := ih
    rw [hobject] at hlevels
    obtain ⟨rfl, rfl⟩ := Prod.mk.inj (Option.some.inj hlevels)
    refine ⟨_, _, _, rfl, rfl, habove.trans ?_⟩
    rw [hfilled, ← hparams, ← Instantiation.params_atOnce rest]
    rfl

/-- Properties of a base type that are instantiated at once are instantiated in turn. -/
theorem Instantiates.map_type_ownProperties (h : document.Instantiates start t levels)
    {decl : DeclaredObject} {args : List TypeExpr} (hobject : document.object? t = some (decl, args))
    (hindependent : ∀ p ∈ decl.properties, Instantiation.Independent levels p.type) :
    (document.ownProperties t).map (·.type) =
      (decl.properties.filter (!·.jsonIgnore)).map fun p => Instantiation.inTurn levels p.type := by
  obtain ⟨i, rest, decl', rfl, hparams, hlevels⟩ := h.exists_atOnce
  rw [hobject] at hlevels
  obtain ⟨rfl, rfl⟩ := Prod.mk.inj (Option.some.inj hlevels)
  rw [ownProperties, hobject]
  dsimp only
  rw [DeclaredObject.ownProperties, List.map_map]
  refine List.map_congr_left fun p hp => ?_
  rw [Instantiation.inTurn_eq_atOnce (hindependent p (List.mem_of_mem_filter hp)),
    Instantiation.apply, Instantiation.params_atOnce, hparams]
  rfl

/-- No type is based on one of its own parameters. -/
def BasesNamed (document : Document) : Prop :=
  ∀ type ∈ document.types, ∀ decl, type.2 = .object decl → ∀ name,
    decl.base = some (.named name []) → name ∉ decl.genericParams

/-- A base type that is no parameter has the name and the arguments that are written, filled in. -/
theorem substitute_eq_named {params : List String} {args filled : List TypeExpr} {base : TypeExpr}
    {name : String} (hplain : ∀ n, base = .named n [] → n ∉ params)
    (h : base.substitute params args = .named name filled) :
    ∃ written, base = .named name written ∧
      filled = written.map (TypeExpr.substitute params args) := by
  cases base with
  | void => simp [TypeExpr.substitute] at h
  | array element => simp [TypeExpr.substitute] at h
  | named n written =>
    cases written with
    | nil =>
      have hnone : TypeExpr.argumentFor? params args n = none := by
        rw [TypeExpr.argumentFor?, List.idxOf?_eq_none_iff.mpr (hplain n rfl), Option.bind_none]
      rw [TypeExpr.substitute_eq_self hnone] at h
      obtain ⟨rfl, rfl⟩ := TypeExpr.named.inj h
      exact ⟨[], rfl, rfl⟩
    | cons own more =>
      rw [TypeExpr.substitute, TypeExpr.substituteAll_eq_map] at h
      obtain ⟨rfl, rfl⟩ := TypeExpr.named.inj h
      exact ⟨own :: more, rfl, rfl⟩

/-- Where no type is based on one of its own parameters, each type up the chain of base types is
written step by step. -/
theorem exists_instantiates (hnamed : document.BasesNamed)
    (hobject : (document.object? start).isSome) (habove : document.Above start t) :
    ∃ levels, document.Instantiates start t levels := by
  induction habove with
  | refl =>
    obtain ⟨⟨decl, args⟩, hobject⟩ := Option.isSome_iff_exists.mp hobject
    exact ⟨_, .start hobject⟩
  | tail _ hparent ih =>
    obtain ⟨levels, hlevels⟩ := ih
    obtain ⟨hbase, hsome⟩ := parent?_eq_some.mp hparent
    obtain ⟨⟨above, filled⟩, habove⟩ := Option.isSome_iff_exists.mp hsome
    obtain ⟨i, rest, decl, -, -, hbelow⟩ := hlevels.exists_atOnce
    obtain ⟨name, rfl, -, -⟩ := object?_eq_some habove
    obtain ⟨own, -, htype, -⟩ := object?_eq_some hbelow
    rw [base?, hbelow] at hbase
    obtain ⟨base, hdeclared, hbase⟩ := Option.map_eq_some_iff.mp hbase
    obtain ⟨written, rfl, hfilled⟩ := substitute_eq_named (fun n hn =>
      hnamed _ (mem_types htype) decl rfl n (hn ▸ hdeclared)) hbase
    exact ⟨_, .base hlevels hbelow hdeclared hparent hfilled habove⟩

end Document

/-! ## In turn and at once -/

open Document TypeExpr in
/-- One substitution after another is the first one with the second applied to its arguments, where
the second replaces no name without arguments that the first leaves in place; it is so exactly
where the second changes none of them.  A chain of substitutions is a single one, then, and so are
the properties of a base type, which the catalog instantiates at once, those that are instantiated
in turn with what each declaration on the way writes. -/
theorem substitution_composes (t : TypeExpr) :
    (∀ (params params' : List String) (args args' : List TypeExpr),
      ((∀ name ∈ t.plainNames, argumentFor? params args name = none →
          argumentFor? params' args' name = none) →
        (t.substitute params args).substitute params' args' =
          t.substitute params (args.map (substitute params' args'))) ∧
      ((t.substitute params args).substitute params' args' =
          t.substitute params (args.map (substitute params' args')) ↔
        ∀ name ∈ t.plainNames, argumentFor? params args name = none →
          (named name []).substitute params' args' = named name [])) ∧
    (∀ i rest, Instantiation.Independent (i :: rest) t →
      Instantiation.inTurn (i :: rest) t = (i.atOnce rest).apply t) ∧
    ∀ (document : Document) (start : TypeExpr),
      (document.BasesNamed → (document.object? start).isSome → document.Above start t →
        ∃ levels, document.Instantiates start t levels) ∧
      ∀ levels decl args, document.Instantiates start t levels →
        document.object? t = some (decl, args) →
        (∀ p ∈ decl.properties, Instantiation.Independent levels p.type) →
        (document.ownProperties t).map (·.type) =
          (decl.properties.filter (!·.jsonIgnore)).map fun p =>
            Instantiation.inTurn levels p.type := by
  refine ⟨fun params params' args args' => ⟨fun hapart => ?_, substitute_substitute_iff t⟩,
    fun i rest => Instantiation.inTurn_eq_atOnce, fun document start =>
      ⟨exists_instantiates, fun levels decl args hlevels => hlevels.map_type_ownProperties⟩⟩
  exact Instantiation.Apart.apply_apply (i := ⟨params, args⟩) (j := ⟨params', args'⟩) hapart

/-- What a folder declares: it is based on a sheet of lists. -/
def folderDecl : DeclaredObject where
  genericParams := ["T"]
  base := some (.named "Sheet" [.named "List" [.named "T" []]])

/-- What a sheet declares. -/
def sheetDecl : DeclaredObject where
  genericParams := ["U"]
  properties := [{ name := "items", type := .array (.named "U" []) },
                 { name := "title", type := .named "string" [] }]

/-- Folders and sheets. -/
def folders : Document where
  types := [("Folder", .object folderDecl), ("Sheet", .object sheetDecl)]

/-- The sheet on which a folder of numbers is based holds arrays of lists of numbers. -/
theorem folders_instantiated :
    let start := TypeExpr.named "Folder" [.named "int" []]
    let sheet := TypeExpr.named "Sheet" [.named "List" [.named "int" []]]
    let levels : List Instantiation :=
      [⟨["U"], [.named "List" [.named "T" []]]⟩, ⟨["T"], [.named "int" []]⟩]
    folders.Instantiates start sheet levels ∧
      (∀ p ∈ sheetDecl.properties, Instantiation.Independent levels p.type) ∧
      (folders.ownProperties sheet).map (·.type) =
        [.array (.named "List" [.named "int" []]), .named "string" []] := by
  intro start sheet levels
  have hstart : folders.object? start = some (folderDecl, [.named "int" []]) := rfl
  have hsheet : folders.object? sheet = some (sheetDecl, [.named "List" [.named "int" []]]) := rfl
  have hlevels : folders.Instantiates start sheet levels :=
    .base (.start hstart) hstart rfl rfl rfl hsheet
  have hindependent : ∀ p ∈ sheetDecl.properties, Instantiation.Independent levels p.type := by
    decide +kernel
  refine ⟨hlevels, hindependent, ?_⟩
  rw [((substitution_composes sheet).2.2 folders start).2 levels sheetDecl _ hlevels hsheet
    hindependent]
  decide +kernel

end DataContract
