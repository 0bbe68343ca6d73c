import DataContract.Model.Contract
import DataContract.Proofs.Discovery.Convergence
import DataContract.Proofs.Naming.References
import DataContract.Proofs.ValueType.Resolution

/-!
# Discovery and resolution agree

Discovery and resolution go through type expressions on their own, and meet in the table of names
only.  When discovery has come to its end, nothing that the model exposes is lost between them: what
resolution looks up is what discovery has looked at.

Results:

* `Document.mem_roots`: the roots of a document are the types that its operations and methods
  mention.
* `Document.resolve_spec`: which exposed types resolve to a discovered type, and what any type that
  does refers to.
-/

namespace DataContract

/-! ## Types that a document exposes -/

/-- The operations of a model are those whose controllers are not left out. -/
theorem map_fst_includedOperations (config : Config) (operations : List DeclaredOperation) :
    (includedOperations config operations).map (·.1) =
      operations.filter fun op => !config.excludes op.controller := by
  rw [includedOperations]
  exact List.map_fst_zip (by simp)

namespace Document

open Scope

variable {document : Document} {config : Config} {t : TypeExpr}

/-- The type is one of an operation or a method that is part of the model, or of a listed property
of a discovered type. -/
inductive Exposes (document : Document) (config : Config) (table : Table) : TypeExpr → Prop where
  | param {op : DeclaredOperation} {p : DeclaredParameter} : op ∈ document.operations →
      config.excludes op.controller = false → p ∈ op.params → Exposes document config table p.type
  | response {op : DeclaredOperation} : op ∈ document.operations →
      config.excludes op.controller = false → Exposes document config table op.response
  | methodParam {i : DeclaredInterface} {m : DeclaredMethod} {p : DeclaredMethodParameter} :
      i ∈ document.interfaces → m ∈ i.methods → p ∈ m.params → Exposes document config table p.type
  | returns {i : DeclaredInterface} {m : DeclaredMethod} : i ∈ document.interfaces →
      m ∈ i.methods → Exposes document config table m.returns
  | property {entry : Entry} {p : DescribedProperty} : entry ∈ table →
      p ∈ entry.description.properties → Exposes document config table p.type

theorem exists_included_iff {op : DeclaredOperation} :
    (∃ name, (op, name) ∈ includedOperations config document.operations) ↔
      op ∈ document.operations ∧ config.excludes op.controller = false := by
  have hmem : op ∈ (includedOperations config document.operations).map (·.1) ↔
      op ∈ document.operations.filter fun op => !config.excludes op.controller := by
    rw [map_fst_includedOperations]
  simpa using hmem

theorem mem_operationRoots {operations : List (DeclaredOperation × String)} {reason : Reason} :
    (t, reason) ∈ operationRoots operations ↔ ∃ op name, (op, name) ∈ operations ∧
      (t = op.response ∨ ∃ p ∈ op.params, t = p.type) ∧ reason = .fromOperation name := by
  simp only [operationRoots, List.mem_flatMap, List.mem_map, List.mem_append, List.mem_singleton,
    Prod.exists, Prod.mk.injEq]
  constructor
  · rintro ⟨op, name, hop, type, htype, rfl, rfl⟩
    refine ⟨op, name, hop, ?_, rfl⟩
    rcases htype with ⟨p, hp, rfl⟩ | rfl
    · exact Or.inr ⟨p, hp, rfl⟩
    · exact Or.inl rfl
  · rintro ⟨op, name, hop, rfl | ⟨p, hp, rfl⟩, rfl⟩
    · exact ⟨op, name, hop, _, Or.inr rfl, rfl, rfl⟩
    · exact ⟨op, name, hop, _, Or.inl ⟨p, hp, rfl⟩, rfl, rfl⟩

theorem exists_mem_interfaceRoots {interfaces : List DeclaredInterface} :
    (∃ reason, (t, reason) ∈ interfaceRoots interfaces) ↔ ∃ i ∈ interfaces, ∃ m ∈ i.methods,
      t = m.returns ∨ ∃ p ∈ m.params, t = p.type := by
  simp only [interfaceRoots, methodRoots, List.mem_flatMap, List.mem_map, List.mem_append,
    List.mem_singleton, Prod.mk.injEq]
  constructor
  · rintro ⟨reason, i, hi, m, hm, ⟨p, hp, rfl, -⟩ | ⟨rfl, -⟩⟩
    · exact ⟨i, hi, m, hm, Or.inr ⟨p, hp, rfl⟩⟩
    · exact ⟨i, hi, m, hm, Or.inl rfl⟩
  · rintro ⟨i, hi, m, hm, rfl | ⟨p, hp, rfl⟩⟩
    · exact ⟨_, i, hi, m, hm, Or.inr ⟨rfl, rfl⟩⟩
    · exact ⟨_, i, hi, m, hm, Or.inl ⟨p, hp, rfl, rfl⟩⟩

/-- The roots are the types that operations and methods mention. -/
theorem mem_roots : (∃ reason, (t, reason) ∈ document.roots config) ↔
    (∃ op ∈ document.operations, config.excludes op.controller = false ∧
      (t = op.response ∨ ∃ p ∈ op.params, t = p.type)) ∨
    ∃ i ∈ document.interfaces, ∃ m ∈ i.methods, t = m.returns ∨ ∃ p ∈ m.params, t = p.type := by
  simp only [roots, List.mem_append, exists_or, exists_mem_interfaceRoots]
  refine or_congr ?_ Iff.rfl
  constructor
  · rintro ⟨reason, hroot⟩
    obtain ⟨op, name, hop, htype, -⟩ := mem_operationRoots.mp hroot
    obtain ⟨hmem, hkept⟩ := exists_included_iff.mp ⟨name, hop⟩
    exact ⟨op, hmem, hkept, htype⟩
  · rintro ⟨op, hmem, hkept, htype⟩
    obtain ⟨name, hop⟩ := exists_included_iff.mpr ⟨hmem, hkept⟩
    exact ⟨.fromOperation name, mem_operationRoots.mpr ⟨op, name, hop, htype, rfl⟩⟩

/-- The roots of a well-formed document are well formed. -/
theorem WellFormed.roots (hdoc : document.WellFormed) :
    ∀ c ∈ document.roots config, c.1.WellFormed := by
  rintro ⟨t, reason⟩ hroot
  rcases mem_roots.mp ⟨reason, hroot⟩ with ⟨op, hop, -, rfl | ⟨p, hp, rfl⟩⟩ |
    ⟨i, hi, m, hm, rfl | ⟨p, hp, rfl⟩⟩
  · exact (hdoc.operation op hop).response
  · exact (hdoc.operation op hop).param p hp
  · exact (hdoc.method i hi m hm).returns
  · exact (hdoc.method i hi m hm).param p hp

/-- What is exposed is a root or the type of a property. -/
theorem Exposes.root_or_property {table : Table} (h : Exposes document config table t) :
    (∃ reason, (t, reason) ∈ document.roots config) ∨
      ∃ entry ∈ table, ∃ p ∈ entry.description.properties, t = p.type := by
  cases h with
  | param hop hkept hp => exact Or.inl (mem_roots.mpr (Or.inl ⟨_, hop, hkept, Or.inr ⟨_, hp, rfl⟩⟩))
  | response hop hkept => exact Or.inl (mem_roots.mpr (Or.inl ⟨_, hop, hkept, Or.inl rfl⟩))
  | methodParam hi hm hp =>
    exact Or.inl (mem_roots.mpr (Or.inr ⟨_, hi, _, hm, Or.inr ⟨_, hp, rfl⟩⟩))
  | returns hi hm => exact Or.inl (mem_roots.mpr (Or.inr ⟨_, hi, _, hm, Or.inl rfl⟩))
  | property hentry hp => exact Or.inr ⟨_, hentry, _, hp, rfl⟩

section Levels

variable {table : Table} {n : ℕ}
  (hS : Represents (document.scope config) table
    ((document.scope config).within (document.roots config) n))

include hS

/-- Behind the last level nothing is left of what is exposed. -/
theorem Exposes.mem_within (hlast : (document.scope config).within (document.roots config) (n + 1) =
      (document.scope config).within (document.roots config) n)
    (h : Exposes document config table t) {u : TypeExpr} (hu : u ∈ t.components)
    (hadmits : (document.scope config).Admits u) :
    u ∈ (document.scope config).within (document.roots config) n := by
  rcases h.root_or_property with ⟨reason, hroot⟩ | ⟨entry, hentry, p, hp, rfl⟩
  · exact ⟨0, Nat.zero_le n, .root ⟨(t, reason), hroot, hu⟩ hadmits⟩
  · obtain ⟨s, ⟨m, hm, hreach⟩, -, hdescribe⟩ := hS.sound entry hentry
    have hedge : (document.scope config).HasProperty s u :=
      ⟨entry.description, hdescribe, ⟨p, hp, hu⟩, hadmits⟩
    rw [← hlast]
    exact ⟨m + 1, by omega, hreach.property hedge⟩

theorem Exposes.wellFormed (hdoc : document.WellFormed) (h : Exposes document config table t) :
    t.WellFormed := by
  rcases h.root_or_property with ⟨reason, hroot⟩ | ⟨entry, hentry, p, hp, rfl⟩
  · exact hdoc.roots _ hroot
  · obtain ⟨s, ⟨m, -, hreach⟩, -, hdescribe⟩ := hS.sound entry hentry
    exact (wellFormed_of_describe? hdoc (hreach.wellFormed hdoc hdoc.roots) hdescribe).property p hp

/-- The innermost type of what is exposed has been discovered if it may be. -/
theorem Exposes.holds_innermost_iff (hdoc : document.WellFormed)
    (hlast : (document.scope config).within (document.roots config) (n + 1) =
      (document.scope config).within (document.roots config) n)
    (h : Exposes document config table t) (hform : t.innermost.form = .declared) :
    table.holds t.innermost.render = true ↔ (document.scope config).Admits t.innermost := by
  have hmem : t.innermost ∈ t.components := TypeExpr.innermost_mem_components hform
  have hsub : (document.scope config).within (document.roots config) n ⊆
      {u : TypeExpr | u.WellFormed} := by
    rintro u ⟨m, -, hreach⟩
    exact hreach.wellFormed hdoc hdoc.roots
  have hinj : {u : TypeExpr | u.WellFormed}.InjOn TypeExpr.render :=
    fun u hu v hv hrender => TypeExpr.render_inj hu hv hrender
  rw [hS.holds_render hinj hsub ((h.wellFormed hS hdoc).of_mem_components hmem)]
  constructor
  · rintro ⟨m, -, hreach⟩
    exact hreach.admits
  · exact h.mem_within hS hlast hmem

end Levels

end Document

/-! ## What resolved types refer to -/

/-- There is a single class or enumeration of the name of the type, as its innermost shape says, and
it is made for the type of that identity. -/
def ModelTypes.Refers (types : ModelTypes) (type : ValueType) (identity : String) : Prop :=
  (type.innermost.shape = .object ∧
    ∃ c, (types.classes.filter (·.name == type.name)) = [c] ∧ c.identity = identity) ∨
  (type.innermost.shape = .enum ∧
    ∃ e, (types.enums.filter (·.name == type.name)) = [e] ∧ e.identity = identity)

/-- What resolves to a discovered type refers to the declaration of its innermost type. -/
theorem Table.refers_of_userDefined (table : Table) {t : TypeExpr}
    (h : (table.names.resolve t none).userDefined = true) :
    table.declarations.Refers (table.names.resolve t none) t.innermost.render := by
  obtain ⟨hform, hsome⟩ := (table.names.userDefined_resolve_iff t none).mp h
  obtain ⟨assigned, hlookup⟩ := Option.isSome_iff_exists.mp hsome
  have hbare := table.names.unwrap_of_lookup hform hlookup
  have hname : (table.names.resolve t none).name = assigned.name := by
    rw [NameTable.name_resolve, hbare]
    rfl
  rw [ModelTypes.Refers, NameTable.shape_innermost_resolve, hbare, hname]
  cases hkind : assigned.kind with
  | object => exact Or.inl ⟨rfl, Table.filter_classes_of_lookup hlookup hkind⟩
  | enum => exact Or.inr ⟨rfl, Table.filter_enums_of_lookup hlookup hkind⟩

namespace Document

open Scope

/-- The discovery of the types of a document ends because a pass adds nothing. -/
structure Converges (document : Document) (config : Config) : Prop where
  roots : (document.scope config).Ends (document.roots config) []
  passes : (document.scope config).Converges config.maxPasses
    ((document.scope config).addRoots [] (document.roots config))

/-- If discovery ends because a pass adds nothing, what is exposed and is not built in at its
innermost resolves to a discovered type exactly when it may be discovered, and to any value
otherwise.  However discovery ends, a type that resolves to a discovered type refers to a single
declaration, which is made for its innermost type; a name that is given takes the place of the name
only. -/
theorem resolve_spec (document : Document) (config : Config) :
    let scope := document.scope config
    let names := (document.discover config).1.names
    (document.WellFormed → document.Converges config →
      ∀ t, Exposes document config (document.discover config).1 t → t.innermost.form = .declared →
        ((names.resolve t none).userDefined = true ↔ scope.Admits t.innermost) ∧
        (¬ scope.Admits t.innermost → (names.resolve t none).innermost.SameButOptional .any)) ∧
    ∀ t override, (names.resolve t override).userDefined = true →
      (document.discover config).1.declarations.Refers (names.resolve t none) t.innermost.render ∧
      (names.resolve t override).innermost.shape = (names.resolve t none).innermost.shape ∧
      (names.resolve t override).name = override.getD (names.resolve t none).name := by
  intro scope names
  refine ⟨?_, ?_⟩
  · intro hdoc hconverges t hexposes hform
    have hU : {t | ∃ n, scope.Reaches (document.roots config) n t}.InjOn TypeExpr.render := by
      rintro t ⟨n, ht⟩ u ⟨m, hu⟩ hrender
      exact TypeExpr.render_inj (ht.wellFormed hdoc hdoc.roots) (hu.wellFormed hdoc hdoc.roots)
        hrender
    obtain ⟨hfinal, hlast⟩ := represents_of_converges hU hconverges.roots hconverges.passes
    -- both go by the canonical text, so what is looked up is what discovery holds
    have hholds : names.lookup t.innermost.render = none ↔ ¬ scope.Admits t.innermost := by
      rw [← hexposes.holds_innermost_iff hfinal hdoc hlast hform, ← Table.isSome_lookup_names,
        Option.not_isSome_iff_eq_none]
      rfl
    refine ⟨?_, ?_⟩
    · rw [NameTable.userDefined_resolve_iff, Option.isSome_iff_ne_none, Ne, hholds, not_not]
      exact and_iff_right hform
    · intro hnot
      have hany := names.innermost_unwrap t
      rwa [names.unwrap_of_lookup_eq_none hform (hholds.mpr hnot)] at hany
  · intro t override h
    have hsame : (names.resolve t none).userDefined = true := by
      rw [NameTable.userDefined_resolve] at h ⊢
      exact h
    refine ⟨Table.refers_of_userDefined _ hsame, ?_, ?_⟩
    · rw [NameTable.shape_innermost_resolve, NameTable.shape_innermost_resolve]
    · rw [NameTable.name_resolve, NameTable.name_resolve]
      rfl

/-- Links, each of which names the next ones, and an operation that lists them. -/
def links : Document where
  types :=
    [("Shop.Link", .object
      { properties := [{ name := "Next", type := .named "List" [.named "Shop.Link" []] }] })]
  operations :=
    [{ controller := "Links", action := some "All", response := .named "List"
        [.named "Shop.Link" []] }]

theorem links_wellFormed : links.WellFormed := by
  have hlist : (TypeExpr.named "List" [.named "Shop.Link" []]).WellFormed :=
    ⟨by decide +kernel, by simp, ⟨by decide +kernel, by decide, trivial⟩, trivial⟩
  refine ⟨?_, ?_, by simp [links]⟩
  · intro entry hentry decl hdecl
    obtain rfl := List.mem_singleton.mp hentry
    cases hdecl
    refine ⟨by simp, by simp, by simp, ?_⟩
    simp only [List.mem_singleton, forall_eq]
    exact hlist
  · intro op hop
    obtain rfl := List.mem_singleton.mp hop
    exact ⟨by simp, hlist⟩

theorem links_components : (TypeExpr.named "List" [.named "Shop.Link" []]).components =
    [.named "Shop.Link" []] := by
  have hlist : (TypeExpr.named "List" [.named "Shop.Link" []]).form =
      .sequence (.named "Shop.Link" []) := by decide +kernel
  rw [TypeExpr.components_of_sequence hlist]
  exact TypeExpr.components_of_declared (by decide +kernel)

/-- The entry of that type. -/
def linkEntry : Entry where
  identity := "Shop.Link"
  reason := .fromOperation "Links_All"
  description :=
    { identity := "Shop.Link", shortName := "Link", nameOverride := none, genericArgs := []
      kind := .object
        { properties := [⟨"Next", .named "List" [.named "Shop.Link" []], none, none, none⟩]
          base := none, interfaces := [], knownInheritors := [] } }

theorem links_roots : links.roots {} =
    [(.named "List" [.named "Shop.Link" []], .fromOperation "Links_All")] := by decide +kernel

theorem links_candidates (reason : Reason) :
    (TypeExpr.named "List" [.named "Shop.Link" []]).candidates reason =
      [(.named "Shop.Link" [], reason)] := by
  rw [TypeExpr.candidates, links_components]
  rfl

theorem links_absorb : (links.scope {}).absorb? (TypeExpr.candidates
    (.named "List" [.named "Shop.Link" []]) (.fromOperation "Links_All")) [] =
      some [linkEntry] := by
  have hnew : (links.scope {}).firstNewcomer? []
      [(.named "Shop.Link" [], .fromOperation "Links_All")] = some (linkEntry, []) := by
    rw [scope_eq_scopeWithin (by simp [links])]
    decide +kernel
  rw [links_candidates, absorb?, hnew]
  show absorb? _ [] [linkEntry] = some [linkEntry]
  rw [absorb?]
  rfl

/-- The links that a link names are discovered already. -/
theorem links_absorb_again (reason : Reason) : (links.scope {}).absorb? (TypeExpr.candidates
    (.named "List" [.named "Shop.Link" []]) reason) [linkEntry] = some [linkEntry] := by
  have hold : (links.scope {}).firstNewcomer? [linkEntry] [(.named "Shop.Link" [], reason)] =
      none := rfl
  rw [links_candidates, absorb?, hold]

theorem links_start : (links.scope {}).addRoots [] (links.roots {}) = [linkEntry] := by
  rw [links_roots]
  show ((links.scope {}).absorb? _ []).getD [] = [linkEntry]
  rw [links_absorb]
  rfl

/-- The first pass adds nothing. -/
theorem links_pass : (links.scope {}).pass [linkEntry] = [linkEntry] := by
  show ((links.scope {}).absorb? _ [linkEntry]).getD [linkEntry] = [linkEntry]
  rw [links_absorb_again]
  rfl

theorem links_converges : links.Converges {} := by
  refine ⟨?_, ?_⟩
  · rw [links_roots]
    exact ⟨⟨_, links_absorb⟩, trivial⟩
  · rw [links_start]
    exact ⟨⟨⟨_, links_absorb_again _⟩, trivial⟩, Or.inl (congrArg List.length links_pass)⟩

theorem links_discover : (links.discover {}).1 = [linkEntry] := by
  have hpasses : ∀ limit, ((links.scope {}).passes (limit + 1) [linkEntry]).1 = [linkEntry] := by
    intro limit
    rw [passes, links_pass]
    rfl
  rw [discover, links_start]
  exact hpasses _

/-- A list of links resolves to a discovered type. -/
theorem links_resolve : ((links.discover {}).1.names.resolve
    (.named "List" [.named "Shop.Link" []]) none).userDefined = true := by
  have hinnermost : (TypeExpr.named "List" [.named "Shop.Link" []]).innermost =
      .named "Shop.Link" [] := by
    have hlist : (TypeExpr.named "List" [.named "Shop.Link" []]).form =
        .sequence (.named "Shop.Link" []) := by decide +kernel
    rw [TypeExpr.innermost_of_sequence hlist]
    exact TypeExpr.innermost_eq_self (by decide +kernel)
  refine ((resolve_spec links {}).1 links_wellFormed links_converges _
    (.response (List.mem_singleton.mpr rfl) (by decide +kernel)) ?_).1.mpr ?_
  · rw [hinnermost]
    decide +kernel
  · rw [hinnermost]
    refine Option.isSome_iff_exists.mp ?_
    rw [scope_eq_scopeWithin (by simp [links])]
    decide +kernel

end Document

end DataContract
