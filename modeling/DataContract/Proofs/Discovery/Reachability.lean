import DataContract.Discovery.Table
import DataContract.Proofs.Document.WellFormed
import Mathlib

/-!
# Which types can be discovered

The types that a scope admits are the vertices of a graph with two kinds of edges: to the types
that a known inheritor wraps, and to the types that a property's type wraps.  What costs a pass of
discovery is an edge of the second kind, so the types are sorted by how many of these a path from
a root needs.

Results:

* `within_zero`, `within_succ`: a level is what the level before it and the properties of that
  level spread to along known inheritors.
* `extent_le_iff`: a level at which nothing is added is the last one.
* `finite_within`: a level is finite when known inheritors do not go on without end.
* `Reaches.wellFormed`: what is reached in a well-formed document is well formed.
-/

namespace DataContract.Scope

open Relation (ReflTransGen)

/-! ## The graph of types -/

section Graph

variable (scope : Scope)

/-- What is known of a type that may be discovered, which an ignored one may not. -/
def describe? : TypeExpr → Option Description
  | .named name args =>
    if scope.config.ignores name (TypeExpr.named name args).render then none
    else scope.catalog name args
  | .void | .array _ => none

/-- The type may be discovered: it is described and not ignored. -/
def Admits (t : TypeExpr) : Prop := ∃ d, scope.describe? t = some d

/-- A known inheritor of `t` wraps `u`, which may be discovered. -/
def HasInheritor (t u : TypeExpr) : Prop :=
  ∃ d, scope.describe? t = some d ∧ (∃ i ∈ d.knownInheritors, u ∈ i.components) ∧ scope.Admits u

/-- The type of a property of `t` wraps `u`, which may be discovered. -/
def HasProperty (t u : TypeExpr) : Prop :=
  ∃ d, scope.describe? t = some d ∧ (∃ p ∈ d.properties, u ∈ p.type.components) ∧ scope.Admits u

/-- A path leads from a root to the type and takes that number of property edges. -/
inductive Reaches (roots : List Candidate) : ℕ → TypeExpr → Prop where
  /-- A root wraps the type. -/
  | root {t : TypeExpr} : (∃ c ∈ roots, t ∈ c.1.components) → scope.Admits t → Reaches roots 0 t
  /-- An edge to a known inheritor costs nothing. -/
  | inheritor {n : ℕ} {t u : TypeExpr} : Reaches roots n t → scope.HasInheritor t u →
      Reaches roots n u
  /-- An edge to the type of a property counts. -/
  | property {n : ℕ} {t u : TypeExpr} : Reaches roots n t → scope.HasProperty t u →
      Reaches roots (n + 1) u

/-- The types reached with at most `n` property edges. -/
def within (roots : List Candidate) (n : ℕ) : Set TypeExpr :=
  {t | ∃ m ≤ n, scope.Reaches roots m t}

/-- The numbers of property edges on the shortest paths to the types that are reached at all. -/
def distances (roots : List Candidate) : Set ℕ :=
  {n | ∃ t, IsLeast {m | scope.Reaches roots m t} n}

/-- The greatest distance of a type: none is greater, and it is `⊤` when they are unbounded. -/
noncomputable def extent (roots : List Candidate) : ℕ∞ :=
  ⨆ n ∈ scope.distances roots, (n : ℕ∞)

/-- What known inheritors lead to from a set of types, with these types. -/
def spread (X : Set TypeExpr) : Set TypeExpr :=
  {u | ∃ t ∈ X, ReflTransGen scope.HasInheritor t u}

/-- The types of the properties of a set of types. -/
def successors (X : Set TypeExpr) : Set TypeExpr := {u | ∃ t ∈ X, scope.HasProperty t u}

/-- The types that may be discovered among those that the roots wrap. -/
def seeds (roots : List Candidate) : Set TypeExpr :=
  {t | (∃ c ∈ roots, t ∈ c.1.components) ∧ scope.Admits t}

/-- From no type that is reached do known inheritors go on without end. -/
def FiniteInheritance (roots : List Candidate) : Prop :=
  ∀ n t, scope.Reaches roots n t → {u | ReflTransGen scope.HasInheritor t u}.Finite

end Graph

variable {scope : Scope} {roots : List Candidate} {n : ℕ} {t u : TypeExpr} {X Y : Set TypeExpr}

/-! ## Spreading along known inheritors -/

theorem subset_spread : X ⊆ scope.spread X := fun t ht => ⟨t, ht, .refl⟩

theorem spread_subset (h : X ⊆ scope.spread Y) : scope.spread X ⊆ scope.spread Y := by
  rintro u ⟨t, ht, htu⟩
  obtain ⟨s, hs, hst⟩ := h ht
  exact ⟨s, hs, hst.trans htu⟩

theorem spread_mono (h : X ⊆ Y) : scope.spread X ⊆ scope.spread Y :=
  spread_subset (h.trans subset_spread)

theorem spread_step (ht : t ∈ scope.spread X) (h : scope.HasInheritor t u) :
    u ∈ scope.spread X := by
  obtain ⟨s, hs, hst⟩ := ht
  exact ⟨s, hs, hst.tail h⟩

theorem spread_spread_union : scope.spread (scope.spread X ∪ Y) = scope.spread (X ∪ Y) := by
  refine Set.Subset.antisymm (spread_subset ?_) (spread_mono ?_)
  · exact Set.union_subset (spread_mono Set.subset_union_left)
      (Set.subset_union_right.trans subset_spread)
  · exact Set.union_subset_union_left Y subset_spread

/-- A set that known inheritors do not lead out of spreads to nothing else. -/
theorem spread_eq_self (h : ∀ t ∈ X, ∀ u, scope.HasInheritor t u → u ∈ X) :
    scope.spread X = X := by
  refine Set.Subset.antisymm ?_ subset_spread
  rintro u ⟨t, ht, htu⟩
  induction htu with
  | refl => exact ht
  | tail _ hstep ih => exact h _ ih _ hstep

theorem spread_spread : scope.spread (scope.spread X) = scope.spread X :=
  spread_eq_self fun _ ht _ h => spread_step ht h

theorem seeds_nil : scope.seeds [] = ∅ := by
  ext t
  simp [seeds]

/-! ## Levels -/

theorem within_mono {m : ℕ} (h : m ≤ n) : scope.within roots m ⊆ scope.within roots n :=
  fun _ ⟨k, hk, ht⟩ => ⟨k, hk.trans h, ht⟩

theorem within_step (ht : t ∈ scope.within roots n) (h : scope.HasInheritor t u) :
    u ∈ scope.within roots n := by
  obtain ⟨m, hm, hreach⟩ := ht
  exact ⟨m, hm, hreach.inheritor h⟩

theorem spread_within : scope.spread (scope.within roots n) = scope.within roots n :=
  spread_eq_self fun _ ht _ h => within_step ht h

/-- Without a pass the types are those that the roots wrap, with their known inheritors. -/
theorem within_zero : scope.within roots 0 = scope.spread (scope.seeds roots) := by
  refine Set.Subset.antisymm ?_ ?_
  · rintro t ⟨m, hm, hreach⟩
    induction hreach with
    | root hroot hadmits => exact subset_spread ⟨hroot, hadmits⟩
    | inheritor _ hedge ih => exact spread_step (ih hm) hedge
    | property => omega
  · rw [← spread_within]
    exact spread_mono fun t ht => ⟨0, le_rfl, .root ht.1 ht.2⟩

/-- One more pass adds the types of the properties, with their known inheritors. -/
theorem within_succ : scope.within roots (n + 1) =
    scope.spread (scope.within roots n ∪ scope.successors (scope.within roots n)) := by
  refine Set.Subset.antisymm ?_ ?_
  · rintro t ⟨m, hm, hreach⟩
    induction hreach with
    | root hroot hadmits =>
      exact subset_spread (Or.inl ⟨0, Nat.zero_le n, .root hroot hadmits⟩)
    | inheritor _ hedge ih => exact spread_step (ih hm) hedge
    | @property k s u hs hedge _ =>
      exact subset_spread (Or.inr ⟨s, ⟨k, by omega, hs⟩, hedge⟩)
  · rw [← spread_within (n := n + 1)]
    refine spread_mono (Set.union_subset (within_mono (Nat.le_succ n)) ?_)
    rintro u ⟨t, ⟨m, hm, hreach⟩, hedge⟩
    exact ⟨m + 1, by omega, hreach.property hedge⟩

/-- Once a pass adds nothing, no later one does. -/
theorem within_stable (h : scope.within roots (n + 1) = scope.within roots n) :
    ∀ k, scope.within roots (n + k) = scope.within roots n := by
  intro k
  induction k with
  | zero => rfl
  | succ k ih =>
    calc scope.within roots (n + k + 1)
        = scope.spread (scope.within roots (n + k) ∪
            scope.successors (scope.within roots (n + k))) := within_succ
      _ = scope.within roots (n + 1) := by rw [ih, ← within_succ]
      _ = scope.within roots n := h

theorem exists_distance (h : scope.Reaches roots n t) :
    ∃ m ≤ n, IsLeast {k | scope.Reaches roots k t} m := by
  classical
  have hex : ∃ k, scope.Reaches roots k t := ⟨n, h⟩
  exact ⟨Nat.find hex, Nat.find_min' hex h, Nat.find_spec hex, fun k hk => Nat.find_min' hex hk⟩

/-- A level is the last one exactly when the next pass adds nothing. -/
theorem extent_le_iff :
    scope.extent roots ≤ n ↔ scope.within roots (n + 1) = scope.within roots n := by
  rw [extent, iSup₂_le_iff]
  constructor
  · intro h
    refine Set.Subset.antisymm ?_ (within_mono (Nat.le_succ n))
    rintro t ⟨m, -, hreach⟩
    obtain ⟨k, -, hleast⟩ := exists_distance hreach
    exact ⟨k, by exact_mod_cast h k ⟨t, hleast⟩, hleast.1⟩
  · rintro h k ⟨t, hreach, hleast⟩
    have ht : t ∈ scope.within roots (n + k) := ⟨k, Nat.le_add_left k n, hreach⟩
    rw [within_stable h k] at ht
    obtain ⟨m, hm, hreach⟩ := ht
    exact_mod_cast (hleast hreach).trans hm

/-! ## Finiteness -/

theorem finite_seeds : (scope.seeds roots).Finite := by
  refine (List.finite_toSet (roots.flatMap fun c => c.1.components)).subset ?_
  rintro t ⟨⟨c, hc, ht⟩, -⟩
  exact List.mem_flatMap.mpr ⟨c, hc, ht⟩

theorem finite_successors (h : X.Finite) : (scope.successors X).Finite := by
  have hone : ∀ t, {u | scope.HasProperty t u}.Finite := by
    intro t
    cases hd : scope.describe? t with
    | none => simp [HasProperty, hd]
    | some d =>
      refine (List.finite_toSet (d.properties.flatMap (·.type.components))).subset ?_
      rintro u ⟨d', hd', ⟨p, hp, hu⟩, -⟩
      obtain rfl : d = d' := Option.some.inj (hd.symm.trans hd')
      exact List.mem_flatMap.mpr ⟨p, hp, hu⟩
  refine (h.biUnion fun t _ => hone t).subset ?_
  rintro u ⟨t, ht, hedge⟩
  exact Set.mem_biUnion ht hedge

theorem finite_spread (hX : X.Finite)
    (h : ∀ t ∈ X, {u | ReflTransGen scope.HasInheritor t u}.Finite) : (scope.spread X).Finite := by
  refine (hX.biUnion h).subset ?_
  rintro u ⟨t, ht, htu⟩
  exact Set.mem_biUnion ht htu

/-- A level is finite when known inheritors do not go on without end. -/
theorem finite_within (h : scope.FiniteInheritance roots) : (scope.within roots n).Finite := by
  induction n with
  | zero =>
    rw [within_zero]
    exact finite_spread finite_seeds fun t ht => h 0 t (.root ht.1 ht.2)
  | succ n ih =>
    rw [within_succ]
    refine finite_spread (ih.union (finite_successors ih)) ?_
    rintro t (⟨m, -, ht⟩ | ⟨s, ⟨m, -, hs⟩, hedge⟩)
    · exact h m t ht
    · exact h (m + 1) t (hs.property hedge)

theorem Reaches.admits (h : scope.Reaches roots n t) : scope.Admits t := by
  cases h with
  | root _ hadmits => exact hadmits
  | inheritor _ hedge =>
    obtain ⟨-, -, -, hadmits⟩ := hedge
    exact hadmits
  | property _ hedge =>
    obtain ⟨-, -, -, hadmits⟩ := hedge
    exact hadmits

/-! ## Reaching in a document -/

/-- What is known of a well-formed type in a well-formed document is well formed. -/
theorem wellFormed_of_describe? {document : Document} {config : Config}
    (hdoc : document.WellFormed) {d : Description} (ht : t.WellFormed)
    (hd : (document.scope config).describe? t = some d) : d.WellFormed := by
  cases t with
  | void => cases hd
  | array element => cases hd
  | named name args =>
    rw [describe?] at hd
    split_ifs at hd
    exact hdoc.catalog ht hd

/-- What is reached from well-formed roots in a well-formed document is well formed. -/
theorem Reaches.wellFormed {document : Document} {config : Config}
    (hdoc : document.WellFormed) (hroots : ∀ c ∈ roots, c.1.WellFormed)
    (h : (document.scope config).Reaches roots n t) : t.WellFormed := by
  induction h with
  | root hroot _ =>
    obtain ⟨c, hc, ht⟩ := hroot
    exact (hroots c hc).of_mem_components ht
  | inheritor _ hedge ih =>
    obtain ⟨d, hd, ⟨i, hi, hu⟩, -⟩ := hedge
    exact ((wellFormed_of_describe? hdoc ih hd).knownInheritor i hi).of_mem_components hu
  | property _ hedge ih =>
    obtain ⟨d, hd, ⟨p, hp, hu⟩, -⟩ := hedge
    exact ((wellFormed_of_describe? hdoc ih hd).property p hp).of_mem_components hu

end DataContract.Scope
