import DataContract.Discovery.Table
import DataContract.Proofs.Catalog.Bounded

/-!
# Discovery within a limit

An addition has no bound of its own.  With a limit on the number of types that it adds it becomes a
recursion on this number, which can be evaluated, and discovery with it.  An addition that ends does
so within some limit.

Results:

* `Scope.absorb?_eq_some_iff`: what an addition leads to is what it leads to within some limit.
* `Scope.close_of_closeWithin`: what discovery leads to within a limit is what it leads to.
* `Document.scope_eq_scopeWithin`: a scope that can be evaluated, without generic parameters.
-/

namespace DataContract

namespace Scope

variable (scope : Scope)

/-- Adds candidates like `absorb?`, fewer than `limit` types in all. -/
def absorbWithin : ℕ → List Candidate → Table → Option Table
  | 0, _, _ => none
  | limit + 1, candidates, table =>
    match scope.firstNewcomer? table candidates with
    | some (entry, rest) => absorbWithin limit (inheritors entry ++ rest) (table ++ [entry])
    | none => some table

/-- Adds the types that several expressions wrap, for each one fewer than `limit`. -/
def addRootsWithin (limit : ℕ) (table : Table) (roots : List Candidate) : Option Table :=
  roots.foldlM (fun table c => scope.absorbWithin limit (c.1.candidates c.2) table) table

/-- Passes like `passes`, in which no addition adds `limit` types. -/
def passesWithin (limit : ℕ) : ℕ → Table → Option (Table × ℕ)
  | 0, table => some (table, 0)
  | most + 1, table => do
    let grown ← scope.addRootsWithin limit table (table.flatMap propertyRoots)
    if grown.length = table.length then return (grown, 1)
    let (final, count) ← passesWithin limit most grown
    return (final, count + 1)

/-- What discovery from these roots ends with, if no addition adds `limit` types. -/
def closeWithin (limit : ℕ) (roots : List Candidate) : Option (Table × ℕ) := do
  scope.passesWithin limit scope.config.maxPasses (← scope.addRootsWithin limit [] roots)

variable {scope}

/-- What an addition leads to is what it leads to within some limit. -/
theorem absorb?_eq_some_iff {candidates : List Candidate} {table final : Table} :
    scope.absorb? candidates table = some final ↔
      ∃ limit, scope.absorbWithin limit candidates table = some final := by
  constructor
  · refine absorb?.partial_correctness scope (fun candidates table final =>
      ∃ limit, scope.absorbWithin limit candidates table = some final) ?_ candidates table final
    intro further ih candidates table final hstep
    cases hfirst : scope.firstNewcomer? table candidates with
    | none =>
      rw [hfirst] at hstep
      exact ⟨1, by rw [absorbWithin, hfirst]; exact hstep⟩
    | some found =>
      rw [hfirst] at hstep
      obtain ⟨limit, hlimit⟩ := ih _ _ _ hstep
      exact ⟨limit + 1, by rw [absorbWithin, hfirst]; exact hlimit⟩
  · rintro ⟨limit, h⟩
    induction limit generalizing candidates table with
    | zero => cases h
    | succ limit ih =>
      rw [absorbWithin] at h
      rw [absorb?]
      cases hfirst : scope.firstNewcomer? table candidates with
      | none =>
        rw [hfirst] at h
        exact h
      | some found =>
        rw [hfirst] at h
        exact ih h

theorem addRoots_of_addRootsWithin {limit : ℕ} {table final : Table} {roots : List Candidate}
    (h : scope.addRootsWithin limit table roots = some final) :
    scope.addRoots table roots = final := by
  induction roots generalizing table with
  | nil => exact Option.some.inj h
  | cons c roots ih =>
    obtain ⟨next, hnext, hrest⟩ := Option.bind_eq_some_iff.mp h
    have hadd : scope.addRoot table c.1 c.2 = next := by
      rw [addRoot, absorb?_eq_some_iff.mpr ⟨limit, hnext⟩, Option.getD_some]
    show scope.addRoots (scope.addRoot table c.1 c.2) roots = final
    rw [hadd]
    exact ih hrest

theorem passes_of_passesWithin {limit : ℕ} : ∀ {most : ℕ} {table : Table} {result : Table × ℕ},
    scope.passesWithin limit most table = some result → scope.passes most table = result := by
  intro most
  induction most with
  | zero => intro table result h; exact Option.some.inj h
  | succ most ih =>
    intro table result h
    rw [passesWithin] at h
    obtain ⟨grown, hgrown, h⟩ := Option.bind_eq_some_iff.mp h
    have hpass : scope.pass table = grown := addRoots_of_addRootsWithin hgrown
    rw [passes, hpass]
    simp only
    by_cases hsame : grown.length = table.length
    · rw [if_pos hsame] at h ⊢
      exact Option.some.inj h
    · rw [if_neg hsame] at h ⊢
      obtain ⟨⟨final, count⟩, hrest, h⟩ := Option.bind_eq_some_iff.mp h
      rw [ih hrest]
      exact Option.some.inj h

/-- What discovery leads to within a limit is what it leads to. -/
theorem close_of_closeWithin {limit : ℕ} {roots : List Candidate} {result : Table × ℕ}
    (h : scope.closeWithin limit roots = some result) :
    scope.close (scope.addRoots [] roots) = result := by
  obtain ⟨start, hstart, hpasses⟩ := Option.bind_eq_some_iff.mp h
  rw [addRoots_of_addRootsWithin hstart]
  exact passes_of_passesWithin hpasses

end Scope

/-- What is discovered of a document's types, in descriptions within a limit. -/
def Document.scopeWithin (document : Document) (config : Config) : Scope :=
  { catalog := document.catalogWithin, config }

/-- Without generic parameters the two scopes are the same. -/
theorem Document.scope_eq_scopeWithin {document : Document} (hplain : ∀ entry ∈ document.types,
    ∀ decl, entry.2 = .object decl → decl.genericParams = []) (config : Config) :
    document.scope config = document.scopeWithin config := by
  rw [scope, scopeWithin, catalog_eq_catalogWithin hplain]

end DataContract
