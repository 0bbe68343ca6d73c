import DataContract.Proofs.Discovery.Exactness

/-!
# Discovery that comes to its end

Discovery comes to its end when all of its additions end and a pass adds nothing.  Then finitely
many types are reached, and the table holds all of them.

Results:

* `Converges.exists_last`: the last pass starts from a finite level, and the next one is no larger.
* `finiteInheritance_of_last`: known inheritors do not go on without end then.
* `represents_of_converges`: the table holds what is reached, and nothing more is reached.
-/

namespace DataContract

namespace Scope

/-! ## Endings -/

section Endings

variable (scope : Scope)

/-- The additions of the roots to the table, one after the other, all end. -/
def Ends : List Candidate → Table → Prop
  | [], _ => True
  | (type, reason) :: roots, table =>
    (∃ final, scope.absorb? (type.candidates reason) table = some final) ∧
      Ends roots (scope.addRoot table type reason)

/-- One of as many passes as given adds nothing, and it ends, as those before it do. -/
def Converges : ℕ → Table → Prop
  | 0, _ => False
  | limit + 1, table =>
    scope.Ends (table.flatMap propertyRoots) table ∧
      ((scope.pass table).length = table.length ∨ Converges limit (scope.pass table))

end Endings

variable {scope : Scope} {roots : List Candidate} {table : Table} {S U : Set TypeExpr} {n : ℕ}

/-- Additions that end head for a finite set. -/
theorem Ends.finite (hU : U.InjOn TypeExpr.render) : ∀ {roots : List Candidate} {table : Table}
    {S : Set TypeExpr}, scope.Ends roots table → Represents scope table S → scope.spread S = S →
      scope.spread (S ∪ scope.seeds roots) ⊆ U → (scope.spread (S ∪ scope.seeds roots)).Finite := by
  intro roots
  induction roots with
  | nil =>
    intro table S _ hS hclosed hsub
    rw [seeds_nil, Set.union_empty, hclosed] at hsub ⊢
    exact hS.finite (hU.mono hsub)
  | cons c roots ih =>
    intro table S hends hS hclosed hsub
    obtain ⟨⟨final, hfinal⟩, hends⟩ := hends
    have hfirst := (target_subset_spread_union c roots).trans hsub
    have hfinite := absorb?_finite hU hfinal hS (pending_of_closed hclosed _) hfirst
    rw [spread_union_seeds_cons] at hsub ⊢
    exact ih hends (addRoot_represents hU hS hclosed hfirst hfinite) spread_spread hsub

/-- When finitely many types are reached, known inheritors do not go on without end. -/
theorem finiteInheritance_of_last (hfinite : (scope.within roots n).Finite)
    (hlast : scope.within roots (n + 1) = scope.within roots n) :
    scope.FiniteInheritance roots := by
  intro m t hreach
  have ht : t ∈ scope.within roots n := by
    rw [← within_stable hlast m]
    exact ⟨m, Nat.le_add_left m n, hreach⟩
  refine hfinite.subset fun u hu => ?_
  rw [← spread_within]
  exact ⟨t, ht, hu⟩

section Levels

variable (hU : {t | ∃ n, scope.Reaches roots n t}.InjOn TypeExpr.render)

include hU

theorem Ends.finite_within_zero (h : scope.Ends roots []) : (scope.within roots 0).Finite := by
  have hfinite := h.finite (injOn_within hU 0) represents_nil
    (spread_eq_self fun t ht => absurd ht (Set.notMem_empty t))
  rw [Set.empty_union, ← within_zero] at hfinite
  exact hfinite Set.Subset.rfl

/-- A pass that ends goes to a finite level. -/
theorem Ends.finite_within_succ (h : scope.Ends (table.flatMap propertyRoots) table)
    (hS : Represents scope table (scope.within roots n)) :
    (scope.within roots (n + 1)).Finite := by
  have hfinite := h.finite (injOn_within hU (n + 1)) hS spread_within
  rw [seeds_propertyRoots hS (injOn_within hU n) Set.Subset.rfl, ← within_succ] at hfinite
  exact hfinite Set.Subset.rfl

/-- The last pass starts from a finite level, and the next one is no larger. -/
theorem Converges.exists_last : ∀ {limit n : ℕ} {table : Table}, scope.Converges limit table →
    Represents scope table (scope.within roots n) →
    ∃ m ≤ n + limit, (scope.within roots m).Finite ∧
      scope.within roots (m + 1) = scope.within roots m := by
  intro limit
  induction limit with
  | zero => intro n table h; cases h
  | succ limit ih =>
    intro n table h hS
    obtain ⟨hends, h⟩ := h
    have hfinite := hends.finite_within_succ hU hS
    rcases h with hdone | hmore
    · have hlast := (length_pass_eq_iff hU hfinite hS).mp hdone
      exact ⟨n, by omega, hS.finite (injOn_within hU n), hlast⟩
    · obtain ⟨m, hm, hlast⟩ := ih hmore (pass_represents hU hfinite hS)
      exact ⟨m, by omega, hlast⟩

/-- When discovery comes to its end, its table holds what is reached. -/
theorem represents_of_converges {limit : ℕ} (hends : scope.Ends roots [])
    (h : scope.Converges limit (scope.addRoots [] roots)) :
    Represents scope (scope.passes limit (scope.addRoots [] roots)).1 (scope.within roots limit) ∧
      scope.within roots (limit + 1) = scope.within roots limit := by
  have hzero := represents_zero hU (hends.finite_within_zero hU)
  obtain ⟨m, hm, hfinite, hlast⟩ := h.exists_last hU hzero
  have hfinite := finiteInheritance_of_last hfinite hlast
  have hstable : ∀ k, m ≤ k → scope.within roots k = scope.within roots m := by
    intro k hk
    rw [← within_stable hlast (k - m), Nat.add_sub_cancel' hk]
  obtain ⟨hfinal, -⟩ := passes_spec hU hfinite limit 0 _ hzero (by simp)
  rw [Nat.zero_add] at hfinal hm
  exact ⟨hfinal, (hstable (limit + 1) (by omega)).trans (hstable limit hm).symm⟩

end Levels

end Scope

end DataContract
