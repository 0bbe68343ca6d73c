import DataContract.Proofs.Document.WellFormed
import Mathlib.Data.Nat.Notation

/-!
# Descriptions within a limit

A chain of base types has no bound of its own.  With a limit on its length the listing of properties
is a recursion on this limit, which can be evaluated, and the catalog with it.  Without generic
parameters a chain comes to each declared type once at most.

Results:

* `Document.listed?_of_listedWithin`: what is listed within a limit is what is listed.
* `Document.catalog_eq_catalogWithin`: without generic parameters the number of declared types is
  limit enough.
-/

namespace DataContract.Document

/-- Lists properties like `listed?`, for fewer than `limit` base types. -/
def listedWithin (document : Document) :
    ℕ → List String → TypeExpr → Option (List DescribedProperty)
  | 0, _, _ => none
  | limit + 1, visited, t =>
    match document.base? t with
    | none => some (document.ownProperties t)
    | some base =>
      if t.render ∈ visited then some (document.ownProperties t)
      else do
        let inherited ← document.listedWithin limit (t.render :: visited) base
        return addInherited (document.ownProperties t) inherited

/-- Describes types like `catalog`, for chains of at most as many base types as are declared. -/
def catalogWithin (document : Document) : Catalog :=
  document.catalogOf (document.listedWithin (document.types.length + 1) [])

variable {document : Document}

/-- What is listed within a limit is what is listed. -/
theorem listed?_of_listedWithin : ∀ {limit : ℕ} {visited : List String} {t : TypeExpr}
    {properties : List DescribedProperty},
    document.listedWithin limit visited t = some properties →
    document.listed? visited t = some properties := by
  intro limit
  induction limit with
  | zero => intro visited t properties h; cases h
  | succ limit ih =>
    intro visited t properties h
    rw [listedWithin] at h
    rw [listed?]
    cases hbase : document.base? t with
    | none =>
      rw [hbase] at h
      exact h
    | some base =>
      rw [hbase] at h
      by_cases hvisited : t.render ∈ visited
      · simp only [if_pos hvisited] at h ⊢
        exact h
      · simp only [if_neg hvisited] at h ⊢
        obtain ⟨inherited, hinherited, h⟩ := Option.bind_eq_some_iff.mp h
        rw [ih hinherited]
        exact h

section NoParams

variable (hplain : ∀ entry ∈ document.types, ∀ decl, entry.2 = .object decl →
  decl.genericParams = [])

include hplain

/-- Without generic parameters an object type is spelled like its name. -/
theorem render_of_object? {t : TypeExpr} {decl : DeclaredObject} {args : List TypeExpr}
    (h : document.object? t = some (decl, args)) : (t.render, .object decl) ∈ document.types := by
  obtain ⟨name, rfl, htype, hlength⟩ := object?_eq_some h
  rw [hplain _ (mem_types htype) decl rfl] at hlength
  obtain rfl : args = [] := List.eq_nil_of_length_eq_zero hlength.symm
  exact mem_types htype

/-- The types that have not been visited get fewer on the way up. -/
theorem exists_listedWithin : ∀ {limit : ℕ} {visited : List String} (t : TypeExpr),
    (document.types.filter (·.1 ∉ visited)).length < limit →
    ∃ properties, document.listedWithin limit visited t = some properties := by
  intro limit
  induction limit with
  | zero => intro visited t h; cases h
  | succ limit ih =>
    intro visited t h
    rw [listedWithin]
    cases hbase : document.base? t with
    | none => exact ⟨_, rfl⟩
    | some base =>
      by_cases hvisited : t.render ∈ visited
      · simp only [if_pos hvisited]
        exact ⟨_, rfl⟩
      · obtain ⟨decl, args, hobject, -⟩ := exists_of_base? hbase
        have hmem := render_of_object? hplain hobject
        have hfewer : (document.types.filter (·.1 ∉ t.render :: visited)).length <
            (document.types.filter (·.1 ∉ visited)).length := by
          have hsplit : document.types.filter (·.1 ∉ t.render :: visited) =
              (document.types.filter (·.1 ∉ visited)).filter (·.1 ≠ t.render) := by
            rw [List.filter_filter]
            exact List.filter_congr fun entry _ => by simp
          rw [hsplit, List.length_filter_lt_length_iff_exists]
          exact ⟨_, List.mem_filter.mpr ⟨hmem, by simpa using hvisited⟩, by simp⟩
        obtain ⟨inherited, hinherited⟩ := ih base (Nat.lt_of_lt_of_le hfewer (Nat.le_of_lt_succ h))
        simp only [if_neg hvisited, hinherited]
        exact ⟨_, rfl⟩

/-- Without generic parameters the number of declared types is limit enough. -/
theorem catalog_eq_catalogWithin : document.catalog = document.catalogWithin := by
  rw [catalog, catalogWithin]
  congr 1
  funext t
  obtain ⟨properties, h⟩ : ∃ properties,
      document.listedWithin (document.types.length + 1) [] t = some properties :=
    exists_listedWithin hplain t (Nat.lt_succ_of_le (List.length_filter_le _ _))
  rw [h, listed?_of_listedWithin h]

end NoParams

end DataContract.Document
