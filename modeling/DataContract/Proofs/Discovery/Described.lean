import DataContract.Model.Contract
import DataContract.Proofs.Discovery.Foundation

/-!
# Discovered types are described

Whether discovery comes to its end or not, a type enters the table only with what the catalog tells
about it.  What the catalog of a document tells about properties has been declared, for the type
itself or for one that it inherits from.

Results:

* `Document.exists_catalog_of_mem_discover`: an entry holds what the catalog tells about a type.
* `Document.overrides_of_catalog`: a name that is given in a description has been declared.
-/

namespace DataContract

/-! ## Entries -/

/-- Only named types are described. -/
theorem Scope.exists_named_of_describe? {scope : Scope} {t : TypeExpr} {d : Description}
    (h : scope.describe? t = some d) :
    ∃ name args, t = .named name args ∧ scope.catalog name args = some d := by
  cases t with
  | void => cases h
  | array element => cases h
  | named name args =>
    rw [Scope.describe?] at h
    split_ifs at h
    exact ⟨name, args, rfl, h⟩

namespace Document

variable {document : Document}

/-- The discovered types of a document are founded on its roots. -/
theorem founded_discover (document : Document) (config : Config) :
    (document.scope config).Founded (document.roots config) (document.discover config).1 :=
  (Scope.Founded.nil.addRoots fun _ hc _ hu => .root hc hu).passes

/-- An entry of a document's table holds what the catalog tells. -/
theorem exists_catalog_of_mem_discover {config : Config} {entry : Entry}
    (h : entry ∈ (document.discover config).1) : ∃ name args,
      (TypeExpr.named name args).render = entry.identity ∧
        document.catalog name args = some entry.description := by
  obtain ⟨earlier, later, hsplit⟩ := List.append_of_mem h
  obtain ⟨t, -, hrender, hdescribe⟩ := (founded_discover document config).justified hsplit
  obtain ⟨name, args, rfl, hcatalog⟩ := Scope.exists_named_of_describe? hdescribe
  exact ⟨name, args, hrender, hcatalog⟩

/-! ## Names that are given -/

/-- A serialized property has been declared with that name of a type to be shown. -/
def Overrides (document : Document) (shown : String) : Prop :=
  ∃ name decl, (name, DeclaredType.object decl) ∈ document.types ∧
    ∃ p ∈ decl.properties, p.jsonIgnore = false ∧ p.typeOverride = some shown

theorem overrides_of_listed? {visited : List String} {t : TypeExpr}
    {properties : List DescribedProperty} (h : document.listed? visited t = some properties) :
    ∀ p ∈ properties, ∀ shown, p.typeOverride = some shown → document.Overrides shown := by
  refine listed?_induction (P := fun _ p => ∀ shown, p.typeOverride = some shown →
    document.Overrides shown) ?_ (fun _ _ _ _ ih => ih) h
  intro t p hp shown hshown
  obtain ⟨decl, args, hobject, hp⟩ := exists_of_mem_ownProperties hp
  obtain ⟨name, -, htype, -⟩ := object?_eq_some hobject
  obtain ⟨own, hmem, rfl⟩ := List.mem_map.mp hp
  obtain ⟨hmem, hserialized⟩ := List.mem_filter.mp hmem
  exact ⟨name, decl, mem_types htype, own, hmem, by simpa using hserialized, hshown⟩

/-- A name that is given in a description has been declared. -/
theorem overrides_of_catalog {name : String} {args : List TypeExpr} {d : Description}
    {p : DescribedProperty} {shown : String} (hd : document.catalog name args = some d)
    (hp : p ∈ d.properties) (hshown : p.typeOverride = some shown) :
    document.Overrides shown := by
  rcases catalog_cases hd with ⟨decl, -, -, rfl⟩ | ⟨decl, properties, -, -, hlisted, rfl⟩
  · cases hp
  · exact overrides_of_listed? hlisted p hp shown hshown

end Document

end DataContract
