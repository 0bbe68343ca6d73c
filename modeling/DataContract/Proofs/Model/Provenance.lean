import DataContract.Proofs.Discovery.Agreement
import DataContract.Proofs.Discovery.Bounded
import DataContract.Proofs.Discovery.Described
import DataContract.Proofs.Model.Compiled

/-!
# Why types are part of a model

A model records for each discovered type why it is there.  What a record says is so: the operation
or method that it names mentions the type, and the type that it names stands before it and has a
property or known inheritor that mentions it.  Since records only point backwards, following them
ends at an operation or method.

Results:

* `Document.explains_root`: what the reason of a root says of the document and its model.
* `PointsBack.exists_root`: records that only point backwards lead to a root.
* `Document.provenance_spec`: what the records of a model say.
-/

namespace DataContract

/-- The expression wraps a type of that identity. -/
def TypeExpr.Wraps (t : TypeExpr) (identity : String) : Prop :=
  ∃ u ∈ t.components, u.render = identity

/-! ## What reasons say -/

namespace Document

variable {document : Document} {config : Config} {contract : Contract} {earlier : Table}

/-- What the reason says is so: an operation of the model was declared with a type that wraps the
discovered one, or a method was, or an earlier type has a property or a known inheritor that does.
Nothing accounts for a type that has been added by hand. -/
inductive Explains (document : Document) (config : Config) (contract : Contract) (earlier : Table)
    (identity : String) : Reason → Prop where
  | operation {position : ℕ} {op : Operation} {declared : DeclaredOperation} {t : TypeExpr} :
      contract.operations[position]? = some op →
      (document.operations.filter fun op => !config.excludes op.controller)[position]? =
        some declared →
      (t = declared.response ∨ ∃ p ∈ declared.params, t = p.type) → t.Wraps identity →
      Explains document config contract earlier identity (.fromOperation op.name)
  | methodParam {i : DeclaredInterface} {m : DeclaredMethod} {p : DeclaredMethodParameter} :
      i ∈ document.interfaces → m ∈ i.methods → p ∈ m.params → p.type.Wraps identity →
      Explains document config contract earlier identity
        (.fromInterfaceParam (qualifiedName i m) p.name)
  | returns {i : DeclaredInterface} {m : DeclaredMethod} : i ∈ document.interfaces →
      m ∈ i.methods → m.returns.Wraps identity →
      Explains document config contract earlier identity
        (.fromInterfaceReturn (qualifiedName i m))
  | property {owner : Entry} {o : DescribedObject} {p : DescribedProperty} : owner ∈ earlier →
      owner.description.object? = some o → p ∈ o.properties → p.type.Wraps identity →
      Explains document config contract earlier identity (.propertyOf owner.identity p.name)
  | inheritor {owner : Entry} {o : DescribedObject} {i : TypeExpr} : owner ∈ earlier →
      owner.description.object? = some o → i ∈ o.knownInheritors → i.Wraps identity →
      Explains document config contract earlier identity (.knownInheritorOf owner.identity)

/-- The operations of the model are those that are named in the document, one by one. -/
theorem exists_operation (h : document.Compiled config contract) {declared : DeclaredOperation}
    {name : String} (hincluded : (declared, name) ∈ includedOperations config document.operations) :
    ∃ (position : ℕ) (op : Operation), contract.operations[position]? = some op ∧
      op.name = name ∧ (document.operations.filter fun op =>
        !config.excludes op.controller)[position]? = some declared := by
  obtain ⟨position, hposition⟩ := List.mem_iff_getElem?.mp hincluded
  have hname : (contract.operations.map (·.name))[position]? = some name := by
    rw [h.name_of_operation, List.getElem?_map, hposition]
    rfl
  rw [List.getElem?_map] at hname
  obtain ⟨op, hop, hopname⟩ := Option.map_eq_some_iff.mp hname
  refine ⟨position, op, hop, hopname, ?_⟩
  rw [← map_fst_includedOperations, List.getElem?_map, hposition]
  rfl

theorem explains_root (h : document.Compiled config contract) {c : Candidate} {u : TypeExpr}
    (hc : c ∈ document.roots config) (hu : u ∈ c.1.components) :
    document.Explains config contract earlier u.render c.2 := by
  obtain ⟨t, reason⟩ := c
  rcases List.mem_append.mp hc with hc | hc
  · obtain ⟨declared, name, hincluded, htype, rfl⟩ := mem_operationRoots.mp hc
    obtain ⟨position, op, hop, rfl, hdeclared⟩ := exists_operation h hincluded
    exact .operation hop hdeclared htype ⟨u, hu, rfl⟩
  · obtain ⟨i, hi, hc⟩ := List.mem_flatMap.mp hc
    obtain ⟨m, hm, hc⟩ := List.mem_flatMap.mp hc
    rcases List.mem_append.mp hc with hc | hc
    · obtain ⟨p, hp, heq⟩ := List.mem_map.mp hc
      cases heq
      exact .methodParam hi hm hp ⟨u, hu, rfl⟩
    · cases List.mem_singleton.mp hc
      exact .returns hi hm ⟨u, hu, rfl⟩

/-- Each type that discovery finds is explained by what it has found before. -/
theorem explains_of_justified (h : document.Compiled config contract) {c : Candidate}
    (hc : Scope.Justified (document.roots config) earlier c) :
    document.Explains config contract earlier c.1.render c.2 := by
  cases hc with
  | @root c u hc hu =>
    have hroot : document.Explains config contract earlier u.render c.2 := explains_root h hc hu
    exact hroot
  | @property owner p u howner hp hu =>
    rw [Description.properties] at hp
    cases hobject : owner.description.object? with
    | none => rw [hobject] at hp; cases hp
    | some o =>
      rw [hobject] at hp
      exact .property howner hobject hp ⟨u, hu, rfl⟩
  | @inheritor owner i u howner hi hu =>
    rw [Description.knownInheritors] at hi
    cases hobject : owner.description.object? with
    | none => rw [hobject] at hi; cases hi
    | some o =>
      rw [hobject] at hi
      exact .inheritor howner hobject hi ⟨u, hu, rfl⟩

end Document

/-! ## Following owners -/

/-- The type on account of which a type has been found. -/
def Reason.owner? : Reason → Option String
  | .propertyOf owner _ | .knownInheritorOf owner => some owner
  | .fromOperation _ | .fromInterfaceParam _ _ | .fromInterfaceReturn _ | .manual => none

/-- An operation or a method is the reason. -/
def Reason.IsRoot : Reason → Prop
  | .fromOperation _ | .fromInterfaceParam _ _ | .fromInterfaceReturn _ => True
  | .propertyOf _ _ | .knownInheritorOf _ | .manual => False

section Owners

variable {records : List Provenance}

/-- The owner that the record of a type names. -/
def ownerOf? (records : List Provenance) (identity : String) : Option String :=
  (records.find? (·.identity == identity)).bind (·.reason.owner?)

/-- The type that so many steps from owner to owner lead to. -/
def ownerAfter? (records : List Provenance) : ℕ → String → Option String
  | 0, identity => some identity
  | steps + 1, identity => (ownerOf? records identity).bind (ownerAfter? records steps)

/-- Every record names a root or an earlier record. -/
def PointsBack (records : List Provenance) : Prop :=
  ∀ earlier record later, records = earlier ++ record :: later →
    record.reason.IsRoot ∨ ∃ owner ∈ earlier, record.reason.owner? = some owner.identity

theorem PointsBack.ne_manual (h : PointsBack records) {earlier : List Provenance}
    {record : Provenance} {later : List Provenance}
    (hsplit : records = earlier ++ record :: later) : record.reason ≠ .manual := by
  intro hmanual
  have hback := h earlier record later hsplit
  rw [hmanual] at hback
  simp [Reason.IsRoot, Reason.owner?] at hback

theorem ownerOf?_of_mem (hnodup : (records.map (·.identity)).Nodup) {record : Provenance}
    (hmem : record ∈ records) : ownerOf? records record.identity = record.reason.owner? := by
  rw [ownerOf?, find?_key hnodup hmem, Option.bind_some]

/-- From each record the owners lead to a root, in no more steps than there are records before it.
The induction is on where the record stands. -/
theorem PointsBack.exists_root (h : PointsBack records)
    (hnodup : (records.map (·.identity)).Nodup) : ∀ (earlier : List Provenance)
    {record : Provenance} {later : List Provenance}, records = earlier ++ record :: later →
    ∃ steps ≤ earlier.length, ∃ root ∈ records, root.reason.IsRoot ∧
      ownerAfter? records steps record.identity = some root.identity := by
  intro earlier
  induction hlength : earlier.length using Nat.strongRecOn generalizing earlier with
  | ind n ih =>
    intro record later hsplit
    have hmem : record ∈ records := by simp [hsplit]
    rcases h earlier record later hsplit with hroot | ⟨owner, howner, hrecord⟩
    · exact ⟨0, by omega, record, hmem, hroot, rfl⟩
    · -- The owner stands further in front, and is one step away.
      obtain ⟨first, rest, rfl⟩ := List.append_of_mem howner
      have hless : first.length < n := by
        rw [← hlength, List.length_append, List.length_cons]
        omega
      rw [List.append_assoc, List.cons_append] at hsplit
      obtain ⟨steps, hsteps, root, hrootmem, hroot, hreach⟩ := ih _ hless first rfl hsplit
      refine ⟨steps + 1, by omega, root, hrootmem, hroot, ?_⟩
      rw [ownerAfter?, ownerOf?_of_mem hnodup hmem, hrecord, Option.bind_some]
      exact hreach

end Owners

namespace Document

variable {document : Document} {config : Config} {contract : Contract}

/-- What a reason explains is a root or points to an earlier type. -/
theorem Explains.isRoot_or_owner {earlier : Table} {identity : String} {reason : Reason}
    (h : document.Explains config contract earlier identity reason) :
    reason.IsRoot ∨ ∃ owner ∈ earlier, reason.owner? = some owner.identity := by
  cases h with
  | operation => exact Or.inl trivial
  | methodParam => exact Or.inl trivial
  | returns => exact Or.inl trivial
  | property howner => exact Or.inr ⟨_, howner, rfl⟩
  | inheritor howner => exact Or.inr ⟨_, howner, rfl⟩

/-- A discovered type is described by the catalog, and explained by the types before it. -/
theorem explains_of_discover (h : document.compile config = .ok contract) {earlier : Table}
    {entry : Entry} {later : Table}
    (hsplit : (document.discover config).1 = earlier ++ entry :: later) :
    (∃ name args, (TypeExpr.named name args).render = entry.identity ∧
      document.catalog name args = some entry.description) ∧
    document.Explains config contract earlier entry.identity entry.reason := by
  have hmem : entry ∈ (document.discover config).1 := by simp [hsplit]
  refine ⟨exists_catalog_of_mem_discover hmem, ?_⟩
  obtain ⟨t, hjustified, hrender, -⟩ := (founded_discover document config).justified hsplit
  rw [← hrender]
  exact explains_of_justified (compiled_of_compile h) hjustified

/-- The records of a model only point backwards. -/
theorem pointsBack_provenance (h : document.compile config = .ok contract) :
    PointsBack contract.provenance := by
  intro earlier record later hsplit
  rw [provenance_of_compile h, Table.provenance] at hsplit
  obtain ⟨before, rest, htable, rfl, hrest⟩ := List.map_eq_append_iff.mp hsplit
  obtain ⟨entry, after, rfl, rfl, -⟩ := List.map_eq_cons_iff.mp hrest
  rcases (explains_of_discover h htable).2.isRoot_or_owner with hroot | ⟨owner, hmem, howner⟩
  · exact Or.inl hroot
  · exact Or.inr ⟨_, List.mem_map_of_mem hmem, howner⟩

/-- The records of a model are those of its discovered types, each of which stands there once, with
what the catalog tells about it, and is explained by those before it.  None has been added by hand,
and from each one the owners lead to an operation or a method. -/
theorem provenance_spec (h : document.compile config = .ok contract) :
    (contract.provenance = (document.discover config).1.provenance ∧
      (contract.provenance.map (·.identity)).Nodup) ∧
    (∀ earlier entry later, (document.discover config).1 = earlier ++ entry :: later →
      (∃ name args, (TypeExpr.named name args).render = entry.identity ∧
        document.catalog name args = some entry.description) ∧
      document.Explains config contract earlier entry.identity entry.reason) ∧
    ∀ record ∈ contract.provenance, record.reason ≠ .manual ∧
      ∃ steps < contract.provenance.length, ∃ root ∈ contract.provenance, root.reason.IsRoot ∧
        ownerAfter? contract.provenance steps record.identity = some root.identity := by
  have hprovenance := provenance_of_compile h
  have hback := pointsBack_provenance h
  have hnodup : (contract.provenance.map (·.identity)).Nodup := by
    rw [hprovenance, Table.provenance, List.map_map]
    exact (founded_discover document config).nodup
  refine ⟨⟨hprovenance, hnodup⟩, fun earlier entry later => explains_of_discover h, ?_⟩
  intro record hrecord
  obtain ⟨earlier, later, hsplit⟩ := List.append_of_mem hrecord
  refine ⟨hback.ne_manual hsplit, ?_⟩
  obtain ⟨steps, hsteps, hroot⟩ := hback.exists_root hnodup earlier hsplit
  have hlength : contract.provenance.length = earlier.length + (later.length + 1) := by
    rw [hsplit, List.length_append, List.length_cons]
  exact ⟨steps, by omega, hroot⟩

/-- An operation that lists orders.  An order has items, for one of which a gift stands in. -/
def deliveries : Document :=
  { gifts with
    operations :=
      [{ controller := "Orders", action := some "All"
         response := .named "List" [.named "Shop.Order" []] }] }

/-- The gift is there on account of the item, which is there on account of the order. -/
theorem deliveries_provenance : ∃ contract, deliveries.compile {} = .ok contract ∧
    contract.provenance = [⟨"Shop.Order", .fromOperation "Orders_All"⟩,
      ⟨"Shop.Item", .propertyOf "Shop.Order" "Items"⟩,
      ⟨"Shop.Gift", .knownInheritorOf "Shop.Item"⟩] ∧
    ∃ steps, ownerAfter? contract.provenance steps "Shop.Gift" = some "Shop.Order" := by
  obtain ⟨contract, h⟩ : ∃ contract, deliveries.compile {} = .ok contract := exists_compile rfl
  obtain ⟨⟨hprovenance, -⟩, -, hroots⟩ := provenance_spec h
  have hclose : ((deliveries.scope {}).closeWithin 4 (deliveries.roots {})).map
      (fun result => result.1.provenance) = some [⟨"Shop.Order", .fromOperation "Orders_All"⟩,
        ⟨"Shop.Item", .propertyOf "Shop.Order" "Items"⟩,
        ⟨"Shop.Gift", .knownInheritorOf "Shop.Item"⟩] := by
    rw [scope_eq_scopeWithin (by simp [deliveries, gifts])]
    decide +kernel
  obtain ⟨result, hresult, hrecords⟩ := Option.map_eq_some_iff.mp hclose
  rw [discover, Scope.close_of_closeWithin hresult, hrecords] at hprovenance
  refine ⟨contract, h, hprovenance, ?_⟩
  rw [hprovenance] at hroots ⊢
  obtain ⟨-, steps, -, root, hroot, hisroot, hreach⟩ :=
    hroots ⟨"Shop.Gift", .knownInheritorOf "Shop.Item"⟩ (by simp)
  simp only [List.mem_cons, List.not_mem_nil, or_false] at hroot
  rcases hroot with rfl | rfl | rfl
  · exact ⟨steps, hreach⟩
  · cases hisroot
  · cases hisroot

end Document

end DataContract
