import DataContract.Model.Contract
import DataContract.Proofs.Document.WellFormed

/-!
# Compiled models

What the parts of a compiled model are made of.

Results:

* `Document.exists_compile`: a document compiles unless the events of an interface are refused.
* `Document.compiled_of_compile`: the types, operations and interfaces of a model.
* `Document.provenance_of_compile`: the records of a model are those of the discovered types.
* `Document.Compiled.name_of_operation`: the operations of a model have the names that those of the
  document are given.
-/

namespace DataContract.Document

variable {document : Document} {config : Config} {contract : Contract}

/-- The parts of the model of a document. -/
structure Compiled (document : Document) (config : Config) (contract : Contract) : Prop where
  types : contract.types =
    (document.discover config).1.declarations.attachRevivals config.objectRevival
  operations : contract.operations =
    (includedOperations config document.operations).map fun (op, name) =>
      (extractOperation document.catalog config contract.types op name).revived contract.types
        config.objectRevival
  interfaces : contract.interfaces = document.interfaces.map fun i =>
    (extractInterface config contract.types i).revived contract.types config.objectRevival

/-- Only interfaces can keep a document from being compiled. -/
theorem exists_compile (h : checkEvents document.interfaces = .ok ()) :
    ∃ contract, document.compile config = .ok contract := by
  rw [compile, h]
  generalize document.discover config = discovered
  obtain ⟨table, passes⟩ := discovered
  exact ⟨_, rfl⟩

theorem compiled_of_compile (h : document.compile config = .ok contract) :
    document.Compiled config contract := by
  rw [compile] at h
  generalize hdiscover : document.discover config = discovered at h
  obtain ⟨table, passes⟩ := discovered
  obtain ⟨-, -, h⟩ := Decoder.bind_eq_ok h
  cases h
  refine ⟨?_, rfl, rfl⟩
  rw [hdiscover]

theorem provenance_of_compile (h : document.compile config = .ok contract) :
    contract.provenance = (document.discover config).1.provenance := by
  rw [compile] at h
  generalize document.discover config = discovered at h ⊢
  obtain ⟨table, passes⟩ := discovered
  obtain ⟨-, -, h⟩ := Decoder.bind_eq_ok h
  cases h
  rfl

theorem Compiled.name_of_operation (h : document.Compiled config contract) :
    contract.operations.map (·.name) =
      (includedOperations config document.operations).map (·.2) := by
  rw [h.operations, List.map_map]
  rfl

end DataContract.Document
