import DataContract.Catalog.Describe
import DataContract.Document.Decode
import DataContract.Proofs.TypeExpr.Spelling

/-!
# Documents of well-formed type expressions

Every type expression of a service document has been read from a text, so it is well formed.  What
the catalog tells about a type is made of these expressions by filling in arguments, and is well
formed with them.

Results:

* `Document.WellFormed.of_parse`: a document that has been read is well formed.
* `Document.WellFormed.catalog`: what the catalog tells about a well-formed type is well formed.
-/

namespace DataContract

/-! ## Well-formed documents -/

/-- The type expressions of an object's declaration are well formed. -/
structure DeclaredObject.WellFormed (decl : DeclaredObject) : Prop where
  base : ∀ t ∈ decl.base, t.WellFormed
  interface : ∀ t ∈ decl.interfaces, t.WellFormed
  knownInheritor : ∀ t ∈ decl.knownInheritors, t.WellFormed
  property : ∀ p ∈ decl.properties, p.type.WellFormed

/-- The declaration of a type holds well-formed expressions. -/
def DeclaredType.WellFormed (type : DeclaredType) : Prop :=
  ∀ decl, type = .object decl → decl.WellFormed

/-- The type expressions of an operation are well formed. -/
structure DeclaredOperation.WellFormed (op : DeclaredOperation) : Prop where
  param : ∀ p ∈ op.params, p.type.WellFormed
  response : op.response.WellFormed

/-- The type expressions of a method are well formed. -/
structure DeclaredMethod.WellFormed (method : DeclaredMethod) : Prop where
  param : ∀ p ∈ method.params, p.type.WellFormed
  returns : method.returns.WellFormed

/-- The type expressions of a document are well formed. -/
structure Document.WellFormed (document : Document) : Prop where
  type : ∀ entry ∈ document.types, entry.2.WellFormed
  operation : ∀ op ∈ document.operations, op.WellFormed
  method : ∀ i ∈ document.interfaces, ∀ m ∈ i.methods, m.WellFormed

/-! ## What decoders yield -/

namespace Decoder

open Document (Error)

/-- Every value that is decoded has the property. -/
def Yields {α : Type} (read : Decoder α) (P : α → Prop) : Prop :=
  ∀ source value, read source = .ok value → P value

/-- Reading the field keeps the property of the record. -/
def RecordField.Keeps {α : Type} (f : RecordField α) (P : α → Prop) : Prop :=
  ∀ source record next, P record → f.read source record = .ok next → P next

variable {α β : Type} {P : α → Prop} {Q : β → Prop}

theorem bind_eq_ok {ε : Type} {x : Except ε α} {f : α → Except ε β} {b : β}
    (h : (x >>= f) = .ok b) : ∃ a, x = .ok a ∧ f a = .ok b := by
  cases x with
  | error e => cases h
  | ok a => exact ⟨a, rfl, h⟩

theorem map_eq_ok {ε : Type} {x : Except ε α} {f : α → β} {b : β}
    (h : f <$> x = .ok b) : ∃ a, x = .ok a ∧ f a = b := by
  cases x with
  | error e => cases h
  | ok a => exact ⟨a, rfl, Except.ok.inj h⟩

theorem yields_typeExpr : Yields typeExpr TypeExpr.WellFormed := by
  intro source t h
  obtain ⟨spelling, -, hparse⟩ := bind_eq_ok h
  cases hread : TypeExpr.parse spelling with
  | error e => rw [hread] at hparse; cases hparse
  | ok u =>
    rw [hread] at hparse
    cases hparse
    exact .of_parse hread

theorem Yields.optional {read : Decoder α} (h : Yields read P) :
    Yields (optional read) fun found => ∀ value ∈ found, P value := by
  intro source found hfound value hvalue
  unfold Decoder.optional at hfound
  split at hfound
  · cases hfound; cases hvalue
  · obtain ⟨read, hread, rfl⟩ := map_eq_ok hfound
    obtain rfl : read = value := by simpa using hvalue
    exact h _ read hread

theorem yields_items {read : Decoder α} (h : Yields read P) :
    ∀ (source : Source.Items) (values : List α), items read source = .ok values →
      ∀ value ∈ values, P value := by
  intro source
  match source with
  | .close => intro values hvalues value hvalue; cases hvalues; cases hvalue
  | .cut flaw => intro values hvalues; cases hvalues
  | .item first rest =>
    intro values hvalues value hvalue
    obtain ⟨a, ha, hvalues⟩ := bind_eq_ok hvalues
    obtain ⟨others, hothers, hvalues⟩ := bind_eq_ok hvalues
    cases hvalues
    rcases List.mem_cons.mp hvalue with rfl | hvalue
    · exact h first value ha
    · exact yields_items h rest others hothers value hvalue

theorem Yields.list {read : Decoder α} (h : Yields read P) :
    Yields (list read) fun values => ∀ value ∈ values, P value := by
  intro source values hvalues
  unfold Decoder.list at hvalues
  split at hvalues
  · exact yields_items h _ values hvalues
  · cases hvalues

theorem keeps_field {name : String} {read : Decoder β} {put : β → α → α} (h : Yields read Q)
    (hput : ∀ value record, Q value → P record → P (put value record)) :
    (field name read put).Keeps P := by
  intro source record next hrecord hnext
  obtain ⟨value, hvalue, rfl⟩ := map_eq_ok hnext
  exact hput value record (h source value hvalue) hrecord

/-- A field that puts a value where no type expression stands keeps the record well formed. -/
theorem keeps_plain {name : String} {read : Decoder β} {put : β → α → α}
    (hput : ∀ value record, P record → P (put value record)) : (field name read put).Keeps P := by
  intro source record next hrecord hnext
  obtain ⟨value, -, rfl⟩ := map_eq_ok hnext
  exact hput value record hrecord

theorem keeps_required {f : RecordField α} (h : f.Keeps P) : (required f).Keeps P := h

theorem fromMembers_keeps {fields : List (RecordField α)} :
    ∀ (source : Source.Members) (missing : List (RecordField α)) (record next : α),
      (∀ f ∈ missing, f.Keeps P) → P record →
      fromMembers fields missing record source = .ok next → P next := by
  intro source
  match source with
  | .close =>
    intro missing record next _ hrecord hnext
    unfold fromMembers complete at hnext
    split_ifs at hnext
    cases hnext
    exact hrecord
  | .cut flaw => intro missing record next _ _ hnext; cases hnext
  | .noKey fault => intro missing record next _ _ hnext; cases hnext
  | .member key value rest =>
    intro missing record next hmissing hrecord hnext
    obtain ⟨name, -, hnext⟩ := bind_eq_ok hnext
    cases hfind : missing.find? (·.name == name) with
    | some f =>
      rw [hfind] at hnext
      obtain ⟨read, hread, hnext⟩ := bind_eq_ok hnext
      have hf : f ∈ missing := List.mem_of_find?_eq_some hfind
      have hleft : ∀ g ∈ missing.filter (·.name != name), g.Keeps P :=
        fun g hg => hmissing g (List.mem_of_mem_filter hg)
      exact fromMembers_keeps rest _ read next hleft (hmissing f hf _ _ _ hrecord hread) hnext
    | none =>
      rw [hfind] at hnext
      simp only at hnext
      split_ifs at hnext
      split at hnext
      · cases hnext
      · exact fromMembers_keeps rest missing record next hmissing hrecord hnext

theorem fromItems_keeps {surplus : Error} :
    ∀ (source : Source.Items) (fields : List (RecordField α)) (record next : α),
      (∀ f ∈ fields, f.Keeps P) → P record →
      fromItems surplus fields record source = .ok next → P next := by
  intro source
  match source with
  | .close =>
    intro fields record next _ hrecord hnext
    cases fields with
    | nil => cases hnext; exact hrecord
    | cons f fields =>
      unfold fromItems complete at hnext
      split_ifs at hnext
      cases hnext
      exact hrecord
  | .cut flaw => intro fields record next _ _ hnext; cases fields <;> cases hnext
  | .item value rest =>
    intro fields record next hfields hrecord hnext
    cases fields with
    | nil => cases hnext
    | cons f fields =>
      obtain ⟨read, hread, hnext⟩ := bind_eq_ok hnext
      have hread := hfields f (by simp) _ _ _ hrecord hread
      exact fromItems_keeps rest fields read next (fun g hg => hfields g (by simp [hg])) hread hnext

theorem yields_record {fields : List (RecordField α)} {blank : α} {surplus : Error}
    (hfields : ∀ f ∈ fields, f.Keeps P) (hblank : P blank) :
    Yields (record fields blank surplus) P := by
  intro source next h
  unfold record at h
  split at h
  · exact fromMembers_keeps _ fields blank next hfields hblank h
  · exact fromItems_keeps _ fields blank next hfields hblank h
  · cases h

end Decoder

/-! ## Documents that have been read -/

namespace Document

open Decoder

theorem yields_property :
    Yields (record propertyFields {} .shape) fun p : DeclaredProperty => p.type.WellFormed := by
  refine yields_record ?_ True.intro
  intro f hf
  simp only [propertyFields, List.mem_cons, List.not_mem_nil, or_false] at hf
  rcases hf with rfl | rfl | rfl | rfl | rfl | rfl
  · exact keeps_required (keeps_plain fun _ _ h => h)
  · exact keeps_required (keeps_field yields_typeExpr fun _ _ h _ => h)
  all_goals exact keeps_plain fun _ _ h => h

theorem objectFields_keep : ∀ f ∈ objectFields, f.Keeps DeclaredObject.WellFormed := by
  intro f hf
  simp only [objectFields, List.mem_cons, List.not_mem_nil, or_false] at hf
  rcases hf with rfl | rfl | rfl | rfl | rfl | rfl
  · exact keeps_plain fun _ _ h => { h with }
  · exact keeps_plain fun _ _ h => { h with }
  · exact keeps_field yields_typeExpr.optional fun _ _ hbase h => { h with base := hbase }
  · exact keeps_field yields_typeExpr.list fun _ _ hlist h => { h with interface := hlist }
  · exact keeps_field yields_typeExpr.list fun _ _ hlist h => { h with knownInheritor := hlist }
  · exact keeps_field yields_property.list fun _ _ hlist h => { h with property := hlist }

/-- A type declaration has what the fields of its kind keep. -/
theorem yields_declaredType_of {P : DeclaredObject → Prop} {Q : DeclaredEnum → Prop}
    (hobject : ∀ f ∈ objectFields, f.Keeps P) (hP : P {}) (henum : ∀ f ∈ enumFields, f.Keeps Q)
    (hQ : Q {}) : Yields declaredType fun type =>
      (∀ decl, type = .object decl → P decl) ∧ ∀ decl, type = .enum decl → Q decl := by
  intro source type h
  unfold declaredType at h
  split at h
  · obtain ⟨⟨k, others⟩, -, h⟩ := bind_eq_ok h
    cases k with
    | object =>
      obtain ⟨read, hread, rfl⟩ := map_eq_ok h
      have hkept := fromMembers_keeps others objectFields {} _ hobject hP hread
      simpa using hkept
    | enum =>
      obtain ⟨read, hread, rfl⟩ := map_eq_ok h
      have hkept := fromMembers_keeps others enumFields {} _ henum hQ hread
      simpa using hkept
  · cases h
  · cases h
  · obtain ⟨k, -, h⟩ := bind_eq_ok h
    obtain ⟨-, -, h⟩ := bind_eq_ok h
    cases k with
    | object =>
      obtain ⟨read, hread, rfl⟩ := map_eq_ok h
      have hkept := fromItems_keeps _ objectFields {} _ hobject hP hread
      simpa using hkept
    | enum =>
      obtain ⟨read, hread, rfl⟩ := map_eq_ok h
      have hkept := fromItems_keeps _ enumFields {} _ henum hQ hread
      simpa using hkept
  · cases h

theorem yields_declaredType : Yields declaredType DeclaredType.WellFormed := by
  have hblank : ({} : DeclaredObject).WellFormed := ⟨by simp, by simp, by simp, by simp⟩
  have henum : ∀ f ∈ enumFields, f.Keeps fun _ => True := fun _ _ _ _ _ _ _ => trivial
  intro source type h
  exact (yields_declaredType_of objectFields_keep hblank henum trivial source type h).1

theorem mem_set {α : Type} {key : String} {value : α} {entries : List (String × α)}
    {entry : String × α} (h : entry ∈ Keyed.set key value entries) :
    entry ∈ entries ∨ entry.2 = value := by
  induction entries with
  | nil =>
    rw [Keyed.set, List.mem_singleton] at h
    exact Or.inr (by rw [h])
  | cons first rest ih =>
    obtain ⟨other, old⟩ := first
    rw [Keyed.set] at h
    split_ifs at h
    · rcases List.mem_cons.mp h with rfl | h
      · exact Or.inr rfl
      · exact Or.inl (by simp [h])
    · rcases List.mem_cons.mp h with rfl | h
      · exact Or.inl (by simp)
      · rcases ih h with h | h
        · exact Or.inl (by simp [h])
        · exact Or.inr h

/-- What every type declaration has, all those of an object have. -/
theorem declaredTypesOnto_yields {P : DeclaredType → Prop} (hP : Yields declaredType P) :
    ∀ (source : Source.Members) (types found : List (String × DeclaredType)),
      (∀ entry ∈ types, P entry.2) → declaredTypesOnto types source = .ok found →
      ∀ entry ∈ found, P entry.2 := by
  intro source
  match source with
  | .close => intro types found htypes h; cases h; exact htypes
  | .cut flaw => intro types found _ h; cases h
  | .noKey fault => intro types found _ h; cases h
  | .member key value rest =>
    intro types found htypes h
    obtain ⟨name, -, h⟩ := bind_eq_ok h
    obtain ⟨decl, hdecl, h⟩ := bind_eq_ok h
    refine declaredTypesOnto_yields hP rest _ found ?_ h
    intro entry hentry
    rcases mem_set hentry with hold | hnew
    · exact htypes entry hold
    · rw [hnew]
      exact hP value decl hdecl

theorem yields_declaredTypes {P : DeclaredType → Prop} (hP : Yields declaredType P) :
    Yields declaredTypes fun types => ∀ entry ∈ types, P entry.2 := by
  intro source types h
  unfold declaredTypes at h
  split at h
  · exact declaredTypesOnto_yields hP _ [] types (by simp) h
  · cases h

theorem yields_operation :
    Yields (record operationFields {} surplusItem) DeclaredOperation.WellFormed := by
  have hparam : Yields (record paramFields {} surplusItem)
      fun p : DeclaredParameter => p.type.WellFormed := by
    refine yields_record ?_ True.intro
    intro f hf
    simp only [paramFields, List.mem_cons, List.not_mem_nil, or_false] at hf
    rcases hf with rfl | rfl | rfl | rfl | rfl
    · exact keeps_required (keeps_plain fun _ _ h => h)
    · exact keeps_required (keeps_field yields_typeExpr fun _ _ h _ => h)
    · exact keeps_required (keeps_plain fun _ _ h => h)
    all_goals exact keeps_plain fun _ _ h => h
  refine yields_record ?_ ⟨by simp, True.intro⟩
  intro f hf
  simp only [operationFields, List.mem_cons, List.not_mem_nil, or_false] at hf
  rcases hf with rfl | rfl | rfl | rfl | rfl | rfl | rfl | rfl
  · exact keeps_required (keeps_plain fun _ _ h => { h with })
  · exact keeps_plain fun _ _ h => { h with }
  · exact keeps_required (keeps_plain fun _ _ h => { h with })
  · exact keeps_required (keeps_plain fun _ _ h => { h with })
  · exact keeps_plain fun _ _ h => { h with }
  · exact keeps_field hparam.list fun _ _ hlist h => { h with param := hlist }
  · exact keeps_field yields_typeExpr fun _ _ htype h => { h with response := htype }
  · exact keeps_plain fun _ _ h => { h with }

theorem yields_interface : Yields (record interfaceFields {} surplusItem)
    fun i : DeclaredInterface => ∀ m ∈ i.methods, m.WellFormed := by
  have hparam : Yields (record methodParamFields {} surplusItem)
      fun p : DeclaredMethodParameter => p.type.WellFormed := by
    refine yields_record ?_ True.intro
    intro f hf
    simp only [methodParamFields, List.mem_cons, List.not_mem_nil, or_false] at hf
    rcases hf with rfl | rfl
    · exact keeps_required (keeps_plain fun _ _ h => h)
    · exact keeps_required (keeps_field yields_typeExpr fun _ _ h _ => h)
  have hmethod : Yields (record methodFields {} surplusItem) DeclaredMethod.WellFormed := by
    refine yields_record ?_ ⟨by simp, True.intro⟩
    intro f hf
    simp only [methodFields, List.mem_cons, List.not_mem_nil, or_false] at hf
    rcases hf with rfl | rfl | rfl
    · exact keeps_required (keeps_plain fun _ _ h => { h with })
    · exact keeps_field hparam.list fun _ _ hlist h => { h with param := hlist }
    · exact keeps_field yields_typeExpr fun _ _ htype h => { h with returns := htype }
  refine yields_record ?_ (by simp)
  intro f hf
  simp only [interfaceFields, List.mem_cons, List.not_mem_nil, or_false] at hf
  rcases hf with rfl | rfl | rfl
  · exact keeps_required (keeps_plain fun _ _ h => h)
  · exact keeps_plain fun _ _ h => h
  · exact keeps_field hmethod.list fun _ _ hlist _ => hlist

theorem yields_document : Yields decode Document.WellFormed := by
  refine yields_record ?_ ⟨by simp, by simp, by simp⟩
  intro f hf
  simp only [documentFields, List.mem_cons, List.not_mem_nil, or_false] at hf
  rcases hf with rfl | rfl | rfl
  · have htypes := yields_declaredTypes yields_declaredType
    exact keeps_field htypes fun _ _ hlist h => { h with type := hlist }
  · exact keeps_field yields_operation.list fun _ _ hlist h => { h with operation := hlist }
  · exact keeps_field yields_interface.list fun _ _ hlist h => { h with method := hlist }

/-- The type expressions of a document that has been read are well formed. -/
theorem WellFormed.of_parse {spelling : String} {document : Document}
    (h : Document.parse spelling = .ok document) : document.WellFormed := by
  obtain ⟨read, hread, h⟩ := bind_eq_ok h
  split_ifs at h
  cases h
  exact yields_document _ _ hread

end Document

/-! ## Descriptions -/

/-- The types that discovery follows from a description are well formed. -/
structure Description.WellFormed (d : Description) : Prop where
  property : ∀ p ∈ d.properties, p.type.WellFormed
  knownInheritor : ∀ t ∈ d.knownInheritors, t.WellFormed

theorem mem_of_mem_addInherited {p : DescribedProperty} :
    ∀ {inherited own : List DescribedProperty},
      p ∈ addInherited own inherited → p ∈ own ∨ p ∈ inherited := by
  intro inherited
  induction inherited with
  | nil => intro own h; exact Or.inl h
  | cons q inherited ih =>
    intro own h
    rw [addInherited, List.foldl_cons] at h
    rcases ih h with h | h
    · split_ifs at h
      · exact Or.inl h
      · rcases List.mem_append.mp h with h | h
        · exact Or.inl h
        · exact Or.inr (by simp_all)
    · exact Or.inr (by simp [h])

namespace Document

variable {document : Document}

theorem mem_types {name : String} {type : DeclaredType} (h : document.type? name = some type) :
    (name, type) ∈ document.types := by
  obtain ⟨before, after, htypes, -⟩ := List.lookup_eq_some_iff.mp h
  rw [htypes]
  simp

theorem WellFormed.of_type? (h : document.WellFormed) {name : String} {decl : DeclaredObject}
    (hdecl : document.type? name = some (.object decl)) : decl.WellFormed :=
  h.type (name, .object decl) (mem_types hdecl) decl rfl

theorem object?_eq_some {t : TypeExpr} {decl : DeclaredObject} {args : List TypeExpr}
    (h : document.object? t = some (decl, args)) :
    ∃ name, t = .named name args ∧ document.type? name = some (.object decl) ∧
      decl.genericParams.length = args.length := by
  cases t with
  | void => cases h
  | array element => cases h
  | named name own =>
    rw [object?] at h
    split at h
    · rename_i found htype
      split_ifs at h with hlength
      obtain ⟨rfl, rfl⟩ := Prod.mk.inj (Option.some.inj h)
      exact ⟨name, rfl, htype, hlength⟩
    · cases h
    · cases h

/-- What is described is an enumeration without arguments, or an object with as many arguments as
parameters, whose properties are listed. -/
theorem catalog_cases {name : String} {args : List TypeExpr} {d : Description}
    (h : document.catalog name args = some d) :
    (∃ decl, document.type? name = some (.enum decl) ∧ args = [] ∧
      d = { identity := (TypeExpr.named name args).render, shortName := shortName name
            nameOverride := decl.nameOverride, genericArgs := [], kind := .enum decl.members }) ∨
    (∃ decl properties, document.type? name = some (.object decl) ∧
      decl.genericParams.length = args.length ∧
      document.listed? [] (.named name args) = some properties ∧
      d = { identity := (TypeExpr.named name args).render, shortName := shortName name
            nameOverride := decl.nameOverride, genericArgs := args
            kind := .object
              { properties
                base := decl.base.map (TypeExpr.substitute decl.genericParams args)
                interfaces := decl.interfaces.map (TypeExpr.substitute decl.genericParams args)
                knownInheritors :=
                  decl.knownInheritors.map (TypeExpr.substitute decl.genericParams args) } }) := by
  rw [Document.catalog, catalogOf] at h
  simp only at h
  split at h
  · cases h
  · rename_i decl hdecl
    split_ifs at h with hargs
    refine Or.inl ⟨decl, hdecl, List.isEmpty_iff.mp hargs, (Option.some.inj h).symm⟩
  · rename_i decl hdecl
    split_ifs at h with hlength
    obtain ⟨properties, hlisted, rfl⟩ := Option.map_eq_some_iff.mp h
    exact Or.inr ⟨decl, properties, hdecl, hlength, hlisted, rfl⟩

/-- A property of a type's own is declared. -/
theorem exists_of_mem_ownProperties {t : TypeExpr} {p : DescribedProperty}
    (h : p ∈ document.ownProperties t) : ∃ decl args, document.object? t = some (decl, args) ∧
      p ∈ decl.ownProperties args := by
  rw [Document.ownProperties] at h
  split at h
  · rename_i decl args hobject
    exact ⟨decl, args, hobject, h⟩
  · cases h

theorem exists_of_base? {t base : TypeExpr} (h : document.base? t = some base) :
    ∃ decl args, document.object? t = some (decl, args) ∧
      ∃ declared ∈ decl.base, declared.substitute decl.genericParams args = base := by
  rw [base?] at h
  split at h
  · rename_i decl args hobject
    exact ⟨decl, args, hobject, Option.map_eq_some_iff.mp h⟩
  · cases h

/-- A property that is listed is one of the type's own, or is listed for its base type. -/
theorem listed?_induction {P : TypeExpr → DescribedProperty → Prop}
    (hown : ∀ t, ∀ p ∈ document.ownProperties t, P t p)
    (hbase : ∀ t base, document.base? t = some base → ∀ p, P base p → P t p)
    {visited : List String} {t : TypeExpr} {properties : List DescribedProperty}
    (h : document.listed? visited t = some properties) : ∀ p ∈ properties, P t p := by
  refine listed?.partial_correctness document (fun _ t properties => ∀ p ∈ properties, P t p) ?_
    visited t properties h
  intro further ih visited t properties hstep p hp
  split at hstep
  · cases hstep
    exact hown t p hp
  · rename_i base hsome
    split_ifs at hstep with hvisited
    · cases hstep
      exact hown t p hp
    · obtain ⟨inherited, hinherited, hstep⟩ := Option.bind_eq_some_iff.mp hstep
      cases hstep
      rcases mem_of_mem_addInherited hp with hp | hp
      · exact hown t p hp
      · exact hbase t base hsome p (ih _ _ _ hinherited p hp)

/-- The object types that well-formed expressions name have well-formed declarations, and
arguments. -/
theorem WellFormed.of_object? (h : document.WellFormed) {t : TypeExpr} {decl : DeclaredObject}
    {args : List TypeExpr} (hobject : document.object? t = some (decl, args)) (ht : t.WellFormed) :
    decl.WellFormed ∧ ∀ arg ∈ args, arg.WellFormed := by
  obtain ⟨name, rfl, htype, -⟩ := object?_eq_some hobject
  exact ⟨h.of_type? htype, (TypeExpr.wellFormed_named.mp ht).2.2⟩

theorem WellFormed.base? (h : document.WellFormed) {t base : TypeExpr} (ht : t.WellFormed)
    (hbase : document.base? t = some base) : base.WellFormed := by
  obtain ⟨decl, args, hobject, declared, hdeclared, rfl⟩ := exists_of_base? hbase
  obtain ⟨hdecl, hargs⟩ := h.of_object? hobject ht
  exact TypeExpr.WellFormed.substitute hargs declared (hdecl.base declared hdeclared)

/-- The properties that are listed for a well-formed type have well-formed types. -/
theorem WellFormed.listed? (h : document.WellFormed) {visited : List String} {t : TypeExpr}
    {properties : List DescribedProperty} (hlisted : document.listed? visited t = some properties)
    (ht : t.WellFormed) : ∀ p ∈ properties, p.type.WellFormed := by
  intro p hp
  refine listed?_induction (P := fun t p => t.WellFormed → p.type.WellFormed) ?_ ?_ hlisted p hp ht
  · intro t p hp ht
    obtain ⟨decl, args, hobject, hp⟩ := exists_of_mem_ownProperties hp
    obtain ⟨hdecl, hargs⟩ := h.of_object? hobject ht
    obtain ⟨own, hmem, rfl⟩ := List.mem_map.mp hp
    exact TypeExpr.WellFormed.substitute hargs own.type
      (hdecl.property own (List.mem_of_mem_filter hmem))
  · exact fun t base hbase p ih ht => ih (h.base? ht hbase)

/-- What a document's catalog tells about a well-formed type is well formed. -/
theorem WellFormed.catalog (h : document.WellFormed) {name : String} {args : List TypeExpr}
    {d : Description} (ht : (TypeExpr.named name args).WellFormed)
    (hd : document.catalog name args = some d) : d.WellFormed := by
  rcases catalog_cases hd with ⟨decl, -, -, rfl⟩ | ⟨decl, properties, hdecl, -, hlisted, rfl⟩
  · exact ⟨by simp [Description.properties, Description.object?],
      by simp [Description.knownInheritors, Description.object?]⟩
  · have hdecl : decl.WellFormed := h.of_type? hdecl
    refine ⟨h.listed? hlisted ht, ?_⟩
    intro t ht'
    obtain ⟨inheritor, hmem, rfl⟩ := List.mem_map.mp ht'
    exact TypeExpr.WellFormed.substitute (TypeExpr.wellFormed_named.mp ht).2.2 inheritor
      (hdecl.knownInheritor inheritor hmem)

end Document

end DataContract
