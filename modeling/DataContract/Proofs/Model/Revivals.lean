import DataContract.Proofs.Discovery.Agreement
import DataContract.Proofs.Discovery.Described
import DataContract.Proofs.Model.Compiled
import DataContract.Proofs.Naming.Retention
import DataContract.Proofs.Revival.Interpretation
import DataContract.Proofs.Revival.Scoping

/-!
# The revivals of a model

Every revival that is attached in a model is given one value under one name.  It takes values from
there only, and its maps take them from their own parameters only.  So nothing is missing when it is
evaluated, and what can go wrong is a value of another kind, or a class that a declaration names but
that does not exist.

Results:

* `Contract.Attaches`: the revivals of a model, each with the name of the value that it is given.
* `Document.Compiled.exists_of_attaches`: which types they are synthesized for.
* `Document.overrides_of_needs`: an unknown class is one that a declaration names.
* `Document.compile_scoped`: the names in revivals and the failures of their evaluation.
-/

namespace DataContract

open Revival (TakenFrom)

theorem Catalog.exists_of_describe? {catalog : Catalog} {t : TypeExpr} {d : Description}
    (h : catalog.describe? t = some d) : ∃ name args, catalog name args = some d := by
  cases t with
  | named name args => exact ⟨name, args, h⟩
  | _ => cases h

/-- A revival of the model, given a value under that name. -/
inductive Contract.Attaches (contract : Contract) : String → Revival → Prop where
  /-- The properties of a class are revived with the whole object. -/
  | property {c : ModelClass} {p : ModelProperty} {revival : Revival} :
      c ∈ contract.types.classes → p ∈ c.properties → p.revival = some revival →
      Attaches contract "data" revival
  | param {op : Operation} {p : Parameter} {revival : Revival} : op ∈ contract.operations →
      p ∈ op.uriParams ++ op.bodyParams ++ op.wrapper.toList → p.revival = some revival →
      Attaches contract p.name revival
  | response {op : Operation} {revival : Revival} : op ∈ contract.operations →
      op.responseRevival = some revival → Attaches contract "response" revival
  | methodParam {i : Interface} {m : Method} {p : MethodParameter} {revival : Revival} :
      i ∈ contract.interfaces → m ∈ i.methods → p ∈ m.params → p.revival = some revival →
      Attaches contract p.name revival
  | result {i : Interface} {m : Method} {revival : Revival} : i ∈ contract.interfaces →
      m ∈ i.methods → m.returnRevival = some revival → Attaches contract "result" revival

namespace Document

variable {document : Document} {config : Config} {contract : Contract}

/-! ## Types that the model shows -/

/-- The type is what an expression resolves to, under another name only if that has been
declared. -/
def Shows (document : Document) (names : NameTable) (type : ValueType) : Prop :=
  ∃ t override, type = names.resolve t override ∧
    ∀ shown, override = some shown → document.Overrides shown

theorem shows_resolve (names : NameTable) (t : TypeExpr) :
    document.Shows names (names.resolve t none) :=
  ⟨t, none, rfl, nofun⟩

theorem shows_described {names : NameTable} {name : String} {args : List TypeExpr} {d : Description}
    {p : DescribedProperty} (hd : document.catalog name args = some d) (hp : p ∈ d.properties) :
    document.Shows names (names.resolve p.type p.typeOverride) :=
  ⟨p.type, p.typeOverride, rfl, fun _ hshown => overrides_of_catalog hd hp hshown⟩

end Document

/-- A class declares properties that are described. -/
theorem Table.exists_of_mem_declaredProperties {names : NameTable} {inherited : String → Bool}
    {p : ModelProperty} : ∀ {properties : List DescribedProperty} {taken : List String},
      p ∈ declaredProperties names inherited taken properties →
      ∃ q ∈ properties, p.type = names.resolve q.type q.typeOverride := by
  intro properties
  induction properties with
  | nil => intro taken h; cases h
  | cons q properties ih =>
    intro taken h
    rw [declaredProperties] at h
    split_ifs at h
    · obtain ⟨other, hother, htype⟩ := ih h
      exact ⟨other, List.mem_cons_of_mem q hother, htype⟩
    · rcases List.mem_cons.mp h with rfl | h
      · exact ⟨q, List.mem_cons_self .., rfl⟩
      · obtain ⟨other, hother, htype⟩ := ih h
        exact ⟨other, List.mem_cons_of_mem q hother, htype⟩

namespace Document

variable {document : Document} {config : Config} {contract : Contract}

/-- The types of the properties that classes declare. -/
theorem shows_property {c : ModelClass} {p : ModelProperty}
    (hc : c ∈ (document.discover config).1.declarations.classes) (hp : p ∈ c.properties) :
    document.Shows (document.discover config).1.names p.type := by
  obtain ⟨d, hd, hcut⟩ := (document.discover config).1.exists_class_of_declared hc
  obtain ⟨entry, name, o, hnamed, hobject, rfl⟩ := (document.discover config).1.mem_classes.mp hd
  rw [hcut.properties] at hp
  obtain ⟨q, hq, htype⟩ := Table.exists_of_mem_declaredProperties hp
  have hentry : entry ∈ (document.discover config).1 := by
    rw [← Table.map_fst_named (document.discover config).1]
    exact List.mem_map.mpr ⟨(entry, name), hnamed, rfl⟩
  obtain ⟨typeName, args, -, hcatalog⟩ := exists_catalog_of_mem_discover hentry
  have hmem : q ∈ entry.description.properties := by
    rw [Description.properties, hobject]
    exact hq
  rw [htype]
  exact shows_described hcatalog hmem

theorem shows_uriParams {types : ModelTypes} {routeOptional : List String}
    {params : List DeclaredParameter} {p : Parameter}
    (hp : p ∈ (uriParams document.catalog types routeOptional params).1 ++
      (uriParams document.catalog types routeOptional params).2.toList) :
    document.Shows types.names p.type := by
  have hseparate : ∀ p ∈ params.map (uriParam types.names routeOptional),
      document.Shows types.names p.type := by
    intro p hp
    obtain ⟨declared, -, rfl⟩ := List.mem_map.mp hp
    exact shows_resolve _ _
  unfold uriParams at hp
  simp only at hp
  split at hp
  · rename_i declared
    split_ifs at hp with hbinder
    · rcases List.mem_append.mp hp with hp | hp
      · unfold compositeParams at hp
        split at hp
        · cases hp
        · rename_i description hdescription
          obtain ⟨q, hq, rfl⟩ := List.mem_map.mp hp
          obtain ⟨name, args, hcatalog⟩ := Catalog.exists_of_describe? hdescription
          exact shows_described hcatalog hq
      · simp only [Option.toList_map, List.mem_map] at hp
        obtain ⟨_, -, rfl⟩ := hp
        exact shows_resolve _ _
    · exact hseparate p (by simpa using hp)
  · exact hseparate p (by simpa using hp)

theorem shows_parameter {types : ModelTypes} {op : DeclaredOperation} {name : String}
    {p : Parameter}
    (hp : p ∈ (extractOperation document.catalog config types op name).uriParams ++
      (extractOperation document.catalog config types op name).bodyParams ++
      (extractOperation document.catalog config types op name).wrapper.toList) :
    document.Shows types.names p.type := by
  rw [extractOperation] at hp
  generalize Route.normalize (Route.strip config op.route) = normalized at hp
  obtain ⟨route, routeOptional⟩ := normalized
  simp only [List.mem_append, List.mem_map] at hp
  rcases hp with (⟨q, hq, rfl⟩ | ⟨q, -, rfl⟩) | hp
  · have htype : ∀ url, (locate url q).type = q.type := by
      intro url
      unfold locate
      split <;> rfl
    rw [htype]
    exact shows_uriParams (List.mem_append_left _ hq)
  · exact shows_resolve _ _
  · exact shows_uriParams (List.mem_append_right _ hp)

/-! ## Compiled models -/

theorem parameters_revived (op : Operation) (types : ModelTypes) (mode : ObjectRevival) :
    (op.revived types mode).uriParams ++ (op.revived types mode).bodyParams ++
        (op.revived types mode).wrapper.toList =
      (op.uriParams ++ op.bodyParams ++ op.wrapper.toList).map (·.revived types mode) := by
  rw [List.map_append, List.map_append, ← Option.toList_map]
  rfl

/-- The revival is synthesized for a type that the model shows, and for a source that takes its
value under that name. -/
structure Origin (document : Document) (config : Config) (root : String) (revival : Revival)
    (type : ValueType) (custom : Option String) (source : Revival) : Prop where
  shows_type : document.Shows (document.discover config).1.names type
  taken : TakenFrom root source
  revival : (document.discover config).1.declarations.revivalOf config.objectRevival type custom
    source = some revival

namespace Compiled

/-- The methods of a model are extracted from declared ones, sorted or not. -/
theorem exists_extracted (h : document.Compiled config contract) {i : Interface} {m : Method}
    (hi : i ∈ contract.interfaces) (hm : m ∈ i.methods) :
    ∃ declared, m = (extractMethod contract.types.names declared).revived contract.types
      config.objectRevival := by
  rw [h.interfaces] at hi
  obtain ⟨declaredInterface, -, rfl⟩ := List.mem_map.mp hi
  obtain ⟨extracted, hextracted, rfl⟩ := List.mem_map.mp hm
  have hmem : extracted ∈
      declaredInterface.methods.map (extractMethod contract.types.names) := by
    simp only [extractInterface] at hextracted
    split_ifs at hextracted
    · exact List.mem_mergeSort.mp hextracted
    · exact hextracted
  obtain ⟨declared, -, rfl⟩ := List.mem_map.mp hmem
  exact ⟨declared, rfl⟩

/-- Every revival of a model is synthesized for a type that the model shows. -/
theorem exists_of_attaches (h : document.Compiled config contract) {root : String}
    {revival : Revival} (hattached : contract.Attaches root revival) :
    ∃ type custom source, Origin document config root revival type custom source := by
  have hnames : contract.types.names = (document.discover config).1.names := by
    rw [h.types]
    rfl
  have hvalue : ∀ {type : ValueType} {root : String} {revival : Revival},
      document.Shows contract.types.names type →
      contract.types.revivalOf config.objectRevival type none (.value root) = some revival →
      ∃ type custom source, Origin document config root revival type custom source := by
    intro type root revival hshows hrevival
    rw [hnames] at hshows
    rw [h.types, ModelTypes.revivalOf_attachRevivals] at hrevival
    exact ⟨type, none, .value root, hshows, .value, hrevival⟩
  cases hattached with
  | @property c p revival hc hp hrevival =>
    rw [h.types] at hc
    obtain ⟨declared, hdeclared, rfl⟩ := List.mem_map.mp hc
    obtain ⟨q, hq, rfl⟩ := List.mem_map.mp hp
    exact ⟨q.type, q.customReviver, .member (.value "data") q.name, shows_property hdeclared hq,
      .member q.name .value, hrevival⟩
  | @param op p revival hop hp hrevival =>
    rw [h.operations] at hop
    obtain ⟨⟨declared, name⟩, -, rfl⟩ := List.mem_map.mp hop
    rw [parameters_revived] at hp
    obtain ⟨q, hq, rfl⟩ := List.mem_map.mp hp
    exact hvalue (shows_parameter hq) hrevival
  | @response op revival hop hrevival =>
    rw [h.operations] at hop
    obtain ⟨⟨declared, name⟩, -, rfl⟩ := List.mem_map.mp hop
    exact hvalue (shows_resolve _ declared.response) hrevival
  | @methodParam i m p revival hi hm hp hrevival =>
    obtain ⟨declared, rfl⟩ := h.exists_extracted hi hm
    obtain ⟨q, hq, rfl⟩ := List.mem_map.mp hp
    obtain ⟨r, -, rfl⟩ := List.mem_map.mp hq
    exact hvalue (shows_resolve _ r.type) hrevival
  | @result i m revival hi hm hrevival =>
    obtain ⟨declared, rfl⟩ := h.exists_extracted hi hm
    exact hvalue (shows_resolve _ declared.returns) hrevival

end Compiled

/-! ## Unknown classes -/

/-- If instances of an unknown class are made for a type that the model shows, then a declaration
names that class. -/
theorem overrides_of_made? {type : ValueType} {custom : Option String} {c : String}
    (hshows : document.Shows (document.discover config).1.names type)
    (hmade : type.made? custom = some c)
    (hunknown : (document.discover config).1.declarations.class? c = none) :
    document.Overrides c := by
  obtain ⟨t, override, rfl, hoverrides⟩ := hshows
  obtain ⟨-, hshape, huser, hname⟩ :=
    ValueType.step?_eq_instance_iff.mp (ValueType.made?_eq_some_iff.mp hmade)
  have hlabelled := (document.discover config).1.names.labelled_resolve t override
  rw [← hlabelled.userDefined] at huser
  rw [← hlabelled.name] at hname
  cases override with
  | some shown =>
    rw [NameTable.name_resolve] at hname
    exact hoverrides c (congrArg some hname)
  | none =>
    -- the name is the one of a class that is declared, so it is not unknown
    rcases (document.discover config).1.refers_of_userDefined huser with
      ⟨-, found, hfound, -⟩ | ⟨henum, -⟩
    · rw [hname] at hfound
      have hmem : found ∈ (document.discover config).1.declarations.classes.filter
          (·.name == c) := by
        rw [hfound, List.mem_singleton]
      obtain ⟨hclass, hsame⟩ := List.mem_filter.mp hmem
      exact absurd hsame (List.find?_eq_none.mp hunknown found hclass)
    · rw [hshape] at henum
      cases henum

/-- The same for the classes to which the properties of such a type lead. -/
theorem overrides_of_needs {type : ValueType} {custom : Option String} {c : String}
    (hshows : document.Shows (document.discover config).1.names type)
    (hneeds : (document.discover config).1.declarations.Needs type custom c)
    (hunknown : (document.discover config).1.declarations.class? c = none) :
    document.Overrides c := by
  cases hneeds with
  | leaf hmade => exact overrides_of_made? hshows hmade hunknown
  | property _ hp hmade =>
    obtain ⟨up, hup, -, hp⟩ := (ModelTypes.mem_propertiesOf
      (document.discover config).1.classNames_declarations_nodup).mp hp
    exact overrides_of_made? (shows_property hup hp) hmade hunknown

/-! ## Names and failures -/

/-- What can go wrong with a value: it is of another kind, or a declaration names a class that does
not exist. -/
inductive Fails (document : Document) (types : ModelTypes) : Revival.Failure → Prop where
  | mismatch (expected found : String) : Fails document types (.typeMismatch expected found)
  | unknown {c : String} : document.Overrides c → types.class? c = none →
      Fails document types (.unknownClass c)

theorem Origin.fails {root : String} {revival : Revival} {type : ValueType}
    {custom : Option String} {source : Revival}
    (h : Origin document config root revival type custom source) {value : Json}
    {failure : Revival.Failure}
    (hfailure : ((document.discover config).1.declarations.attachRevivals
      config.objectRevival).evaluate revival [(root, value)] = .error failure) :
    Fails document
      ((document.discover config).1.declarations.attachRevivals config.objectRevival) failure := by
  have hbound : (Bindings.ofList [(root, value)]).lookup root = some value :=
    Bindings.lookup_ofList_concat [] root value
  obtain ⟨found, hinput⟩ := h.taken.exists_input hbound
  have hrevival := h.revival
  cases hmode : config.objectRevival with
  | inline =>
    rw [hmode] at hrevival hfailure
    obtain ⟨expected, actual, rfl⟩ :=
      (ModelTypes.synthesizes_revivalOf hrevival).error_inline hinput hfailure
    exact .mismatch expected actual
  | construct =>
    rw [hmode] at hrevival hfailure
    rw [ModelTypes.evaluate_eq_interpret? hinput hrevival] at hfailure
    cases ModelTypes.interpret?_error hfailure with
    | mismatch expected actual => exact .mismatch expected actual
    | unknown hneeds hunknown =>
      refine .unknown (overrides_of_needs h.shows_type hneeds hunknown) ?_
      rw [ModelTypes.class?_attachRevivals, hunknown]
      rfl

/-- In every compiled model a revival is free in the name of the value that it is given and in
nothing else.  The body of a map is free in the parameter of that map at most, and the maps around
it have other parameters.  Whatever the value is, evaluation fails only where a value is of another
kind, or where a declaration names a class that does not exist. -/
theorem compile_scoped (h : document.compile config = .ok contract) {root : String}
    {revival : Revival} (hattached : contract.Attaches root revival) :
    (∀ name, name ∈ revival.free ↔ name = root) ∧
    (∀ node ∈ revival.maps, (∀ name ∈ node.body.free, name = node.param) ∧
      (node.outer ++ [node.param]).Nodup) ∧
    ∀ value failure, contract.types.evaluate revival [(root, value)] = .error failure →
      Fails document contract.types failure := by
  have hcompiled := compiled_of_compile h
  obtain ⟨type, custom, source, horigin⟩ := hcompiled.exists_of_attaches hattached
  have hscopes := ModelTypes.synthesizes_revivalOf horigin.revival
  refine ⟨fun name => ⟨hscopes.free_subset root horigin.taken name, ?_⟩, ?_, ?_⟩
  · rintro rfl
    exact hscopes.mem_free horigin.taken
  · intro node hnode
    have hnode := hscopes.scopedNode root horigin.taken node hnode
    exact ⟨hnode.free, hnode.nodup⟩
  · intro value failure hfailure
    rw [hcompiled.types] at hfailure ⊢
    exact horigin.fails hfailure

/-- An operation with a list of dates under the name that the parameter of a map has. -/
def clockOperation : DeclaredOperation where
  controller := "Clock"
  params := [{ name := "x", type := .named "List" [.named "DateTime" []] }]

/-- The document of that operation. -/
def clock : Document where
  operations := [clockOperation]

theorem clock_attaches (h : clock.compile {} = .ok contract) :
    contract.Attaches "x" (.mapArray (.value "x") "x" (.date (.value "x"))) := by
  have hcompiled := compiled_of_compile h
  have hdates : contract.types.names.resolve (.named "List" [.named "DateTime" []]) none =
      (ValueType.scalar .date).arrayOf := by
    have hlist : (TypeExpr.named "List" [.named "DateTime" []]).form =
        .sequence (.named "DateTime" []) := by decide +kernel
    have hdate : (TypeExpr.named "DateTime" []).form = .scalar .date false := by decide +kernel
    show contract.types.names.unwrap _ = _
    rw [NameTable.unwrap_of_sequence _ hlist, NameTable.unwrap_of_scalar _ hdate]
  have hkept : ({} : Config).excludes clockOperation.controller = false := by decide +kernel
  have hmem : clockOperation ∈ clock.operations := List.mem_singleton.mpr rfl
  obtain ⟨name, hincluded⟩ := exists_included_iff.mpr ⟨hmem, hkept⟩
  let op := (extractOperation clock.catalog {} contract.types clockOperation name).revived
    contract.types .construct
  let p := (bodyParam contract.types.names
    { name := "x", type := .named "List" [.named "DateTime" []] }).revived contract.types .construct
  have hop : op ∈ contract.operations := by
    rw [hcompiled.operations]
    exact List.mem_map.mpr ⟨(clockOperation, name), hincluded, rfl⟩
  have hp : p ∈ op.uriParams ++ op.bodyParams ++ op.wrapper.toList :=
    List.mem_append_left _ (List.mem_append_right _ (List.mem_singleton.mpr rfl))
  have hrevival : p.revival = some (.mapArray (.value "x") "x" (.date (.value "x"))) := by
    show contract.types.revivalOf .construct (contract.types.names.resolve _ none) none
      (.value "x") = _
    rw [hdates]
    rfl
  exact .param hop hp hrevival

/-- Although the map binds that name too, it is free, since the map takes the list from there. -/
theorem clock_scoped : ∃ contract, clock.compile {} = .ok contract ∧
    ∀ name, name ∈ (Revival.mapArray (.value "x") "x" (.date (.value "x"))).free ↔ name = "x" := by
  have hcompile : ∃ contract, clock.compile {} = .ok contract := by
    rw [compile]
    generalize clock.discover {} = discovered
    obtain ⟨table, passes⟩ := discovered
    exact ⟨_, rfl⟩
  obtain ⟨contract, h⟩ := hcompile
  exact ⟨contract, h, (compile_scoped h (clock_attaches h)).1⟩

end Document

end DataContract
