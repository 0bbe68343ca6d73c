import DataContract.Proofs.Catalog.BaseChain
import DataContract.Proofs.Operation.OptionalParameters

/-!
# Parameters that are bound property by property

A lone parameter of the URL that is bound property by property gives way to the properties that the
catalog lists for its type.  They are looked up under the type as it is written, and are taken one
by one: a nullable type lists none, and properties that share a name in serialized form become
parameters of one name.

Results:

* `Operation.Surfaces`: the parameters are the fields of a type, each of them once.
* `extractOperation_composite`: the parameters, in their order.
* `composite_surfaced_iff`: when they are the fields of the type.
-/

namespace DataContract

/-- The parameters of the URL are optional, and have the names of the properties in serialized form,
each name once. -/
structure Operation.Surfaces (operation : Operation) (o : DescribedObject) : Prop where
  nodup : (operation.uriParams.map (·.name)).Nodup
  mem_iff : ∀ name, name ∈ operation.uriParams.map (·.name) ↔
    name ∈ o.properties.map (·.serializedName)
  optional : ∀ p ∈ operation.uriParams, p.optional = true

/-- The properties that a catalog lists for a type, none for a type that is not known. -/
def Catalog.listed (catalog : Catalog) (t : TypeExpr) : List DescribedProperty :=
  ((catalog.describe? t).map (·.properties)).getD []

theorem Catalog.listed_of_describe? {catalog : Catalog} {t : TypeExpr} {d : Description}
    {o : DescribedObject} (hd : catalog.describe? t = some d) (ho : d.object? = some o) :
    catalog.listed t = o.properties := by
  simp [listed, hd, Description.properties, ho]

@[simp] theorem locate_type (url : UrlPattern) (p : Parameter) : (locate url p).type = p.type := by
  unfold locate
  split <;> rfl

theorem compositeParams_eq (catalog : Catalog) (names : NameTable) (t : TypeExpr) :
    compositeParams catalog names t = (catalog.listed t).map fun q =>
      { name := q.serializedName, type := names.resolve q.type q.typeOverride, location := .query
        optional := true } := by
  rw [compositeParams, Catalog.listed]
  cases catalog.describe? t <;> rfl

section Composite

variable {catalog : Catalog} {config : Config} {types : ModelTypes} {op : DeclaredOperation}
  {name : String} {p : DeclaredParameter} {t : TypeExpr} {d : Description} {o : DescribedObject}

/-- The parameters are the properties that are listed for the type as it is written. -/
theorem extractOperation_composite (catalog : Catalog) (config : Config) (types : ModelTypes)
    (op : DeclaredOperation) (name : String) (huri : op.params.filter (·.source == .uri) = [p])
    (hbinder : p.binder = true) :
    let operation := extractOperation catalog config types op name
    operation.uriParams = (catalog.listed p.type).map fun q => locate operation.url
      { name := q.serializedName, type := types.names.resolve q.type q.typeOverride
        location := .query, optional := true } := by
  intro operation
  have hparams : operation.uriParams =
      (uriParams catalog types (Route.normalize (Route.strip config op.route)).2
        (op.params.filter (·.source == .uri))).1.map (locate operation.url) := rfl
  rw [hparams, huri, uriParams]
  simp only [hbinder, if_true]
  rw [compositeParams_eq, List.map_map]
  rfl

/-- What the parameters surface is what is listed for the type as it is written. -/
theorem surfaces_iff_listed (catalog : Catalog) (config : Config) (types : ModelTypes)
    (op : DeclaredOperation) (name : String) (huri : op.params.filter (·.source == .uri) = [p])
    (hbinder : p.binder = true) (o : DescribedObject) :
    (extractOperation catalog config types op name).Surfaces o ↔
      ((catalog.listed p.type).map (·.serializedName)).Nodup ∧
      ∀ name, name ∈ (catalog.listed p.type).map (·.serializedName) ↔
        name ∈ o.properties.map (·.serializedName) := by
  have hparams := extractOperation_composite catalog config types op name huri hbinder
  have hnames : (extractOperation catalog config types op name).uriParams.map (·.name) =
      (catalog.listed p.type).map (·.serializedName) := by
    rw [hparams, List.map_map]
    exact List.map_congr_left fun q _ => locate_name _ _
  constructor
  · rintro ⟨hnodup, hmem, -⟩
    rw [hnames] at hnodup hmem
    exact ⟨hnodup, hmem⟩
  · rintro ⟨hnodup, hmem⟩
    rw [← hnames] at hnodup hmem
    refine ⟨hnodup, hmem, fun q hq => ?_⟩
    rw [hparams] at hq
    obtain ⟨r, -, rfl⟩ := List.mem_map.mp hq
    exact locate_optional _ _

/-- The parameters are the properties that the catalog lists for the type as it is written, in their
order.  For a type of which the catalog knows the properties they surface each field once if no two
properties share a name in serialized form.  If the type is nullable, and the catalog knows nothing
about nullables, there is no parameter at all. -/
theorem composite_surfaced_iff (catalog : Catalog) (config : Config) (types : ModelTypes)
    (op : DeclaredOperation) (name : String) (huri : op.params.filter (·.source == .uri) = [p])
    (hbinder : p.binder = true) (hd : catalog.describe? t = some d) (ho : d.object? = some o) :
    let operation := extractOperation catalog config types op name
    operation.uriParams.map (fun q => (q.name, q.type, q.optional)) =
        (catalog.listed p.type).map (fun q =>
          (q.serializedName, types.names.resolve q.type q.typeOverride, true)) ∧
      (p.type = t → (operation.Surfaces o ↔ (o.properties.map (·.serializedName)).Nodup)) ∧
      (p.type = t.nullable → catalog.describe? t.nullable = none →
        operation.uriParams = [] ∧ (operation.Surfaces o ↔ o.properties = [])) := by
  intro operation
  have hparams := extractOperation_composite catalog config types op name huri hbinder
  have hsurfaces := surfaces_iff_listed catalog config types op name huri hbinder o
  refine ⟨?_, ?_, ?_⟩
  · rw [hparams, List.map_map]
    exact List.map_congr_left fun q _ => by simp
  · intro htype
    rw [hsurfaces, htype, Catalog.listed_of_describe? hd ho]
    simp
  · intro htype hnone
    have hlisted : catalog.listed p.type = [] := by simp [htype, Catalog.listed, hnone]
    refine ⟨by rw [hparams, hlisted]; rfl, ?_⟩
    rw [hsurfaces, hlisted]
    simp [List.eq_nil_iff_forall_not_mem]

end Composite

/-- What items and tags are searched for.  The names of the two properties of a tag differ, but not
in serialized form. -/
def searches : Document where
  types :=
    [("Shop.ItemQuery", .object
      { properties := [{ name := "text", type := .named "string" [] },
                       { name := "Page", type := .named "int" [], jsonName := some "page" }] }),
     ("Shop.TagQuery", .object
      { properties := [{ name := "tag", type := .named "string" [] },
                       { name := "Label", type := .named "string" [], jsonName := some "tag" }] })]

/-- A search for what the type says. -/
def searchBy (t : TypeExpr) : DeclaredOperation where
  controller := "Items"
  action := some "Search"
  route := "items"
  params := [{ name := "query", type := t, source := .uri, binder := true }]

theorem searches_describe (name : String) (names : List String)
    (hobject : (searches.object? (.named name [])).isSome)
    (hlisted : (searches.listedWithin 1 [] (.named name [])).map
      (List.map DescribedProperty.serializedName) = some names) :
    ∃ d o, searches.catalog.describe? (.named name []) = some d ∧ d.object? = some o ∧
      o.properties.map (·.serializedName) = names := by
  obtain ⟨properties, hlisted, hnames⟩ := Option.map_eq_some_iff.mp hlisted
  obtain ⟨d, o, hd, ho, rfl⟩ :=
    Document.describe?_of_listed? hobject (Document.listed?_of_listedWithin hlisted)
  exact ⟨d, o, hd, ho, hnames⟩

theorem search_items_surfaced : ∃ d o,
    searches.catalog.describe? (.named "Shop.ItemQuery" []) = some d ∧ d.object? = some o ∧
      (extractOperation searches.catalog {} ⟨[], [], []⟩ (searchBy (.named "Shop.ItemQuery" []))
        "Items_Search").Surfaces o := by
  obtain ⟨d, o, hd, ho, hnames⟩ :=
    searches_describe "Shop.ItemQuery" ["text", "page"] (by decide) (by decide)
  obtain ⟨-, hplain, -⟩ := composite_surfaced_iff searches.catalog {} ⟨[], [], []⟩
    (searchBy (.named "Shop.ItemQuery" [])) "Items_Search" rfl rfl hd ho
  exact ⟨d, o, hd, ho, (hplain rfl).mpr (by rw [hnames]; decide)⟩

/-- Of a nullable query nothing is left, and a tag has two parameters of one name. -/
theorem search_not_surfaced :
    (∃ d o, searches.catalog.describe? (.named "Shop.ItemQuery" []) = some d ∧
      d.object? = some o ∧
      ¬ (extractOperation searches.catalog {} ⟨[], [], []⟩
        (searchBy (.nullable (.named "Shop.ItemQuery" []))) "Items_Search").Surfaces o) ∧
    ∃ d o, searches.catalog.describe? (.named "Shop.TagQuery" []) = some d ∧ d.object? = some o ∧
      ¬ (extractOperation searches.catalog {} ⟨[], [], []⟩
        (searchBy (.named "Shop.TagQuery" [])) "Items_Search").Surfaces o := by
  constructor
  · obtain ⟨d, o, hd, ho, hnames⟩ :=
      searches_describe "Shop.ItemQuery" ["text", "page"] (by decide) (by decide)
    refine ⟨d, o, hd, ho, fun h => ?_⟩
    have hmem := ((surfaces_iff_listed _ _ _ _ _ rfl rfl o).mp h).2 "text"
    have hnone : searches.catalog.listed (.nullable (.named "Shop.ItemQuery" [])) = [] := rfl
    rw [hnames, hnone] at hmem
    exact absurd hmem (by decide)
  · obtain ⟨d, o, hd, ho, hnames⟩ :=
      searches_describe "Shop.TagQuery" ["tag", "tag"] (by decide) (by decide)
    refine ⟨d, o, hd, ho, fun h => ?_⟩
    have hnodup := ((surfaces_iff_listed _ _ _ _ _ rfl rfl o).mp h).1
    rw [Catalog.listed_of_describe? hd ho, hnames] at hnodup
    exact absurd hnodup (by decide)

end DataContract
