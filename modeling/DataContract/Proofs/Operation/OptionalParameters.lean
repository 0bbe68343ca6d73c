import DataContract.Operation.Extract
import DataContract.Proofs.Operation.Placeholders

/-!
# Optional parameters of an operation

The placeholders of optional parameters are taken out of the route before the URL is read from it.
Those of other names stay as they were, in their order.  Optional parameters themselves travel in
the query string, unless the route names one of them in several places and, by the time these are
taken out, has slashes at some of them only.

Results:

* `extractOperation_url`, `extractOperation_location`: the URL, and where its parameters travel.
* `required_placeholders_kept`: the placeholders of other names are those of the route.
* `optional_placeholder_left_iff`: which optional parameters are left in the URL.
-/

namespace DataContract

/-- The route as it is read: without configured beginnings and query string, and with bare names in
its placeholders. -/
def DeclaredOperation.readRoute (op : DeclaredOperation) (config : Config) : String :=
  (Route.normalize (Route.strip config op.route)).1

/-- The names of the optional parameters of the URL. -/
def Operation.optionalNames (operation : Operation) : List String :=
  (operation.uriParams.filter (·.optional)).map (·.name)

/-! ## The URL and the locations -/

theorem UrlPattern.hasPlaceholder_iff {url : UrlPattern} {name : String} :
    url.hasPlaceholder name = true ↔ name ∈ url.placeholders := by
  simp [hasPlaceholder]

@[simp] theorem locate_name (url : UrlPattern) (p : Parameter) : (locate url p).name = p.name := by
  unfold locate
  split <;> rfl

@[simp] theorem locate_optional (url : UrlPattern) (p : Parameter) :
    (locate url p).optional = p.optional := by
  unfold locate
  split <;> rfl

theorem requiredRoute_eq (route : String) (params : List Parameter) :
    requiredRoute route params =
      Route.dropAll route ((params.filter (·.optional)).map (·.name)) := by
  rw [requiredRoute, Route.dropAll, List.foldl_map]

/-- Before the URL is known, every parameter travels in the query string. -/
theorem location_of_mem_uriParams {catalog : Catalog} {types : ModelTypes}
    {routeOptional : List String} {params : List DeclaredParameter} {p : Parameter}
    (hp : p ∈ (uriParams catalog types routeOptional params).1) : p.location = .query := by
  have hseparate : ∀ p ∈ params.map (uriParam types.names routeOptional), p.location = .query := by
    intro p hp
    obtain ⟨declared, -, rfl⟩ := List.mem_map.mp hp
    rfl
  unfold uriParams at hp
  simp only at hp
  split at hp
  · split_ifs at hp with hbinder
    · unfold compositeParams at hp
      split at hp
      · cases hp
      · obtain ⟨q, -, rfl⟩ := List.mem_map.mp hp
        rfl
    · exact hseparate p hp
  · exact hseparate p hp

/-- The URL is read once it is known which parameters there are, and then it says where each of them
travels. -/
theorem exists_params (catalog : Catalog) (config : Config) (types : ModelTypes)
    (op : DeclaredOperation) (name : String) :
    let operation := extractOperation catalog config types op name
    ∃ params : List Parameter, (∀ p ∈ params, p.location = .query) ∧
      operation.uriParams = params.map (locate operation.url) ∧
      operation.url = UrlPattern.parse (requiredRoute (op.readRoute config) params) :=
  ⟨_, fun _ => location_of_mem_uriParams, rfl, rfl⟩

/-- The URL is read from the route without the placeholders of the optional parameters. -/
theorem extractOperation_url (catalog : Catalog) (config : Config) (types : ModelTypes)
    (op : DeclaredOperation) (name : String) :
    let operation := extractOperation catalog config types op name
    operation.url =
      UrlPattern.parse (Route.dropAll (op.readRoute config) operation.optionalNames) := by
  intro operation
  obtain ⟨params, -, hparams, hurl⟩ := exists_params catalog config types op name
  have hnames : operation.optionalNames = (params.filter (·.optional)).map (·.name) := by
    rw [Operation.optionalNames, hparams, List.filter_map, List.map_map]
    simp [Function.comp_def]
  rw [hnames, ← requiredRoute_eq]
  exact hurl

/-- A parameter travels in the path when the URL has a placeholder for it, and in the query string
when it has none. -/
theorem extractOperation_location (catalog : Catalog) (config : Config) (types : ModelTypes)
    (op : DeclaredOperation) (name : String) :
    let operation := extractOperation catalog config types op name
    ∀ p ∈ operation.uriParams,
      p.location = if p.name ∈ operation.url.placeholders then .path else .query := by
  intro operation p hp
  obtain ⟨params, hquery, hparams, -⟩ := exists_params catalog config types op name
  rw [hparams] at hp
  obtain ⟨q, hq, rfl⟩ := List.mem_map.mp hp
  rw [locate_name, locate]
  by_cases hplaceholder : q.name ∈ operation.url.placeholders
  · rw [if_pos (UrlPattern.hasPlaceholder_iff.mpr hplaceholder), if_pos hplaceholder]
  · rw [if_neg fun h => hplaceholder (UrlPattern.hasPlaceholder_iff.mp h), if_neg hplaceholder]
    exact hquery q hq

/-- The names of optional parameters are names of parameters. -/
theorem Operation.mem_optionalNames {operation : Operation} {name : String} :
    name ∈ operation.optionalNames ↔
      ∃ p ∈ operation.uriParams, p.optional = true ∧ p.name = name := by
  rw [optionalNames, List.mem_map]
  constructor
  · rintro ⟨p, hp, rfl⟩
    exact ⟨p, (List.mem_filter.mp hp).1, (List.mem_filter.mp hp).2, rfl⟩
  · rintro ⟨p, hp, hoptional, rfl⟩
    exact ⟨p, List.mem_filter.mpr ⟨hp, hoptional⟩, rfl⟩

/-- Names without braces stay so when only some of them are looked at. -/
theorem Operation.bare_optionalNames {operation : Operation}
    (h : ∀ p ∈ operation.uriParams, Route.Bare p.name) :
    ∀ name ∈ operation.optionalNames, Route.Bare name := by
  intro name hname
  obtain ⟨p, hp, -, rfl⟩ := mem_optionalNames.mp hname
  exact h p hp

/-! ## Parameters that are required -/

/-- To take out the placeholders of optional parameters leaves those of all other names as they
were, so that every other parameter that the route names travels in the path. -/
theorem required_placeholders_kept (catalog : Catalog) (config : Config) (types : ModelTypes)
    (op : DeclaredOperation) (name : String) :
    let operation := extractOperation catalog config types op name
    let named := (UrlPattern.parse (op.readRoute config)).placeholders
    (∀ p ∈ operation.uriParams, Route.Bare p.name) → Route.Plain (op.readRoute config) →
      operation.url.placeholders.filter (· ∉ operation.optionalNames) =
          named.filter (· ∉ operation.optionalNames) ∧
        operation.url.placeholders.Sublist named ∧
        ∀ p ∈ operation.uriParams, p.name ∈ named → p.name ∉ operation.optionalNames →
          p.location = .path := by
  intro operation named hnames hroute
  have hurl : operation.url =
      UrlPattern.parse (Route.dropAll (op.readRoute config) operation.optionalNames) :=
    extractOperation_url catalog config types op name
  have hstripped := Route.stripped_dropAll hroute (Operation.bare_optionalNames hnames)
  rw [hurl]
  refine ⟨hstripped.others, hstripped.sublist, ?_⟩
  intro p hp hnamed hrequired
  have hleft : p.name ∈ operation.url.placeholders := by
    rw [hurl, hstripped.mem_iff hrequired]
    exact hnamed
  rw [extractOperation_location catalog config types op name p hp, if_pos hleft]

/-- The lines of an order, all of them or one.  In the route two braces stand for themselves. -/
def orderLines : DeclaredOperation where
  controller := "Orders"
  route := "orders/\x7bid\x7d/lines\x7d/\x7bline?\x7d/\x7brest"
  params :=
    [{ name := "id", type := .named "string" [], source := .uri },
     { name := "line", type := .named "string" [], source := .uri }]

/-- The route of the lines shows their order still. -/
theorem orderLines_kept :
    let operation := extractOperation ({} : Document).catalog {} ⟨[], [], []⟩ orderLines "Lines"
    ∃ p ∈ operation.uriParams, p.name = "id" ∧ p.location = .path := by
  intro operation
  have hnames : ∀ p ∈ operation.uriParams, Route.Bare p.name := by decide +kernel
  have hroute : Route.Plain (orderLines.readRoute {}) := by decide +kernel
  obtain ⟨-, -, hpath⟩ := required_placeholders_kept _ _ _ _ _ hnames hroute
  obtain ⟨p, hp, hname, hnamed, hrequired⟩ : ∃ p ∈ operation.uriParams, p.name = "id" ∧
      p.name ∈ (UrlPattern.parse (orderLines.readRoute {})).placeholders ∧
      p.name ∉ operation.optionalNames := by decide +kernel
  exact ⟨p, hp, hname, hpath p hp hnamed hrequired⟩

/-! ## Parameters that are optional -/

/-- An optional parameter has no placeholder left in the URL, and travels in the query string,
unless slashes stand at some of its placeholders only by the time it is its turn for the last time.
This cannot be where the route names it at most once. -/
theorem optional_placeholder_left_iff (catalog : Catalog) (config : Config) (types : ModelTypes)
    (op : DeclaredOperation) (name : String) :
    let operation := extractOperation catalog config types op name
    let named := (UrlPattern.parse (op.readRoute config)).placeholders
    (∀ p ∈ operation.uriParams, Route.Bare p.name) → Route.Plain (op.readRoute config) →
      ∀ p ∈ operation.uriParams, p.optional = true →
        (∀ before after, operation.optionalNames = before ++ p.name :: after → p.name ∉ after →
          (p.name ∉ operation.url.placeholders ∧ p.location = .query ↔
            ¬ Route.Uneven (Route.dropAll (op.readRoute config) before) p.name)) ∧
        (named.count p.name ≤ 1 →
          p.name ∉ operation.url.placeholders ∧ p.location = .query) := by
  intro operation named hnames hroute p hp hoptional
  have hbare := Operation.bare_optionalNames hnames
  have hurl : operation.url =
      UrlPattern.parse (Route.dropAll (op.readRoute config) operation.optionalNames) :=
    extractOperation_url catalog config types op name
  have hlocation : p.name ∉ operation.url.placeholders ∧ p.location = .query ↔
      p.name ∉ operation.url.placeholders := by
    refine and_iff_left_of_imp fun hgone => ?_
    rw [extractOperation_location catalog config types op name p hp, if_neg hgone]
  rw [hlocation, hurl]
  refine ⟨?_, ?_⟩
  · intro before after hsplit hlast
    rw [hsplit] at hbare ⊢
    rw [Route.mem_dropAll_iff hroute hbare hlast]
  · have hname := Operation.mem_optionalNames.mpr ⟨p, hp, hoptional, rfl⟩
    exact Route.not_mem_dropAll_of_count hroute hbare hname

/-- A single line is asked for in the query string. -/
theorem line_in_query :
    let operation := extractOperation ({} : Document).catalog {} ⟨[], [], []⟩ orderLines "Lines"
    ∃ p ∈ operation.uriParams, p.name = "line" ∧ p.optional = true ∧
      p.name ∉ operation.url.placeholders ∧ p.location = .query := by
  intro operation
  have hnames : ∀ p ∈ operation.uriParams, Route.Bare p.name := by decide +kernel
  have hroute : Route.Plain (orderLines.readRoute {}) := by decide +kernel
  obtain ⟨p, hp, hname, hoptional, honce⟩ : ∃ p ∈ operation.uriParams, p.name = "line" ∧
      p.optional = true ∧
      (UrlPattern.parse (orderLines.readRoute {})).placeholders.count p.name ≤ 1 := by
    decide +kernel
  have hgone := optional_placeholder_left_iff _ _ _ _ _ hnames hroute p hp hoptional
  exact ⟨p, hp, hname, hoptional, hgone.2 honce⟩

/-- The history of a ticket.  The route names the ticket at its front and, optional, at its end. -/
def history : DeclaredOperation where
  controller := "Tickets"
  route := "\x7bid\x7d/history/\x7bid?\x7d"
  params := [{ name := "id", type := .named "string" [], source := .uri }]

/-- A slash stands before one placeholder only, and the other one is left. -/
theorem history_left :
    let operation := extractOperation ({} : Document).catalog {} ⟨[], [], []⟩ history "History"
    ∃ p ∈ operation.uriParams, p.optional = true ∧
      ¬ (p.name ∉ operation.url.placeholders ∧ p.location = .query) := by
  decide +kernel

end DataContract
