import DataContract.Proofs.Catalog.Bounded
import Mathlib.Data.Finset.Card
import Mathlib.Data.List.Chain
import Mathlib.Data.Set.Finite.Basic
import Mathlib.Logic.Relation

/-!
# Properties along a chain of base types

The properties of a type are listed from the far end of its chain of base types, each type adding
those of its base whose names it does not list.  Read from the near end that is a single pass over
the properties along the chain, in which the first property of each name stays.

A chain ends at its top, or where the next instantiation has the canonical text of one that has been
visited.  That is mostly an instantiation met again, which has nothing to add.  It can be another
one, a homonym, only where an expression is not well formed: it adds what it declares, and its own
base types are left out.

Results:

* `unlisted_append_unlisted`: two passes, the second over what the first has left, are one.
* `Document.exists_baseChain`: a chain that comes to finitely many instantiations ends.
* `Document.listed?_of_climb`: what is listed along a chain, wherever it is entered.
* `Document.catalog_merges_baseChain`: the described properties are those of the pass.
* `Document.WellFormed.injOn_render`: along well-formed expressions there is no homonym.
-/

namespace DataContract

/-! ## Passes -/

/-- The properties whose names are not listed, the first one of each name. -/
def unlisted (listed : List String) : List DescribedProperty → List DescribedProperty
  | [] => []
  | p :: properties =>
    if p.name ∈ listed then unlisted listed properties
    else p :: unlisted (p.name :: listed) properties

/-- Only which names are listed matters. -/
theorem unlisted_congr {listed known : List String} (h : ∀ name, name ∈ listed ↔ name ∈ known)
    (properties : List DescribedProperty) :
    unlisted listed properties = unlisted known properties := by
  induction properties generalizing listed known with
  | nil => rfl
  | cons p properties ih =>
    have hmore : ∀ name, name ∈ p.name :: listed ↔ name ∈ p.name :: known := by simp [h]
    simp only [unlisted, h p.name, ih h, ih hmore]

theorem addInherited_eq (own inherited : List DescribedProperty) :
    addInherited own inherited = own ++ unlisted (own.map (·.name)) inherited := by
  induction inherited generalizing own with
  | nil => simp [addInherited, unlisted]
  | cons p inherited ih =>
    have hstep : addInherited own (p :: inherited) =
        addInherited (if own.any (·.name == p.name) then own else own ++ [p]) inherited := rfl
    have hany : own.any (·.name == p.name) ↔ p.name ∈ own.map (·.name) := by simp
    rw [hstep, unlisted, ih]
    by_cases hlisted : p.name ∈ own.map (·.name)
    · rw [if_pos (hany.mpr hlisted), if_pos hlisted]
    · rw [if_neg (mt hany.mp hlisted), if_neg hlisted, List.append_assoc, List.singleton_append]
      congr 2
      exact unlisted_congr (by simp [or_comm]) inherited

theorem unlisted_append (listed : List String) (first rest : List DescribedProperty) :
    unlisted listed (first ++ rest) =
      unlisted listed first ++ unlisted (first.map (·.name) ++ listed) rest := by
  induction first generalizing listed with
  | nil => rfl
  | cons p first ih =>
    rw [List.cons_append, unlisted, unlisted]
    split_ifs with hlisted
    · rw [ih]
      congr 1
      exact unlisted_congr (by simp; grind) rest
    · rw [ih, List.cons_append]
      congr 2
      exact unlisted_congr (by simp; grind) rest

/-- A pass leaves nothing out that a later one with more names would keep. -/
theorem unlisted_unlisted {few many : List String} (h : ∀ name ∈ few, name ∈ many)
    (properties : List DescribedProperty) :
    unlisted many (unlisted few properties) = unlisted many properties := by
  induction properties generalizing few many with
  | nil => rfl
  | cons p properties ih =>
    by_cases hfew : p.name ∈ few
    · rw [unlisted, if_pos hfew, ih h, unlisted, if_pos (h _ hfew)]
    · rw [unlisted, if_neg hfew, unlisted, unlisted]
      split_ifs with hmany
      · exact ih (by simp; grind)
      · rw [ih (by simp; grind)]

/-- Two passes, the second over what the first has left, are one. -/
theorem unlisted_append_unlisted (listed : List String) (own rest : List DescribedProperty) :
    unlisted listed (own ++ unlisted (own.map (·.name)) rest) = unlisted listed (own ++ rest) := by
  rw [unlisted_append, unlisted_append, unlisted_unlisted (by simp; grind)]

theorem not_mem_of_mem_unlisted {listed : List String} {properties : List DescribedProperty}
    {p : DescribedProperty} (h : p ∈ unlisted listed properties) : p.name ∉ listed := by
  induction properties generalizing listed with
  | nil => cases h
  | cons q properties ih =>
    rw [unlisted] at h
    split_ifs at h with hlisted
    · exact ih h
    · rcases List.mem_cons.mp h with rfl | h
      · exact hlisted
      · exact fun hmem => ih h (List.mem_cons_of_mem _ hmem)

theorem nodup_unlisted (listed : List String) (properties : List DescribedProperty) :
    ((unlisted listed properties).map (·.name)).Nodup := by
  induction properties generalizing listed with
  | nil => exact List.nodup_nil
  | cons p properties ih =>
    rw [unlisted]
    split_ifs
    · exact ih listed
    · refine List.nodup_cons.mpr ⟨?_, ih _⟩
      intro hmem
      obtain ⟨q, hq, hname⟩ := List.mem_map.mp hmem
      exact not_mem_of_mem_unlisted hq (by simp [hname])

theorem unlisted_eq_nil {listed : List String} {properties : List DescribedProperty}
    (h : ∀ p ∈ properties, p.name ∈ listed) : unlisted listed properties = [] := by
  induction properties with
  | nil => rfl
  | cons p properties ih =>
    rw [unlisted, if_pos (h p (by simp)), ih fun q hq => h q (by simp [hq])]

/-! ## Chains -/

namespace Document

/-- The base type, if it is an object type. -/
def parent? (document : Document) (t : TypeExpr) : Option TypeExpr :=
  (document.base? t).filter fun base => (document.object? base).isSome

/-- An instantiation is the other one or lies further up its chain of base types. -/
def Above (document : Document) : TypeExpr → TypeExpr → Prop :=
  Relation.ReflTransGen fun t base => document.parent? t = some base

/-- A way up from an instantiation, on which each canonical text is met once. -/
structure Climb (document : Document) (start : TypeExpr) (chain : List TypeExpr) : Prop where
  starts : chain.head? = some start
  climbs : chain.IsChain fun t base => document.parent? t = some base
  nodup : (chain.map TypeExpr.render).Nodup

/-- The instantiation to which the chain would go on. -/
def next? (document : Document) (chain : List TypeExpr) : Option TypeExpr :=
  chain.getLast?.bind document.parent?

/-- The whole way up: the text of a further instantiation would be met twice. -/
structure BaseChain (document : Document) (start : TypeExpr) (chain : List TypeExpr) : Prop extends
    Climb document start chain where
  ends : ∀ next ∈ document.next? chain, next.render ∈ chain.map TypeExpr.render

/-- The instantiation to which the chain would go on, if it is none of the chain. -/
def homonym? (document : Document) (chain : List TypeExpr) : Option TypeExpr :=
  (document.next? chain).filter (· ∉ chain)

/-- What an instantiation inherits along the chain: the first property of each name that it does not
declare. -/
def inherited (document : Document) (start : TypeExpr) (chain : List TypeExpr) :
    List DescribedProperty :=
  unlisted ((document.ownProperties start).map (·.name))
    ((chain.tail ++ (document.homonym? chain).toList).flatMap document.ownProperties)

variable {document : Document} {start : TypeExpr} {chain : List TypeExpr}

theorem parent?_eq_some {t base : TypeExpr} :
    document.parent? t = some base ↔
      document.base? t = some base ∧ (document.object? base).isSome := by
  simp [parent?, Option.filter_eq_some_iff]

theorem parent?_eq_none {t base : TypeExpr} (hbase : document.base? t = some base) :
    document.parent? t = none ↔ document.object? base = none := by
  simp [parent?, hbase, Option.filter_eq_none_iff]

/-! ### Chains that end -/

theorem Climb.eq_cons (h : document.Climb start chain) : chain = start :: chain.tail :=
  (List.cons_head?_tail h.starts).symm

/-- What is met on a way up lies above. -/
theorem Climb.above (h : document.Climb start chain) {t : TypeExpr} (ht : t ∈ chain) :
    document.Above start t := by
  obtain ⟨rest, rfl⟩ : ∃ rest, chain = start :: rest := ⟨_, h.eq_cons⟩
  exact h.climbs.induction (document.Above start ·) _ (fun _ _ hparent hx => hx.tail hparent)
    (fun _ => .refl) t ht

/-- A way up goes on to a text that has not been met. -/
theorem Climb.concat (h : document.Climb start chain) {next : TypeExpr}
    (hnext : document.next? chain = some next)
    (hnew : next.render ∉ chain.map TypeExpr.render) : document.Climb start (chain ++ [next]) where
  starts := by rw [List.head?_append, h.starts]; rfl
  climbs := by
    obtain ⟨t, hlast, hparent⟩ := Option.bind_eq_some_iff.mp hnext
    exact List.isChain_append.mpr
      ⟨h.climbs, List.isChain_singleton next, by simpa [hlast] using hparent⟩
  nodup := by
    rw [List.map_append]
    exact h.nodup.append (List.nodup_singleton _) (by simpa using hnew)

theorem climb_singleton (start : TypeExpr) : document.Climb start [start] where
  starts := rfl
  climbs := List.isChain_singleton start
  nodup := List.nodup_singleton _

/-- No way up is longer than there are instantiations above. -/
theorem Climb.length_le (h : document.Climb start chain)
    (hfinite : {t | document.Above start t}.Finite) : chain.length ≤ hfinite.toFinset.card := by
  have hnodup : chain.Nodup := .of_map _ h.nodup
  rw [← List.toFinset_card_of_nodup hnodup]
  refine Finset.card_le_card fun t ht => ?_
  simpa using h.above (List.mem_toFinset.mp ht)

/-- A chain that comes to finitely many instantiations ends. -/
theorem exists_baseChain (hfinite : {t | document.Above start t}.Finite) :
    ∃ chain, document.BaseChain start chain := by
  -- while no chain ends, there are ways up of every length
  by_contra hnone
  have hlong : ∀ n, ∃ chain, document.Climb start chain ∧ n < chain.length := by
    intro n
    induction n with
    | zero => exact ⟨[start], climb_singleton start, by simp⟩
    | succ n ih =>
      obtain ⟨chain, hclimb, hlength⟩ := ih
      have hends : ¬ ∀ next ∈ document.next? chain, next.render ∈ chain.map TypeExpr.render :=
        fun h => hnone ⟨chain, hclimb, h⟩
      push Not at hends
      obtain ⟨next, hnext, hnew⟩ := hends
      exact ⟨_, hclimb.concat hnext hnew, by simpa using hlength⟩
  obtain ⟨chain, hclimb, hlength⟩ := hlong hfinite.toFinset.card
  exact absurd (hclimb.length_le hfinite) (by omega)

/-! ### What is listed along a chain -/

theorem ownProperties_eq_nil {t : TypeExpr} (h : document.object? t = none) :
    document.ownProperties t = [] := by
  rw [ownProperties, h]

theorem base?_eq_none {t : TypeExpr} (h : document.object? t = none) :
    document.base? t = none := by
  rw [base?, h]

/-- Nothing is inherited at the top. -/
theorem listed?_of_parent?_eq_none {visited : List String} {t : TypeExpr}
    (h : document.parent? t = none) :
    document.listed? visited t = some (document.ownProperties t) := by
  rw [listed?]
  cases hbase : document.base? t with
  | none => rfl
  | some base =>
    have hobject := (parent?_eq_none hbase).mp h
    have hlisted : document.listed? (t.render :: visited) base = some [] := by
      rw [listed?, base?_eq_none hobject, ownProperties_eq_nil hobject]
    simp [hlisted, addInherited]

/-- Nothing is inherited where a text is met again. -/
theorem listed?_of_mem {visited : List String} {t : TypeExpr} (h : t.render ∈ visited) :
    document.listed? visited t = some (document.ownProperties t) := by
  rw [listed?]
  cases document.base? t with
  | none => rfl
  | some base => simp only [if_pos h]

/-- Elsewhere the properties of the parent are added. -/
theorem listed?_of_parent? {visited : List String} {t base : TypeExpr} (h : t.render ∉ visited)
    (hparent : document.parent? t = some base) {properties : List DescribedProperty}
    (hlisted : document.listed? (t.render :: visited) base = some properties) :
    document.listed? visited t = some (document.ownProperties t ++
      unlisted ((document.ownProperties t).map (·.name)) properties) := by
  rw [listed?, (parent?_eq_some.mp hparent).1]
  simp only [if_neg h, hlisted]
  exact congrArg some (addInherited_eq _ _)

/-- What is listed along a chain, wherever it is entered: what the first type declares, and the pass
over the others and over the one to which the chain would go on. -/
theorem listed?_of_climb : ∀ {rest : List TypeExpr} {t : TypeExpr} (visited : List String),
    document.Climb t (t :: rest) → (∀ u ∈ t :: rest, u.render ∉ visited) →
    (∀ next ∈ document.next? (t :: rest),
      next.render ∈ (t :: rest).map TypeExpr.render ∨ next.render ∈ visited) →
    document.listed? visited t = some (document.ownProperties t ++
      unlisted ((document.ownProperties t).map (·.name))
        ((rest ++ (document.next? (t :: rest)).toList).flatMap document.ownProperties)) := by
  intro rest
  induction rest with
  | nil =>
    intro t visited hclimb hnew hends
    have hnext : document.next? [t] = document.parent? t := rfl
    cases hparent : document.parent? t with
    | none => simp [listed?_of_parent?_eq_none hparent, hnext, hparent, unlisted]
    | some base =>
      have hvisited : base.render ∈ t.render :: visited := by
        simpa [hnext, hparent] using hends
      rw [listed?_of_parent? (hnew t (by simp)) hparent (listed?_of_mem hvisited)]
      simp [hnext, hparent]
  | cons base rest ih =>
    intro t visited hclimb hnew hends
    obtain ⟨hparent, hclimbs⟩ := List.isChain_cons_cons.mp hclimb.climbs
    obtain ⟨hfirst, hnodup⟩ := List.nodup_cons.mp hclimb.nodup
    have hrest : document.Climb base (base :: rest) := ⟨rfl, hclimbs, hnodup⟩
    have hnext : document.next? (t :: base :: rest) = document.next? (base :: rest) := by
      simp [next?]
    have hlisted := ih (t.render :: visited) hrest ?_ ?_
    · rw [listed?_of_parent? (hnew t (by simp)) hparent hlisted, unlisted_append_unlisted, hnext]
      simp
    · intro u hu hvisited
      rcases List.mem_cons.mp hvisited with heq | hvisited
      · exact hfirst (heq ▸ List.mem_map_of_mem hu)
      · exact hnew u (List.mem_cons_of_mem _ hu) hvisited
    · intro next hmem
      rcases hends next (hnext ▸ hmem) with hmem | hmem
      · rcases List.mem_cons.mp hmem with heq | hmem
        · exact Or.inr (heq ▸ List.mem_cons_self)
        · exact Or.inl hmem
      · exact Or.inr (List.mem_cons_of_mem _ hmem)

/-- An instantiation of the chain that is met again has nothing to add. -/
theorem inherited_eq (h : document.Climb start chain) :
    document.inherited start chain = unlisted ((document.ownProperties start).map (·.name))
      ((chain.tail ++ (document.next? chain).toList).flatMap document.ownProperties) := by
  rw [inherited, homonym?]
  cases document.next? chain with
  | none => rfl
  | some next =>
    by_cases hmem : next ∈ chain
    · have hlisted : ∀ p ∈ document.ownProperties next,
          p.name ∈ (chain.tail.flatMap document.ownProperties).map (·.name) ++
            (document.ownProperties start).map (·.name) := by
        intro p hp
        rw [h.eq_cons] at hmem
        rcases List.mem_cons.mp hmem with rfl | hmem
        · exact List.mem_append_right _ (List.mem_map_of_mem hp)
        · exact List.mem_append_left _
            (List.mem_map_of_mem (List.mem_flatMap.mpr ⟨next, hmem, hp⟩))
      simp [Option.filter_some, hmem, unlisted_append, unlisted_eq_nil hlisted]
    · simp [Option.filter_some, hmem]

/-- Where the texts tell the instantiations above apart, the chain goes on to none but its own. -/
theorem BaseChain.mem_of_next? (h : document.BaseChain start chain)
    (hinj : Set.InjOn TypeExpr.render {t | document.Above start t}) {next : TypeExpr}
    (hnext : document.next? chain = some next) : next ∈ chain := by
  obtain ⟨t, ht, hrender⟩ := List.mem_map.mp (h.ends next hnext)
  obtain ⟨last, hlast, hparent⟩ := Option.bind_eq_some_iff.mp hnext
  have hlast : document.Above start last := h.above (List.mem_of_getLast? hlast)
  rw [← hinj (h.above ht) (hlast.tail hparent) hrender]
  exact ht

/-- With the instantiations of a chain, the chain holds their base types. -/
theorem BaseChain.mem_of_parent? (h : document.BaseChain start chain)
    (hinj : Set.InjOn TypeExpr.render {t | document.Above start t}) {t base : TypeExpr}
    (ht : t ∈ chain) (hparent : document.parent? t = some base) : base ∈ chain := by
  obtain ⟨before, after, rfl⟩ := List.append_of_mem ht
  cases after with
  | nil => exact h.mem_of_next? hinj (by simpa [next?] using hparent)
  | cons next after =>
    have hnext := (List.isChain_append_cons_cons.mp h.climbs).2.1
    rw [hparent] at hnext
    cases hnext
    simp

/-- The chain holds the instantiations above, where the texts tell these apart. -/
theorem BaseChain.mem_iff (h : document.BaseChain start chain)
    (hinj : Set.InjOn TypeExpr.render {t | document.Above start t}) {t : TypeExpr} :
    t ∈ chain ↔ document.Above start t := by
  refine ⟨h.above, fun habove => ?_⟩
  induction habove with
  | refl => exact List.mem_of_mem_head? h.starts
  | tail _ hparent ih => exact h.mem_of_parent? hinj ih hparent

/-- Well-formed expressions are told apart by their texts. -/
theorem WellFormed.injOn_render (h : document.WellFormed) (hstart : start.WellFormed) :
    Set.InjOn TypeExpr.render {t | document.Above start t} := by
  have hwellFormed : ∀ t, document.Above start t → t.WellFormed := by
    intro t ht
    induction ht with
    | refl => exact hstart
    | tail _ hparent ih => exact h.base? ih (parent?_eq_some.mp hparent).1
  exact fun t ht u hu hrender => TypeExpr.render_inj (hwellFormed t ht) (hwellFormed u hu) hrender

/-- A type whose properties are listed is described with them. -/
theorem describe?_of_listed? {t : TypeExpr} (hobject : (document.object? t).isSome)
    {properties : List DescribedProperty} (hlisted : document.listed? [] t = some properties) :
    ∃ d o, document.catalog.describe? t = some d ∧ d.object? = some o ∧
      o.properties = properties := by
  obtain ⟨⟨decl, args⟩, hobject⟩ := Option.isSome_iff_exists.mp hobject
  obtain ⟨name, rfl, htype, hlength⟩ := object?_eq_some hobject
  obtain ⟨d, hd⟩ : ∃ d, document.catalog name args = some d := by
    simp [catalog, catalogOf, htype, hlength, hlisted]
  rcases catalog_cases hd with ⟨decl', htype', -, -⟩ | ⟨decl', properties', -, -, hlisted', rfl⟩
  · rw [htype] at htype'
    cases htype'
  · rw [hlisted] at hlisted'
    cases hlisted'
    exact ⟨_, _, hd, rfl, rfl⟩

/-- The described properties of an object type are its own and then, along its chain of base types,
the first ones of each further name. -/
theorem catalog_merges_baseChain (hobject : (document.object? start).isSome)
    (hfinite : {t | document.Above start t}.Finite) :
    ∃ chain d o, document.BaseChain start chain ∧
      document.catalog.describe? start = some d ∧ d.object? = some o ∧
      o.properties = document.ownProperties start ++ document.inherited start chain ∧
      ((document.inherited start chain).map (·.name)).Nodup ∧
      (∀ p ∈ document.inherited start chain,
        p.name ∉ (document.ownProperties start).map (·.name)) ∧
      (chain ++ (document.homonym? chain).toList).Nodup ∧
      (Set.InjOn TypeExpr.render {t | document.Above start t} →
        document.homonym? chain = none ∧ ∀ t, t ∈ chain ↔ document.Above start t) := by
  obtain ⟨chain, hchain⟩ := exists_baseChain hfinite
  have hlisted : document.listed? [] start = some (document.ownProperties start ++
      document.inherited start chain) := by
    rw [inherited_eq hchain.toClimb]
    have hcons := hchain.eq_cons
    have hends := hchain.ends
    rw [hcons] at hends ⊢
    exact listed?_of_climb [] (hcons ▸ hchain.toClimb) (by simp) fun u hu => Or.inl (hends u hu)
  obtain ⟨d, o, hd, ho, hproperties⟩ := describe?_of_listed? hobject hlisted
  refine ⟨chain, d, o, hchain, hd, ho, hproperties, nodup_unlisted _ _,
    fun p hp => not_mem_of_mem_unlisted hp, ?_, fun hinj => ⟨?_, fun t => hchain.mem_iff hinj⟩⟩
  · refine (List.Nodup.of_map _ hchain.nodup).append ?_ ?_
    · cases document.homonym? chain <;> simp
    · intro t ht hhomonym
      have hhomonym : document.homonym? chain = some t := by simpa using hhomonym
      simpa [ht] using (Option.filter_eq_some_iff.mp hhomonym).2
  · refine Option.filter_eq_none_iff.mpr fun next hnext => ?_
    simpa using hchain.mem_of_next? hinj hnext

/-- A page is based on a sheet of the same items, and a sheet on a page. -/
def sheets : Document where
  types :=
    [("Page", .object
      { genericParams := ["T"], base := some (.named "Sheet" [.named "T" []])
        properties := [{ name := "items", type := .named "List" [.named "T" []] }] }),
     ("Sheet", .object
      { genericParams := ["T"], base := some (.named "Page" [.named "T" []])
        properties := [{ name := "items", type := .named "T" [] },
                       { name := "title", type := .named "string" [] }] })]

theorem sheets_merge : (sheets.object? (.named "Page" [.named "int" []])).isSome ∧
    {t | sheets.Above (.named "Page" [.named "int" []]) t}.Finite ∧
    ∃ chain d o, sheets.BaseChain (.named "Page" [.named "int" []]) chain ∧
      sheets.catalog.describe? (.named "Page" [.named "int" []]) = some d ∧ d.object? = some o ∧
      o.properties = sheets.ownProperties (.named "Page" [.named "int" []]) ++
        sheets.inherited (.named "Page" [.named "int" []]) chain := by
  have hobject : (sheets.object? (.named "Page" [.named "int" []])).isSome := by decide
  have hfinite : {t | sheets.Above (.named "Page" [.named "int" []]) t}.Finite := by
    refine (Set.toFinite {.named "Page" [.named "int" []], .named "Sheet" [.named "int" []]}).subset
      fun t ht => ?_
    induction ht with
    | refl => simp
    | tail _ hparent ih =>
      rcases ih with rfl | rfl
      · cases hparent
        exact Or.inr rfl
      · cases hparent
        exact Or.inl rfl
  obtain ⟨chain, d, o, hchain, hd, ho, hproperties, -⟩ := catalog_merges_baseChain hobject hfinite
  exact ⟨hobject, hfinite, chain, d, o, hchain, hd, ho, hproperties⟩

/-- A type that is named like an instantiation of the type on which it is based. -/
def homonyms : Document where
  types :=
    [("Page<int>", .object
      { base := some (.named "Page" [.named "int" []])
        properties := [{ name := "a", type := .named "int" [] }] }),
     ("Page", .object
      { genericParams := ["T"], base := some (.named "Root" [])
        properties := [{ name := "b", type := .named "T" [] }] }),
     ("Root", .object { properties := [{ name := "c", type := .named "int" [] }] })]

/-- Along a chain of different instantiations, not all properties need be listed: a chain is left
at a text that is met again, also when another instantiation has it. -/
theorem exists_unmerged_chain : ¬ ∀ (document : Document) (start : TypeExpr)
    (chain : List TypeExpr) (d : Description) (o : DescribedObject),
    document.catalog.describe? start = some d → d.object? = some o →
    chain.head? = some start → (chain.IsChain fun t base => document.parent? t = some base) →
    chain.Nodup → (∀ next ∈ document.next? chain, next ∈ chain) →
    o.properties = document.ownProperties start ++
      unlisted ((document.ownProperties start).map (·.name))
        (chain.tail.flatMap document.ownProperties) := by
  intro h
  have hlisted : homonyms.listedWithin 2 [] (.named "Page<int>" []) =
      some [{ name := "a", type := .named "int" [], jsonName := none, typeOverride := none
              customReviver := none },
            { name := "b", type := .named "int" [], jsonName := none, typeOverride := none
              customReviver := none }] := by decide +kernel
  obtain ⟨d, o, hd, ho, hproperties⟩ :=
    describe?_of_listed? (by decide) (listed?_of_listedWithin hlisted)
  have hmerged := h homonyms (.named "Page<int>" [])
    [.named "Page<int>" [], .named "Page" [.named "int" []], .named "Root" []] d o hd ho rfl
    (by decide +kernel) (by decide +kernel) (by decide +kernel)
  rw [hproperties] at hmerged
  exact absurd hmerged (by decide +kernel)

end Document

end DataContract
