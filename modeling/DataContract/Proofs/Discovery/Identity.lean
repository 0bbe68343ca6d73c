import DataContract.Proofs.Discovery.Agreement
import DataContract.Proofs.Discovery.Foundation

/-!
# Identities of types

The canonical text of a type is the key under which it is discovered and named.  A text that is read
spells only what is read from it, and generic parameters are replaced by what has been read, so that
no type comes up whose canonical text would be read as another one.

Results:

* `TypeExpr.obtained_iff`: the expressions that come up are the well-formed ones.
* `Scope.Founded.exists_wellFormed`: an entry of a document's table is made for such an expression.
* `Table.lookup_names`: an entry is found under its identity, with its own name.
* `identity_exact`: what the canonical text of a type is the key of.
-/

namespace DataContract

namespace TypeExpr

/-- An expression that is read from a text, or made of such ones by replacing generic parameters. -/
inductive Obtained : TypeExpr → Prop where
  | read {text : String} {t : TypeExpr} : parse text = .ok t → Obtained t
  | substitute {t : TypeExpr} {params : List String} {args : List TypeExpr} : Obtained t →
      (∀ arg ∈ args, Obtained arg) → Obtained (t.substitute params args)

/-- The expressions that come up are the well-formed ones. -/
theorem obtained_iff {t : TypeExpr} : t.Obtained ↔ t.WellFormed := by
  constructor
  · intro h
    induction h with
    | read h => exact .of_parse h
    | substitute _ _ ih ihargs => exact WellFormed.substitute ihargs _ ih
  · exact fun h => .read (parse_render h)

end TypeExpr

/-! ## Entries of a table -/

/-- An entry is made for a well-formed type: the roots are well formed, and so is whatever is known
of a type that is. -/
theorem Scope.Founded.exists_wellFormed {document : Document} {config : Config}
    {roots : List Candidate} {table : Table} (hdoc : document.WellFormed)
    (hroots : ∀ c ∈ roots, c.1.WellFormed) (h : (document.scope config).Founded roots table) :
    ∀ entry ∈ table, ∃ t : TypeExpr, t.WellFormed ∧ t.render = entry.identity ∧
      (document.scope config).describe? t = some entry.description := by
  induction h with
  | nil => intro entry hentry; cases hentry
  | @concat table c last _ hjustified hnew ih =>
    intro entry hentry
    rcases List.mem_append.mp hentry with hentry | hentry
    · exact ih entry hentry
    · obtain rfl := List.mem_singleton.mp hentry
      obtain ⟨-, hrender, hdescribe⟩ := newcomer?_eq_some hnew
      refine ⟨c.1, ?_, hrender, hdescribe⟩
      cases hjustified with
      | root hc hu => exact (hroots _ hc).of_mem_components hu
      | property howner hp hu =>
        obtain ⟨s, hs, -, hknown⟩ := ih _ howner
        exact ((wellFormed_of_describe? hdoc hs hknown).property _ hp).of_mem_components hu
      | inheritor howner hi hu =>
        obtain ⟨s, hs, -, hknown⟩ := ih _ howner
        exact ((wellFormed_of_describe? hdoc hs hknown).knownInheritor _ hi).of_mem_components hu

namespace Table

variable {table : Table}

theorem entry?_identity (hnodup : (table.map (·.identity)).Nodup) {entry : Entry}
    (h : entry ∈ table) : table.entry? entry.identity = some entry :=
  find?_key hnodup h

/-- An entry has its own name under its identity. -/
theorem lookup_names (hnodup : (table.map (·.identity)).Nodup) {entry : Entry} {name : String}
    (h : (entry, name) ∈ table.named) :
    table.names.lookup entry.identity = some ⟨name, entry.description.assignedKind⟩ := by
  rw [← table.map_fst_named, List.map_map] at hnodup
  have hfind := find?_key (k := fun p : Entry × String => p.1.identity) hnodup h
  rw [names_lookup, hfind, Option.map_some]

end Table

/-- What is read from a text, or comes from it by replacing generic parameters, is read back from
its canonical text, so that this text is the one of a single type.  In a table of the types of a
document, whatever has been added, every entry is therefore that of one type: it is found with its
name under the canonical text of that type, and that is the text of no other type. -/
theorem identity_exact :
    (∀ t : TypeExpr, t.Obtained → TypeExpr.parse t.render = .ok t) ∧
    (∀ t u : TypeExpr, t.Obtained → u.Obtained → t.render = u.render → t = u) ∧
    ∀ (document : Document) (config : Config) (roots : List Candidate), document.WellFormed →
      (∀ c ∈ roots, c.1.Obtained) →
      let scope := document.scope config
      let table := (scope.close (scope.addRoots [] roots)).1
      ∀ entry name, (entry, name) ∈ table.named → ∃ t : TypeExpr, t.Obtained ∧
        scope.describe? t = some entry.description ∧
        table.entry? t.render = some entry ∧
        table.names.lookup t.render = some ⟨name, entry.description.assignedKind⟩ ∧
        ∀ u : TypeExpr, u.Obtained → u.render = entry.identity → u = t := by
  have hinj : ∀ t u : TypeExpr, t.Obtained → u.Obtained → t.render = u.render → t = u :=
    fun t u ht hu =>
      TypeExpr.render_inj (TypeExpr.obtained_iff.mp ht) (TypeExpr.obtained_iff.mp hu)
  refine ⟨fun t ht => TypeExpr.parse_render (TypeExpr.obtained_iff.mp ht), hinj, ?_⟩
  intro document config roots hdoc hroots scope table entry name hnamed
  have hfounded : scope.Founded roots table :=
    (Scope.Founded.nil.addRoots fun _ hc _ hu => .root hc hu).passes
  have hentry : entry ∈ table := by
    rw [← table.map_fst_named]
    exact List.mem_map_of_mem hnamed
  obtain ⟨t, ht, hrender, hdescribe⟩ := hfounded.exists_wellFormed hdoc
    (fun c hc => TypeExpr.obtained_iff.mp (hroots c hc)) entry hentry
  have hobtained := TypeExpr.obtained_iff.mpr ht
  refine ⟨t, hobtained, hdescribe, ?_, ?_, ?_⟩
  · rw [hrender]
    exact Table.entry?_identity hfounded.nodup hentry
  · rw [hrender]
    exact Table.lookup_names hfounded.nodup hnamed
  · exact fun u hu hsame => hinj u t hu hobtained (hsame.trans hrender.symm)

namespace Document

/-- The text of a page of lists of links, which comes from a page of anything, is that of no other
type, and links are found under the text of their type. -/
theorem links_identity :
    (∀ u : TypeExpr, u.Obtained → u.render = "Page<Shop.Link[]>" →
      u = .named "Page" [.array (.named "Shop.Link" [])]) ∧
    ∃ t : TypeExpr, t.Obtained ∧ t.render = "Shop.Link" ∧
      Table.entry? (links.discover {}).1 t.render = some linkEntry ∧
      (links.discover {}).1.names.lookup t.render = some ⟨"Link", .object⟩ := by
  refine ⟨?_, ?_⟩
  · have hpage : (TypeExpr.named "Page" [.array (.named "Shop.Link" [])]).Obtained := by
      have hany : TypeExpr.parse "Page<T>" = .ok (.named "Page" [.named "T" []]) := rfl
      have hlinks : TypeExpr.parse "Shop.Link[]" = .ok (.array (.named "Shop.Link" [])) := rfl
      show ((TypeExpr.named "Page" [.named "T" []]).substitute ["T"]
        [.array (.named "Shop.Link" [])]).Obtained
      exact .substitute (.read hany) (List.forall_mem_singleton.mpr (.read hlinks))
    exact fun u hu hrender => identity_exact.2.1 u _ hu hpage hrender
  · have hroots : ∀ c ∈ links.roots {}, c.1.Obtained := by
      have hlist : TypeExpr.parse "List<Shop.Link>" =
          .ok (.named "List" [.named "Shop.Link" []]) := rfl
      rw [links_roots, List.forall_mem_singleton]
      exact .read hlist
    have hnamed : (linkEntry, "Link") ∈ (links.discover {}).1.named := by
      rw [links_discover]
      decide +kernel
    obtain ⟨t, ht, -, hentry, hname, hunique⟩ :=
      identity_exact.2.2 links {} (links.roots {}) links_wellFormed hroots _ _ hnamed
    have hlink : TypeExpr.parse "Shop.Link" = .ok (.named "Shop.Link" []) := rfl
    refine ⟨t, ht, ?_, hentry, hname⟩
    rw [← hunique _ (.read hlink) rfl]
    rfl

end Document

end DataContract
