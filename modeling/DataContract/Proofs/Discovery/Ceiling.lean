import DataContract.Proofs.Discovery.Foundation

/-!
# Discovery without generic parameters

Without generic parameters every type that is discovered is a declaration, so that each entry of the
table uses up one of finitely many names.  An addition ends because fewer names are missing after
each entry, and passes end because each one but the last adds an entry.  The greatest number of
passes then does not matter, once it exceeds the number of declarations.

Results:

* `Scope.prefix_absorb?`, `Scope.prefix_pass`: entries are added at the end only.
* `Scope.count_passes_le`: each pass but the last one adds an entry.
* `Scope.passes_of_le`: where tables cannot grow beyond a length, further passes change nothing.
* `Document.exists_absorb`: an addition ends.
* `Document.discovery_without_generics`: describing and discovery end, and what they end with.
-/

namespace DataContract

namespace Scope

variable {scope : Scope} {roots : List Candidate} {table final : Table} {limit : ℕ}

/-! ## Growth -/

/-- An addition adds at the end of the table only. -/
theorem prefix_absorb? {candidates : List Candidate}
    (h : scope.absorb? candidates table = some final) : table <+: final := by
  refine absorb?.partial_correctness scope (fun _ table final => table <+: final) ?_
    candidates table final h
  intro further ih candidates table final hstep
  split at hstep
  · exact (List.prefix_append _ _).trans (ih _ _ _ hstep)
  · cases hstep
    exact List.prefix_rfl

theorem prefix_addRoot (scope : Scope) (table : Table) (type : TypeExpr) (reason : Reason) :
    table <+: scope.addRoot table type reason := by
  rw [addRoot]
  cases hfinal : scope.absorb? (type.candidates reason) table with
  | none => exact List.prefix_rfl
  | some final => exact prefix_absorb? hfinal

theorem prefix_addRoots (scope : Scope) (roots : List Candidate) (table : Table) :
    table <+: scope.addRoots table roots := by
  induction roots generalizing table with
  | nil => exact List.prefix_rfl
  | cons c roots ih => exact (scope.prefix_addRoot table c.1 c.2).trans (ih _)

theorem prefix_pass (scope : Scope) (table : Table) : table <+: scope.pass table :=
  scope.prefix_addRoots _ table

/-- Each pass but the last one adds an entry. -/
theorem count_passes_le (scope : Scope) : ∀ (limit : ℕ) (table : Table),
    (scope.passes limit table).2 + table.length ≤ (scope.passes limit table).1.length + 1 := by
  intro limit
  induction limit with
  | zero =>
    intro table
    show 0 + table.length ≤ table.length + 1
    omega
  | succ limit ih =>
    intro table
    have hgrown := (scope.prefix_pass table).length_le
    rw [passes]
    simp only
    split_ifs with hdone
    · show 1 + table.length ≤ (scope.pass table).length + 1
      omega
    · have hrest := ih (scope.pass table)
      show (scope.passes limit (scope.pass table)).2 + 1 + table.length ≤
        (scope.passes limit (scope.pass table)).1.length + 1
      omega

/-! ## Passes beyond a length -/

/-- Where no table grows beyond a length, there are passes enough to get there from any table, and
further ones change nothing. -/
theorem passes_of_le {most : ℕ} (hmost : ∀ table, scope.Founded roots table → table.length ≤ most) :
    ∀ {limit more : ℕ} {table : Table}, scope.Founded roots table → most < limit + table.length →
      limit ≤ more → scope.passes more table = scope.passes limit table := by
  intro limit
  induction limit with
  | zero =>
    intro more table hfounded hroom
    have := hmost table hfounded
    omega
  | succ limit ih =>
    intro more table hfounded hroom hmore
    obtain ⟨more, rfl⟩ : ∃ n, more = n + 1 := ⟨more - 1, by omega⟩
    have hgrown := (scope.prefix_pass table).length_le
    rw [passes, passes]
    simp only
    split_ifs with hdone
    · rfl
    · rw [ih hfounded.pass (by omega) (by omega)]

/-! ## What the passes do not depend on -/

section Congruence

variable {other : Scope} (h : scope.newcomer? = other.newcomer?)

include h

theorem firstNewcomer?_congr : scope.firstNewcomer? = other.firstNewcomer? := by
  funext table candidates
  induction candidates with
  | nil => rfl
  | cons c candidates ih => rw [firstNewcomer?, firstNewcomer?, h, ih]

theorem absorbWithin_congr : scope.absorbWithin = other.absorbWithin := by
  funext limit
  induction limit with
  | zero => rfl
  | succ limit ih =>
    funext candidates table
    rw [absorbWithin, absorbWithin, firstNewcomer?_congr h, ih]

/-- Discovery depends on a scope only through the types that may enter a table. -/
theorem absorb?_congr : scope.absorb? = other.absorb? := by
  funext candidates table
  refine Option.ext fun final => ?_
  rw [absorb?_eq_some_iff, absorb?_eq_some_iff, absorbWithin_congr h]

theorem addRoots_congr : scope.addRoots = other.addRoots := by
  funext table roots
  simp only [addRoots, addRoot, absorb?_congr h]

theorem passes_congr : scope.passes = other.passes := by
  funext limit
  induction limit with
  | zero => rfl
  | succ limit ih =>
    funext table
    simp only [passes, pass, addRoots_congr h, ih]
    rfl

end Congruence

end Scope

namespace Document

open Scope

variable {document : Document} {config : Config} {roots : List Candidate} {table : Table}

/-! ## Declarations that are missing -/

/-- The names of declarations that the table does not hold. -/
def missing (document : Document) (table : Table) : List String :=
  (document.types.map (·.1)).filter fun name => !table.holds name

section NoParams

variable (hplain : ∀ entry ∈ document.types, ∀ decl, entry.2 = .object decl →
  decl.genericParams = [])

include hplain

/-- What enters a table is a declaration that the table does not hold. -/
theorem newcomer_mem_missing {c : Candidate} {entry : Entry}
    (h : (document.scope config).newcomer? table c = some entry) :
    entry.identity ∈ document.missing table := by
  obtain ⟨hfresh, hrender, hdescribe⟩ := newcomer?_eq_some h
  obtain ⟨declared, hdeclared, hc⟩ := exists_declared_of_admits hplain ⟨_, hdescribe⟩
  rw [hc] at hrender
  have hname : declared.1 = entry.identity := hrender
  refine List.mem_filter.mpr ⟨List.mem_map.mpr ⟨declared, hdeclared, hname⟩, ?_⟩
  rw [hfresh]
  rfl

/-- An addition ends: with each entry fewer declarations are missing. -/
theorem exists_absorb (candidates : List Candidate) (table : Table) :
    ∃ final, (document.scope config).absorb? candidates table = some final := by
  induction hmissing : (document.missing table).length using Nat.strongRecOn
    generalizing candidates table with
  | ind missing ih =>
    have hfirst := firstNewcomer?_eq (document.scope config) table candidates
    rw [absorb?]
    split
    · next entry rest hnewcomer =>
      rw [hnewcomer] at hfirst
      obtain ⟨skipped, c, -, -, hc⟩ := hfirst
      have hmem := newcomer_mem_missing hplain hc
      have hfewer : (document.missing (table ++ [entry])).length <
          (document.missing table).length := by
        have hsplit : document.missing (table ++ [entry]) =
            (document.missing table).filter (· ≠ entry.identity) := by
          rw [Document.missing, Document.missing, List.filter_filter]
          refine List.filter_congr fun name _ => ?_
          simp [Table.holds, Bool.and_comm, beq_eq_decide, eq_comm]
        rw [hsplit, List.length_filter_lt_length_iff_exists]
        exact ⟨_, hmem, by simp⟩
      exact ih _ (hmissing ▸ hfewer) _ _ rfl
    · exact ⟨table, rfl⟩

/-- Every entry of a table is a declaration. -/
theorem identity_mem_of_founded (h : (document.scope config).Founded roots table) :
    ∀ entry ∈ table, entry.identity ∈ document.types.map (·.1) := by
  intro entry hentry
  obtain ⟨earlier, later, hsplit⟩ := List.append_of_mem hentry
  obtain ⟨t, -, hrender, hdescribe⟩ := h.justified hsplit
  obtain ⟨declared, hdeclared, rfl⟩ := exists_declared_of_admits hplain ⟨_, hdescribe⟩
  exact List.mem_map.mpr ⟨declared, hdeclared, hrender⟩

/-- The table has no more entries than there are declarations. -/
theorem length_le_of_founded (h : (document.scope config).Founded roots table) :
    table.length ≤ document.types.length := by
  have hsub : table.map (·.identity) ⊆ document.types.map (·.1) := by
    intro identity hmem
    obtain ⟨entry, hentry, rfl⟩ := List.mem_map.mp hmem
    exact identity_mem_of_founded hplain h entry hentry
  simpa using (h.nodup.subperm hsub).length_le

end NoParams

/-! ## Discovery -/

/-- What discovery from these roots ends with. -/
def discoverFrom (document : Document) (config : Config) (roots : List Candidate) : Table × ℕ :=
  let scope := document.scope config
  scope.close (scope.addRoots [] roots)

/-- The greatest number of passes has no effect but on how many there may be. -/
theorem discoverFrom_limit (document : Document) (config : Config) (roots : List Candidate)
    (limit : ℕ) : document.discoverFrom { config with maxPasses := limit } roots =
      (document.scope config).passes limit ((document.scope config).addRoots [] roots) := by
  have hsame : (document.scope { config with maxPasses := limit }).newcomer? =
      (document.scope config).newcomer? := by
    funext table c
    obtain ⟨type, reason⟩ := c
    cases type <;> rfl
  rw [discoverFrom, close, passes_congr hsame, addRoots_congr hsame]
  rfl

/-- Without generic parameters a type is described and an addition ends, from whatever they start.
The table has at most one entry for each declaration and no others, there is at most one pass more
than it has entries, and a greatest number of passes that exceeds the number of declarations might
as well be greater. -/
theorem discovery_without_generics (document : Document) (config : Config) (roots : List Candidate)
    (hplain : ∀ entry ∈ document.types, ∀ decl, entry.2 = .object decl →
      decl.genericParams = []) :
    let (table, count) := document.discoverFrom config roots
    (∀ visited t, ∃ properties, document.listed? visited t = some properties) ∧
      (∀ candidates table, ∃ final,
        (document.scope config).absorb? candidates table = some final) ∧
      (table.map (·.identity)).Nodup ∧
      (∀ entry ∈ table, entry.identity ∈ document.types.map (·.1)) ∧
      count ≤ table.length + 1 ∧
      ∀ limit > document.types.length,
        document.discoverFrom { config with maxPasses := limit } roots =
          document.discoverFrom { config with maxPasses := document.types.length + 1 } roots := by
  have hstart : (document.scope config).Founded roots ((document.scope config).addRoots [] roots) :=
    Founded.nil.addRoots fun _ hc _ hu => .root hc hu
  have hfinal : (document.scope config).Founded roots (document.discoverFrom config roots).1 :=
    hstart.passes
  refine ⟨fun visited t => ?_, exists_absorb hplain, hfinal.nodup,
    identity_mem_of_founded hplain hfinal, ?_, fun limit hlimit => ?_⟩
  · obtain ⟨properties, hlisted⟩ : ∃ properties,
        document.listedWithin (document.types.length + 1) visited t = some properties :=
      exists_listedWithin hplain t (Nat.lt_succ_of_le (List.length_filter_le _ _))
    exact ⟨properties, listed?_of_listedWithin hlisted⟩
  · have hcount := (document.scope config).count_passes_le config.maxPasses
      ((document.scope config).addRoots [] roots)
    exact Nat.le_of_add_right_le hcount
  · rw [discoverFrom_limit, discoverFrom_limit]
    exact passes_of_le (fun _ => length_le_of_founded hplain) hstart (by omega) hlimit

/-- Two types that are based on each other, stand in for each other and have each other as
properties. -/
def twins : Document where
  types :=
    [("Net.Left", .object
        { base := some (.named "Net.Right" []), knownInheritors := [.named "Net.Right" []]
          properties := [{ name := "Peers", type := .array (.named "Net.Right" []) }] }),
      ("Net.Right", .object
        { base := some (.named "Net.Left" []), knownInheritors := [.named "Net.Left" []]
          properties := [{ name := "Peer", type := .named "Net.Left" [] }] })]

/-- Three passes are as good as a thousand. -/
theorem twins_passes : (∀ entry ∈ twins.types, ∀ decl, entry.2 = .object decl →
      decl.genericParams = []) ∧
    twins.discoverFrom { maxPasses := 1000 } [(.named "Net.Left" [], .manual)] =
      twins.discoverFrom { maxPasses := 3 } [(.named "Net.Left" [], .manual)] := by
  have hplain : ∀ entry ∈ twins.types, ∀ decl, entry.2 = .object decl →
      decl.genericParams = [] := by simp [twins]
  obtain ⟨-, -, -, -, -, hlimit⟩ :=
    discovery_without_generics twins {} [(.named "Net.Left" [], .manual)] hplain
  exact ⟨hplain, hlimit 1000 (by decide)⟩

end Document

end DataContract
