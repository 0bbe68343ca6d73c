import DataContract.Proofs.Discovery.Exactness

/-!
# Tables grow from what they hold

A type enters the table for a reason, and the reason is about types that are in the table already:
a root wraps it, or an earlier type has a property or a known inheritor that does.  This outlasts
whatever enters later, in the middle of a pass or behind it, so that it holds of the table that
discovery ends with.

Results:

* `Scope.Founded`: tables that have grown so.
* `Scope.Founded.absorb?`: an addition keeps a table founded.
* `Scope.Founded.passes`: so does any number of passes.
* `Scope.Founded.justified`: why each entry of such a table is there.
-/

namespace DataContract

namespace Scope

/-! ## Reasons -/

/-- The candidate has its reason: a root wraps it, or a type of the table has a property or a known
inheritor that does. -/
inductive Justified (roots : List Candidate) (table : Table) : Candidate → Prop where
  | root {c : Candidate} {u : TypeExpr} : c ∈ roots → u ∈ c.1.components →
      Justified roots table (u, c.2)
  | property {owner : Entry} {p : DescribedProperty} {u : TypeExpr} : owner ∈ table →
      p ∈ owner.description.properties → u ∈ p.type.components →
      Justified roots table (u, .propertyOf owner.identity p.name)
  | inheritor {owner : Entry} {i u : TypeExpr} : owner ∈ table →
      i ∈ owner.description.knownInheritors → u ∈ i.components →
      Justified roots table (u, .knownInheritorOf owner.identity)

variable {scope : Scope} {roots : List Candidate} {table later : Table} {c : Candidate}

/-- What enters later takes no reason away. -/
theorem Justified.mono (h : Justified roots table c) (hsub : table ⊆ later) :
    Justified roots later c := by
  cases h with
  | root hc hu => exact .root hc hu
  | property howner hp hu => exact .property (hsub howner) hp hu
  | inheritor howner hi hu => exact .inheritor (hsub howner) hi hu

/-- A type enters with the reason that it was looked at for. -/
theorem reason_of_newcomer? {entry : Entry} (h : scope.newcomer? table c = some entry) :
    entry.reason = c.2 := by
  obtain ⟨t, reason⟩ := c
  cases t with
  | void => cases h
  | array element => cases h
  | named name args =>
    simp only [newcomer?] at h
    split_ifs at h
    obtain ⟨d, -, rfl⟩ := Option.map_eq_some_iff.mp h
    rfl

/-! ## Founded tables -/

/-- The table has grown one entry after the other, each one for a reason that the table gave. -/
inductive Founded (scope : Scope) (roots : List Candidate) : Table → Prop where
  | nil : Founded scope roots []
  | concat {table : Table} {c : Candidate} {entry : Entry} : Founded scope roots table →
      Justified roots table c → scope.newcomer? table c = some entry →
      Founded scope roots (table ++ [entry])

/-- An addition of candidates that have their reasons keeps the table founded, and only adds. -/
theorem Founded.absorb? {candidates : List Candidate} {final : Table}
    (hfinal : scope.absorb? candidates table = some final) (h : scope.Founded roots table)
    (hcandidates : ∀ c ∈ candidates, Justified roots table c) :
    scope.Founded roots final ∧ table ⊆ final := by
  refine absorb?.partial_correctness scope (fun candidates table final =>
    scope.Founded roots table → (∀ c ∈ candidates, Justified roots table c) →
      scope.Founded roots final ∧ table ⊆ final) ?_ candidates table final hfinal h hcandidates
  intro further ih candidates table final hstep h hcandidates
  have hfirst := firstNewcomer?_eq scope table candidates
  split at hstep
  · rename_i entry rest hnewcomer
    rw [hnewcomer] at hfirst
    obtain ⟨skipped, c, rfl, -, hentry⟩ := hfirst
    have hsub : table ⊆ table ++ [entry] := List.subset_append_left _ _
    have hgrown : scope.Founded roots (table ++ [entry]) :=
      h.concat (hcandidates c (by simp)) hentry
    -- The inheritors come first and are there on account of the new entry; what is left keeps the
    -- reasons that it had before.
    have hnext : ∀ other ∈ inheritors entry ++ rest, Justified roots (table ++ [entry]) other := by
      intro other hother
      rcases List.mem_append.mp hother with hother | hother
      · obtain ⟨i, hi, hother⟩ := List.mem_flatMap.mp hother
        obtain ⟨u, hu, rfl⟩ := List.mem_map.mp hother
        exact .inheritor (by simp) hi hu
      · exact (hcandidates other (by simp [hother])).mono hsub
    obtain ⟨hfounded, hkept⟩ := ih _ _ _ hstep hgrown hnext
    exact ⟨hfounded, List.Subset.trans hsub hkept⟩
  · cases hstep
    exact ⟨h, fun _ hmem => hmem⟩

theorem Founded.addRoot (h : scope.Founded roots table)
    (hc : ∀ u ∈ c.1.components, Justified roots table (u, c.2)) :
    scope.Founded roots (scope.addRoot table c.1 c.2) ∧ table ⊆ scope.addRoot table c.1 c.2 := by
  unfold Scope.addRoot
  cases hfinal : scope.absorb? (c.1.candidates c.2) table with
  | none => exact ⟨h, fun _ hmem => hmem⟩
  | some final =>
    refine h.absorb? hfinal fun other hother => ?_
    obtain ⟨u, hu, rfl⟩ := List.mem_map.mp hother
    exact hc u hu

/-- Adding what several expressions wrap keeps the table founded, if each of them has its reason in
it at the start. -/
theorem Founded.addRoots : ∀ {added : List Candidate} {table : Table},
    scope.Founded roots table →
    (∀ c ∈ added, ∀ u ∈ c.1.components, Justified roots table (u, c.2)) →
    scope.Founded roots (scope.addRoots table added) := by
  intro added
  induction added with
  | nil => intro table h _; exact h
  | cons c added ih =>
    intro table h hadded
    obtain ⟨hgrown, hsub⟩ := h.addRoot (hadded c (by simp))
    refine ih hgrown fun other hother u hu => ?_
    exact (hadded other (by simp [hother]) u hu).mono hsub

theorem Founded.pass (h : scope.Founded roots table) : scope.Founded roots (scope.pass table) := by
  refine h.addRoots fun c hc u hu => ?_
  obtain ⟨owner, howner, hc⟩ := List.mem_flatMap.mp hc
  obtain ⟨p, hp, rfl⟩ := List.mem_map.mp hc
  exact .property howner hp hu

theorem Founded.passes : ∀ {limit : ℕ} {table : Table}, scope.Founded roots table →
    scope.Founded roots (scope.passes limit table).1 := by
  intro limit
  induction limit with
  | zero => intro table h; exact h
  | succ limit ih =>
    intro table h
    rw [Scope.passes]
    simp only
    split_ifs
    · exact h.pass
    · exact ih h.pass

/-! ## What is known of the entries -/

/-- An entry has the reason that the entries before it give, and holds what is known of its
type. -/
theorem Founded.justified (h : scope.Founded roots table) : ∀ {earlier : Table} {entry : Entry}
    {later : Table}, table = earlier ++ entry :: later →
    ∃ t, Justified roots earlier (t, entry.reason) ∧ t.render = entry.identity ∧
      scope.describe? t = some entry.description := by
  induction h with
  | nil => intro earlier entry later hsplit; simp at hsplit
  | @concat table c last _ hjustified hnew ih =>
    intro earlier entry later hsplit
    rcases List.eq_nil_or_concat later with rfl | ⟨rest, final, rfl⟩
    · obtain ⟨rfl, hlast⟩ := List.append_inj' hsplit rfl
      obtain rfl : last = entry := List.head_eq_of_cons_eq hlast
      obtain ⟨-, hrender, hdescribe⟩ := newcomer?_eq_some hnew
      refine ⟨c.1, ?_, hrender, hdescribe⟩
      rw [reason_of_newcomer? hnew]
      exact hjustified
    · rw [List.concat_eq_append, ← List.cons_append, ← List.append_assoc] at hsplit
      exact ih (List.append_inj' hsplit rfl).1

/-- The entries have distinct identities. -/
theorem Founded.nodup (h : scope.Founded roots table) : (table.map (·.identity)).Nodup := by
  induction h with
  | nil => exact .nil
  | @concat table c entry _ _ hnew ih =>
    obtain ⟨hfresh, -, -⟩ := newcomer?_eq_some hnew
    have hnotmem : entry.identity ∉ table.map (·.identity) := by
      intro hmem
      obtain ⟨other, hother, hsame⟩ := List.mem_map.mp hmem
      rw [holds_eq_true.mpr ⟨other, hother, hsame⟩] at hfresh
      cases hfresh
    rw [List.map_append, List.map_singleton, List.nodup_append]
    refine ⟨ih, by simp, fun other hother identity hidentity => ?_⟩
    obtain rfl := List.mem_singleton.mp hidentity
    rintro rfl
    exact hnotmem hother

end Scope

end DataContract
