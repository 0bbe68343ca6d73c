import DataContract.Proofs.Naming.Inheritance
import Mathlib.Algebra.BigOperators.Group.Finset.Basic
import Mathlib.Algebra.Order.BigOperators.Group.Finset
import Mathlib.Data.Finset.Card

/-!
# Superclasses first

Classes are put behind their superclasses by moves, and a move can bring other classes before
their own superclasses.  The moves end all the same: give each class as weight the number of
classes that inherit from it, itself counted.  A move puts right the class that it moves, and puts
wrong at most classes that inherit from it directly, which weigh less than that class together.

Results:

* `Settles`: the moves until every class stands behind its superclass.
* `settles_settle`: without cycles the moves end within the limit.
* `settles_declarationOrder`: the order of declaration is what the moves end with.
* `Settles.perm`, `Settles.inOrder`: what they end with.
-/

namespace DataContract

open Relation (ReflTransGen TransGen)

/-! ## Moves -/

/-- The moves lead from the first classes to the second ones, which are settled. -/
inductive Settles : List ModelClass → List ModelClass → Prop where
  | nil : Settles [] []
  /-- The superclass does not stand behind the first class, which keeps its place. -/
  | place {c : ModelClass} {rest settled : List ModelClass} :
      insertBehindParent? c rest = none → Settles rest settled → Settles (c :: rest) (c :: settled)
  /-- The first class moves behind its superclass, and what is first then is looked at. -/
  | move {c : ModelClass} {rest moved settled : List ModelClass} :
      insertBehindParent? c rest = some moved → Settles moved settled → Settles (c :: rest) settled

/-- No class stands before its superclass. -/
def InOrder (classes : List ModelClass) : Prop :=
  classes.Pairwise fun c d => c.superclass ≠ some d.name

theorem insertBehindParent?_eq_none {c : ModelClass} {rest : List ModelClass} :
    insertBehindParent? c rest = none ↔ ∀ d ∈ rest, c.superclass ≠ some d.name := by
  induction rest with
  | nil => simp [insertBehindParent?]
  | cons other rest ih =>
    rw [insertBehindParent?]
    split_ifs with hparent
    · simp [hparent]
    · rw [Option.map_eq_none_iff, ih]
      simp [hparent]

theorem perm_of_insertBehindParent? {c : ModelClass} :
    ∀ {rest moved : List ModelClass}, insertBehindParent? c rest = some moved →
      moved.Perm (c :: rest) := by
  intro rest
  induction rest with
  | nil => intro moved h; cases h
  | cons other rest ih =>
    intro moved h
    rw [insertBehindParent?] at h
    split_ifs at h with hparent
    · cases h
      exact .swap c other rest
    · obtain ⟨more, hmore, rfl⟩ := Option.map_eq_some_iff.mp h
      exact ((ih hmore).cons other).trans (.swap c other rest)

namespace Settles

variable {classes settled : List ModelClass}

/-- The moves keep the classes. -/
theorem perm (h : Settles classes settled) : settled.Perm classes := by
  induction h with
  | nil => exact .refl []
  | place _ _ ih => exact ih.cons _
  | move hmove _ ih => exact ih.trans (perm_of_insertBehindParent? hmove)

/-- The moves end with no class before its superclass. -/
theorem inOrder (h : Settles classes settled) : InOrder settled := by
  induction h with
  | nil => exact .nil
  | place hnone hrest ih =>
    refine .cons ?_ ih
    intro d hd
    exact insertBehindParent?_eq_none.mp hnone d (hrest.perm.mem_iff.mp hd)
  | move _ _ ih => exact ih

end Settles

/-! ## Disorder -/

/-- The weights of the classes that stand before their superclasses. -/
def disorder (weight : String → ℕ) : List ModelClass → ℕ
  | [] => 0
  | c :: rest =>
    (if ∃ d ∈ rest, c.superclass = some d.name then weight c.name else 0) + disorder weight rest

/-- The weights of the classes that inherit from `c` directly. -/
def childWeight (weight : String → ℕ) (c : ModelClass) : List ModelClass → ℕ
  | [] => 0
  | d :: rest =>
    (if d.superclass = some c.name then weight d.name else 0) + childWeight weight c rest

theorem disorder_move (weight : String → ℕ) {c : ModelClass} :
    ∀ {rest moved : List ModelClass}, (classNames rest).Nodup →
      insertBehindParent? c rest = some moved →
      disorder weight moved ≤ disorder weight rest + childWeight weight c rest := by
  intro rest
  induction rest with
  | nil => intro moved _ h; cases h
  | cons other rest ih =>
    intro moved hnodup h
    obtain ⟨hother, hrest⟩ := List.nodup_cons.mp hnodup
    have hpast : ∀ moved : List ModelClass, moved.Perm (c :: rest) →
        (if ∃ d ∈ moved, other.superclass = some d.name then weight other.name else 0) ≤
          (if ∃ d ∈ rest, other.superclass = some d.name then weight other.name else 0) +
            (if other.superclass = some c.name then weight other.name else 0) := by
      intro moved hperm
      by_cases hmoved : ∃ d ∈ moved, other.superclass = some d.name
      · rw [if_pos hmoved]
        obtain ⟨d, hd, hsuper⟩ := hmoved
        rcases List.mem_cons.mp (hperm.mem_iff.mp hd) with rfl | hd
        · rw [if_pos hsuper]
          omega
        · rw [if_pos ⟨d, hd, hsuper⟩]
          omega
      · rw [if_neg hmoved]
        exact Nat.zero_le _
    rw [insertBehindParent?] at h
    split_ifs at h with hparent
    · cases h
      -- Names are distinct, so no second superclass stands behind the class at its new place.
      have hsettled : ¬ ∃ d ∈ rest, c.superclass = some d.name := by
        rintro ⟨d, hd, hsuper⟩
        have hname : other.name = d.name := Option.some.inj (hparent.symm.trans hsuper)
        exact hother (List.mem_map.mpr ⟨d, hd, hname.symm⟩)
      have hle := hpast (c :: rest) (.refl _)
      simp only [disorder, childWeight, if_neg hsettled]
      omega
    · obtain ⟨more, hmore, rfl⟩ := Option.map_eq_some_iff.mp h
      have hle := hpast more (perm_of_insertBehindParent? hmore)
      have hlater := ih hrest hmore
      simp only [disorder, childWeight]
      omega

/-- A class outweighs those that inherit from it directly. -/
def Weighs (classes : List ModelClass) (weight : String → ℕ) : Prop :=
  ∀ c ∈ classes, ∀ rest ⊆ classes, (classNames rest).Nodup →
    childWeight weight c rest < weight c.name

/-- Within a limit of the disorder and the number of classes the moves end. -/
theorem settles_settle {all : List ModelClass} {weight : String → ℕ} (hweight : Weighs all weight) :
    ∀ (limit : ℕ) (classes : List ModelClass), classes ⊆ all → (classNames classes).Nodup →
      disorder weight classes + classes.length ≤ limit →
      Settles classes (settle limit classes) := by
  intro limit
  induction limit with
  | zero =>
    intro classes _ _ hlimit
    obtain rfl : classes = [] := List.eq_nil_of_length_eq_zero (by omega)
    exact .nil
  | succ limit ih =>
    intro classes hsub hnodup hlimit
    cases classes with
    | nil => exact .nil
    | cons c rest =>
      obtain ⟨hc, hrest⟩ := List.cons_subset.mp hsub
      have hnodupRest : (classNames rest).Nodup := (List.nodup_cons.mp hnodup).2
      rw [settle]
      rw [disorder, List.length_cons] at hlimit
      cases hmove : insertBehindParent? c rest with
      | none =>
        refine .place hmove (ih rest hrest hnodupRest ?_)
        omega
      | some moved =>
        have hperm := perm_of_insertBehindParent? hmove
        have hahead : ∃ d ∈ rest, c.superclass = some d.name := by
          by_contra hnone
          push Not at hnone
          rw [insertBehindParent?_eq_none.mpr hnone] at hmove
          cases hmove
        have hless := disorder_move weight hnodupRest hmove
        have hchildren := hweight c hc rest hrest hnodupRest
        rw [if_pos hahead] at hlimit
        refine .move hmove (ih moved ?_ ?_ ?_)
        · intro d hd
          exact hsub (hperm.mem_iff.mp hd)
        · exact (hperm.map _).nodup_iff.mpr hnodup
        · rw [hperm.length_eq, List.length_cons]
          omega

/-! ## Weights -/

section Weights

variable {classes : List ModelClass}

open Classical in
/-- The classes that inherit from a class, itself counted. -/
noncomputable def descendants (classes : List ModelClass) (name : String) : Finset String :=
  (classNames classes).toFinset.filter fun d => ReflTransGen (Inherits classes) d name

/-- How many classes inherit from a class, itself counted. -/
noncomputable def weight (classes : List ModelClass) (name : String) : ℕ :=
  (descendants classes name).card

theorem mem_descendants {name d : String} : d ∈ descendants classes name ↔
    d ∈ classNames classes ∧ ReflTransGen (Inherits classes) d name := by
  simp only [descendants, Finset.mem_filter, List.mem_toFinset]

theorem weight_le (name : String) : weight classes name ≤ classes.length := by
  calc weight classes name
      ≤ (classNames classes).toFinset.card := by
        refine Finset.card_le_card fun d hd => ?_
        exact List.mem_toFinset.mpr (mem_descendants.mp hd).1
    _ ≤ (classNames classes).length := List.toFinset_card_le _
    _ = classes.length := List.length_map _

theorem disorder_le (weight : String → ℕ) {bound : ℕ} (h : ∀ name, weight name ≤ bound) :
    ∀ classes, disorder weight classes ≤ classes.length * bound := by
  intro classes
  induction classes with
  | nil => simp [disorder]
  | cons c rest ih =>
    rw [disorder, List.length_cons, Nat.succ_mul]
    have hc := h c.name
    split_ifs <;> omega

/-- The names of the classes that inherit from `c` directly. -/
def childNames (c : ModelClass) (rest : List ModelClass) : List String :=
  classNames (rest.filter fun d => d.superclass = some c.name)

theorem childWeight_eq_sum (weight : String → ℕ) (c : ModelClass) {rest : List ModelClass}
    (hnodup : (classNames rest).Nodup) :
    childWeight weight c rest = ∑ name ∈ (childNames c rest).toFinset, weight name := by
  have hchildren : (childNames c rest).Nodup := hnodup.sublist (List.filter_sublist.map _)
  rw [List.sum_toFinset weight hchildren]
  induction rest with
  | nil => rfl
  | cons d rest ih =>
    have hrest := (List.nodup_cons.mp hnodup).2
    rw [childWeight, ih hrest (hrest.sublist (List.filter_sublist.map _))]
    by_cases hchild : d.superclass = some c.name
    · simp [childNames, hchild]
    · simp [childNames, hchild]

/-- No class inherits from two classes that both inherit from a third one directly. -/
theorem disjoint_descendants (hnodup : (classNames classes).Nodup) (hacyclic : Acyclic classes)
    {a b c : String} (ha : Inherits classes a c) (hb : Inherits classes b c) (hne : a ≠ b) :
    Disjoint (descendants classes a) (descendants classes b) := by
  have hapart : ∀ {a b}, Inherits classes a c → Inherits classes b c →
      ReflTransGen (Inherits classes) a b → a = b := by
    intro a b ha hb hab
    rcases ReflTransGen.cases_head hab with heq | ⟨mid, hmid, hrest⟩
    · exact heq
    · obtain rfl := inherits_rightUnique hnodup ha hmid
      exact absurd (TransGen.tail' hrest hb) (hacyclic c)
  rw [Finset.disjoint_left]
  intro d hda hdb
  rw [mem_descendants] at hda hdb
  rcases ReflTransGen.total_of_right_unique (inherits_rightUnique hnodup) hda.2 hdb.2 with h | h
  · exact hne (hapart ha hb h)
  · exact hne (hapart hb ha h).symm

/-- Without cycles a superclass outweighs the class that inherits from it. -/
theorem weight_lt (hacyclic : Acyclic classes) {a b : String} (h : Inherits classes a b)
    (hb : b ∈ classNames classes) : weight classes a < weight classes b := by
  refine Finset.card_lt_card ⟨?_, ?_⟩
  · intro d hd
    rw [mem_descendants] at hd ⊢
    exact ⟨hd.1, hd.2.tail h⟩
  · intro hsub
    have hself : b ∈ descendants classes b := mem_descendants.mpr ⟨hb, .refl⟩
    exact hacyclic b (TransGen.tail' (mem_descendants.mp (hsub hself)).2 h)

/-- Without cycles a class outweighs those that inherit from it directly. -/
theorem weighs_weight (hnodup : (classNames classes).Nodup) (hacyclic : Acyclic classes) :
    Weighs classes (weight classes) := by
  intro c hc rest hrest hnodupRest
  have hchild : ∀ name ∈ (childNames c rest).toFinset, Inherits classes name c.name := by
    intro name hname
    obtain ⟨d, hd, rfl⟩ := List.mem_map.mp (List.mem_toFinset.mp hname)
    rw [List.mem_filter, decide_eq_true_eq] at hd
    exact ⟨d, hrest hd.1, rfl, hd.2⟩
  have hdisjoint :
      ((childNames c rest).toFinset : Set String).PairwiseDisjoint (descendants classes) := by
    intro a ha b hb hne
    exact disjoint_descendants hnodup hacyclic (hchild a ha) (hchild b hb) hne
  have hbelow : (childNames c rest).toFinset.biUnion (descendants classes) ⊂
      descendants classes c.name := by
    refine ⟨?_, ?_⟩
    · intro d hd
      obtain ⟨name, hname, hd⟩ := Finset.mem_biUnion.mp hd
      rw [mem_descendants] at hd ⊢
      exact ⟨hd.1, hd.2.tail (hchild name hname)⟩
    · intro hsub
      have hself : c.name ∈ descendants classes c.name :=
        mem_descendants.mpr ⟨List.mem_map_of_mem hc, .refl⟩
      obtain ⟨name, hname, hd⟩ := Finset.mem_biUnion.mp (hsub hself)
      exact hacyclic c.name (TransGen.tail' (mem_descendants.mp hd).2 (hchild name hname))
  calc childWeight (weight classes) c rest
      = ∑ name ∈ (childNames c rest).toFinset, weight classes name :=
        childWeight_eq_sum _ c hnodupRest
    _ = ((childNames c rest).toFinset.biUnion (descendants classes)).card :=
        (Finset.card_biUnion hdisjoint).symm
    _ < weight classes c.name := Finset.card_lt_card hbelow

end Weights

/-! ## The order of declaration -/

theorem perm_sortByName (classes : List ModelClass) : (sortByName classes).Perm classes :=
  List.mergeSort_perm classes _

/-- The moves end, and what they end with is the order of declaration. -/
theorem settles_declarationOrder {classes : List ModelClass}
    (hnodup : (classNames classes).Nodup) :
    Settles (sortByName (breakCycles classes)) (declarationOrder classes) := by
  have hperm := perm_sortByName (breakCycles classes)
  have hcut := breakCycles_cut classes
  have hnames : (classNames (sortByName (breakCycles classes))).Nodup := by
    rw [← hcut.classNames_eq] at hnodup
    exact (hperm.map _).nodup_iff.mpr hnodup
  have hacyclic : Acyclic (sortByName (breakCycles classes)) :=
    (acyclic_breakCycles hnodup).of_perm hperm.symm
  have hlength : (sortByName (breakCycles classes)).length = classes.length := by
    rw [hperm.length_eq]
    exact hcut.length_eq.symm
  refine settles_settle (weighs_weight hnames hacyclic) _ _ (List.Subset.refl _) hnames ?_
  have hdisorder := disorder_le (weight (sortByName (breakCycles classes)))
    (fun name => weight_le name) (sortByName (breakCycles classes))
  rw [hlength] at hdisorder ⊢
  rw [Nat.mul_succ]
  omega

end DataContract
