import DataContract.Proofs.Naming.Declarations
import Mathlib.Algebra.Group.Nat.Even

/-!
# The order of siblings

Classes are in the order of their names before those that stand before their superclasses are moved.
A class is moved directly behind its superclass, and so in front of the siblings that were moved
there before.  When the superclass is moved itself later on, its subclasses follow it and are turned
round again.  What counts in the end are the superclasses with a name that is greater than the names
of the siblings and of all superclasses below: each of them turns the siblings round once.

Results:

* `rises`: how often, along some names, one comes up that stands behind all before it.
* `rises_moved`, `rises_mover`: what a move does to that number.
* `TurnedByRises.place`, `TurnedByRises.move`: what one step does to the order of siblings.
* `Settles.turnedByRises`: what all steps do.
* `Table.siblings_in_order_iff`: when two siblings are declared in the order of their names.
-/

namespace DataContract

open Relation (ReflTransGen TransGen)

/-! ## The order of names -/

/-- The name `a` stands before the name `b`. -/
def Ahead (names : List String) (a b : String) : Prop := [a, b].Sublist names

instance (names : List String) : DecidableRel (Ahead names) :=
  fun a b => inferInstanceAs (Decidable ([a, b].Sublist names))

section Ahead

variable {names : List String} {name a b : String}

theorem ahead_cons : Ahead (name :: names) a b ↔ (a = name ∧ b ∈ names) ∨ Ahead names a b := by
  rw [Ahead, List.sublist_cons_iff, or_comm]
  refine or_congr_left ⟨?_, ?_⟩
  · rintro ⟨rest, heq, hrest⟩
    obtain ⟨rfl, rfl⟩ := List.cons.inj heq
    exact ⟨rfl, List.singleton_sublist.mp hrest⟩
  · rintro ⟨rfl, hb⟩
    exact ⟨[b], rfl, List.singleton_sublist.mpr hb⟩

theorem ahead_cons_of_ne (ha : a ≠ name) : Ahead (name :: names) a b ↔ Ahead names a b := by
  simp [ahead_cons, ha]

theorem Ahead.left_mem (h : Ahead names a b) : a ∈ names := h.subset (by simp)

theorem Ahead.right_mem (h : Ahead names a b) : b ∈ names := h.subset (by simp)

theorem Ahead.ne (hnodup : names.Nodup) (h : Ahead names a b) : a ≠ b := by
  rintro rfl
  exact List.nodup_iff_sublist.mp hnodup a h

/-- Of two names one stands before the other. -/
theorem ahead_iff_not (hnodup : names.Nodup) (ha : a ∈ names) (hb : b ∈ names) (hne : a ≠ b) :
    Ahead names a b ↔ ¬ Ahead names b a := by
  induction names with
  | nil => cases ha
  | cons name names ih =>
    obtain ⟨hname, hrest⟩ := List.nodup_cons.mp hnodup
    rw [ahead_cons, ahead_cons]
    rcases List.mem_cons.mp ha with rfl | hmem
    · have hmem := (List.mem_cons.mp hb).resolve_left hne.symm
      have hnone : ¬ Ahead names b a := fun h => hname h.right_mem
      simp [hmem, hne.symm, hnone]
    · rcases List.mem_cons.mp hb with rfl | hmem'
      · have hnone : ¬ Ahead names a b := fun h => hname h.right_mem
        simp [hmem, hne, hnone]
      · have hna : a ≠ name := ne_of_mem_of_not_mem hmem hname
        have hnb : b ≠ name := ne_of_mem_of_not_mem hmem' hname
        simpa [hna, hnb] using ih hrest hmem hmem'

end Ahead

/-! ## Rises -/

/-- How often a name comes up that stands behind `top` and all that came up before. -/
def rises (ahead : String → String → Prop) [DecidableRel ahead] (top : String) : List String → ℕ
  | [] => 0
  | name :: rest => if ahead top name then rises ahead name rest + 1 else rises ahead top rest

section Rises

variable {ahead ahead' : String → String → Prop} [DecidableRel ahead] [DecidableRel ahead']

/-- The number depends only on what stands behind the names that come up. -/
theorem rises_congr {p : String → Prop} : ∀ {names : List String} {top top' : String},
    (∀ a, p a → ∀ b ∈ names, (ahead' a b ↔ ahead a b) ∧ (ahead a b → p b)) →
    (∀ b ∈ names, (ahead' top' b ↔ ahead top b) ∧ (ahead top b → p b)) →
    rises ahead' top' names = rises ahead top names := by
  intro names
  induction names with
  | nil => intros; rfl
  | cons name names ih =>
    intro top top' hstep htop
    have hlater : ∀ a, p a → ∀ b ∈ names, (ahead' a b ↔ ahead a b) ∧ (ahead a b → p b) :=
      fun a ha b hb => hstep a ha b (List.mem_cons_of_mem name hb)
    obtain ⟨hsame, hkept⟩ := htop name List.mem_cons_self
    rw [rises, rises]
    by_cases hrise : ahead top name
    · rw [if_pos hrise, if_pos (hsame.mpr hrise), ih hlater (hlater name (hkept hrise))]
    · rw [if_neg hrise, if_neg (mt hsame.mp hrise)]
      exact ih hlater fun b hb => htop b (List.mem_cons_of_mem name hb)

theorem rises_eq_zero {top : String} : ∀ {names : List String}, (∀ b ∈ names, ¬ ahead top b) →
    rises ahead top names = 0 := by
  intro names
  induction names with
  | nil => intro _; rfl
  | cons name names ih =>
    intro h
    rw [rises, if_neg (h name List.mem_cons_self)]
    exact ih fun b hb => h b (List.mem_cons_of_mem name hb)

/-- Where nothing stands before it, the first name does not count. -/
theorem rises_cons {names ups : List String} {name top : String} (hname : name ∉ names)
    (htop : top ≠ name) :
    rises (Ahead (name :: names)) top ups = rises (Ahead names) top ups := by
  have hstep : ∀ a, a ≠ name → ∀ b ∈ ups,
      (Ahead (name :: names) a b ↔ Ahead names a b) ∧ (Ahead names a b → b ≠ name) := by
    intro a ha b _
    exact ⟨ahead_cons_of_ne ha, fun h => ne_of_mem_of_not_mem h.right_mem hname⟩
  exact rises_congr (p := (· ≠ name)) hstep (hstep top htop)

end Rises

/-! ## Superclasses -/

/-- Up from the class of a name, these are the names of its superclasses. -/
inductive Lineage (classes : List ModelClass) : String → List String → Prop where
  | root {a : String} : superclassOf classes a = none → Lineage classes a []
  | up {a b : String} {ups : List String} : superclassOf classes a = some b →
      Lineage classes b ups → Lineage classes a (b :: ups)

namespace Lineage

variable {classes : List ModelClass} {a b : String} {ups : List String}

theorem transGen (hnodup : (classNames classes).Nodup) (h : Lineage classes a ups) :
    ∀ u ∈ ups, TransGen (Inherits classes) a u := by
  induction h with
  | root _ => intro u hu; cases hu
  | up hsuper _ ih =>
    have hedge := (superclassOf_eq_some hnodup).mp hsuper
    intro u hu
    rcases List.mem_cons.mp hu with rfl | hu
    · exact .single hedge
    · exact .head hedge (ih u hu)

theorem congr (h : Lineage classes a ups)
    (hsame : superclassOf classes b = superclassOf classes a) : Lineage classes b ups := by
  cases h with
  | root hnone => exact .root (hsame.trans hnone)
  | up hsuper hups => exact .up (hsame.trans hsuper) hups

/-- The lineage of a class begins with its superclass. -/
theorem exists_of_superclass (h : Lineage classes a ups)
    (hsuper : superclassOf classes a = some b) :
    ∃ more, ups = b :: more ∧ Lineage classes b more := by
  cases h with
  | root hnone => exact absurd (hnone.symm.trans hsuper) (by simp)
  | up hother hups =>
    obtain rfl := Option.some.inj (hother.symm.trans hsuper)
    exact ⟨_, rfl, hups⟩

end Lineage

/-! ## One move -/

/-- From the one order to the other a name is moved from the front to directly behind another
one. -/
structure MovedBehind (name parent : String) (rest moved : List String) : Prop where
  perm : moved.Perm (name :: rest)
  mem : parent ∈ rest
  others : ∀ {a b}, a ≠ name → b ≠ name → (Ahead moved a b ↔ Ahead rest a b)
  before : ∀ {a}, a ≠ name → (Ahead moved a name ↔ a = parent ∨ Ahead rest a parent)
  behind : ∀ {b}, b ≠ name → (Ahead moved name b ↔ Ahead rest parent b)

section Moved

variable {name parent : String} {rest moved : List String}

theorem movedBehind_self (hnodup : (name :: parent :: rest).Nodup) :
    MovedBehind name parent (parent :: rest) (parent :: name :: rest) := by
  obtain ⟨hname, hrest⟩ := List.nodup_cons.mp hnodup
  obtain ⟨hne, hname⟩ := not_or.mp (mt List.mem_cons.mpr hname)
  have hparent := (List.nodup_cons.mp hrest).1
  refine ⟨.swap name parent rest, List.mem_cons_self, ?_, ?_, ?_⟩
  · intro a b ha hb
    simp [ahead_cons, ha, hb]
  · intro a ha
    have hnone : ¬ Ahead rest a name := fun h => hname h.right_mem
    have hnone' : ¬ Ahead rest a parent := fun h => hparent h.right_mem
    simp [ahead_cons, ha, hnone, hnone', hparent]
  · intro b hb
    have hnone : ¬ Ahead rest name b := fun h => hname h.left_mem
    have hnone' : ¬ Ahead rest parent b := fun h => hparent h.left_mem
    simp [ahead_cons, hne, hnone, hnone']

theorem MovedBehind.cons (h : MovedBehind name parent rest moved) {other : String}
    (hname : other ≠ name) (hparent : other ≠ parent) :
    MovedBehind name parent (other :: rest) (other :: moved) := by
  have hmem : ∀ b, b ∈ moved ↔ b = name ∨ b ∈ rest := fun b => by
    rw [h.perm.mem_iff, List.mem_cons]
  refine ⟨(h.perm.cons other).trans (.swap name other rest), List.mem_cons_of_mem _ h.mem,
    ?_, ?_, ?_⟩
  · intro a b ha hb
    simp [ahead_cons, h.others ha hb, hmem, hb]
  · intro a ha
    simp [ahead_cons, h.before ha, hmem, h.mem, or_left_comm]
  · intro b hb
    simp [ahead_cons, h.behind hb, hname.symm, hparent.symm]

/-- The first class is moved behind its superclass. -/
theorem exists_movedBehind {c : ModelClass} : ∀ {rest moved : List ModelClass},
    (classNames (c :: rest)).Nodup → insertBehindParent? c rest = some moved →
    ∃ parent, c.superclass = some parent ∧
      MovedBehind c.name parent (classNames rest) (classNames moved) := by
  intro rest
  induction rest with
  | nil => intro moved _ h; cases h
  | cons other rest ih =>
    intro moved hnodup h
    rw [insertBehindParent?] at h
    split_ifs at h with hparent
    · cases h
      exact ⟨other.name, hparent, movedBehind_self hnodup⟩
    · obtain ⟨more, hmore, rfl⟩ := Option.map_eq_some_iff.mp h
      have hne : other.name ≠ c.name := by
        intro heq
        exact (List.nodup_cons.mp hnodup).1 (List.mem_map.mpr ⟨other, List.mem_cons_self, heq⟩)
      have hfewer : (classNames (c :: rest)).Nodup :=
        hnodup.sublist (((List.sublist_cons_self other rest).cons_cons c).map _)
      obtain ⟨parent, hsuper, hmoved⟩ := ih hfewer hmore
      refine ⟨parent, hsuper, hmoved.cons hne ?_⟩
      rintro rfl
      exact hparent hsuper

variable {classes : List ModelClass} {ups : List String}

/-- Behind its superclass the class that is moved counts as its superclass does. -/
theorem rises_mover (hmoved : MovedBehind name parent rest moved) (hfresh : (name :: rest).Nodup)
    (hups : name ∉ parent :: ups) :
    rises (Ahead moved) name (parent :: ups) = rises (Ahead rest) parent ups := by
  have hne : ∀ b ∈ parent :: ups, b ≠ name := fun b hb => ne_of_mem_of_not_mem hb hups
  have hself : ¬ Ahead moved name parent := by
    rw [hmoved.behind (hne parent List.mem_cons_self)]
    exact fun h => h.ne (List.nodup_cons.mp hfresh).2 rfl
  rw [rises, if_neg hself]
  refine rises_congr (p := (· ≠ name)) ?_ ?_
  · intro a ha b hb
    have hb := hne b (List.mem_cons_of_mem parent hb)
    exact ⟨hmoved.others ha hb, fun _ => hb⟩
  · intro b hb
    have hb := hne b (List.mem_cons_of_mem parent hb)
    exact ⟨hmoved.behind hb, fun _ => hb⟩

/-- A move does not change the number for other names.  If the class that is moved comes up, it
counts in the place of its superclass, which comes up next. -/
theorem rises_moved (hnodup : (classNames classes).Nodup) (hacyclic : Acyclic classes)
    (hmoved : MovedBehind name parent rest moved) (hfresh : (name :: rest).Nodup)
    (hsuper : superclassOf classes name = some parent) {a : String} (h : Lineage classes a ups) :
    ∀ {top : String}, ReflTransGen (Inherits classes) top a → top ≠ name →
      rises (Ahead moved) top ups = rises (Ahead rest) top ups := by
  induction h with
  | root _ => intros; rfl
  | @up a b ups hedge hups ih =>
    have hstep := (superclassOf_eq_some hnodup).mp hedge
    intro top htop hne
    by_cases hb : b = name
    · subst hb
      obtain ⟨more, rfl, -⟩ := hups.exists_of_superclass hsuper
      have hparent := (superclassOf_eq_some hnodup).mp hsuper
      have hapart : top ≠ parent := by
        rintro rfl
        exact hacyclic _ (TransGen.head' hparent (htop.tail hstep))
      have hnone : ¬ Ahead rest top b := fun h => (List.nodup_cons.mp hfresh).1 h.right_mem
      have hup : b ∉ parent :: more := fun hmem => hacyclic b (hups.transGen hnodup b hmem)
      have hbehind : Ahead moved top b ↔ Ahead rest top parent := by
        rw [hmoved.before hne, or_iff_right hapart]
      calc rises (Ahead moved) top (b :: parent :: more)
          = if Ahead rest top parent then rises (Ahead rest) parent more + 1
            else rises (Ahead rest) top (parent :: more) := by
            rw [rises, rises_mover hmoved hfresh hup, ih (htop.tail hstep) hne]
            simp only [hbehind]
        _ = rises (Ahead rest) top (parent :: more) := by
            rw [rises]
            split_ifs <;> rfl
        _ = rises (Ahead rest) top (b :: parent :: more) := by
            rw [rises.eq_2 _ top b, if_neg hnone]
    · rw [rises, rises, ih .refl hb, ih (htop.tail hstep) hne]
      simp only [hmoved.others hne hb]

end Moved

/-! ## All moves -/

/-- The classes are those of all that are not settled yet.  With a class all that inherit from it
are among them. -/
structure Unsettled (all classes : List ModelClass) : Prop where
  sub : classes ⊆ all
  nodup : (classNames classes).Nodup
  closed : ∀ {a b}, Inherits all a b → b ∈ classNames classes → a ∈ classNames classes

namespace Unsettled

variable {all rest moved : List ModelClass} {c : ModelClass}

/-- A class whose superclass is settled can be settled itself. -/
theorem place (hnodup : (classNames all).Nodup) (h : Unsettled all (c :: rest))
    (hnone : insertBehindParent? c rest = none) : Unsettled all rest := by
  obtain ⟨hc, hrest⟩ := List.cons_subset.mp h.sub
  refine ⟨hrest, (List.nodup_cons.mp h.nodup).2, ?_⟩
  intro a b hedge hb
  rcases List.mem_cons.mp (h.closed hedge (List.mem_cons_of_mem _ hb)) with rfl | ha
  · obtain ⟨d, hd, hname, hsuper⟩ := hedge
    obtain rfl := eq_of_name_eq hnodup hd hc hname
    obtain ⟨parent, hparent, rfl⟩ := List.mem_map.mp hb
    exact absurd hsuper (insertBehindParent?_eq_none.mp hnone parent hparent)
  · exact ha

theorem move (h : Unsettled all (c :: rest)) (hmove : insertBehindParent? c rest = some moved) :
    Unsettled all moved := by
  have hperm := perm_of_insertBehindParent? hmove
  have hnames := hperm.map (·.name)
  refine ⟨fun d hd => h.sub (hperm.mem_iff.mp hd), hnames.nodup_iff.mpr h.nodup, ?_⟩
  intro a b hedge hb
  exact hnames.mem_iff.mpr (h.closed hedge (hnames.mem_iff.mp hb))

theorem closed_transGen (h : Unsettled all rest) {a b : String} (hup : TransGen (Inherits all) a b)
    (hb : b ∈ classNames rest) : a ∈ classNames rest := by
  induction hup using TransGen.head_induction_on with
  | single hedge => exact h.closed hedge hb
  | head hedge _ ih => exact h.closed hedge ih

/-- When a class is settled, all up from it is. -/
theorem not_mem_of_placed (hnodup : (classNames all).Nodup) (hacyclic : Acyclic all)
    (h : Unsettled all (c :: rest)) (hnone : insertBehindParent? c rest = none) {u : String}
    (hup : TransGen (Inherits all) c.name u) : u ∉ classNames (c :: rest) := by
  have hc : c.name ∉ classNames rest := (List.nodup_cons.mp h.nodup).1
  intro hu
  rcases List.mem_cons.mp hu with rfl | hu
  · exact hacyclic _ hup
  · exact hc ((h.place hnodup hnone).closed_transGen hup hu)

end Unsettled

/-! ## Siblings -/

/-- Of two siblings the one that stands first among the classes stands first among the settled ones
too when the superclasses rise an even number of times. -/
def TurnedByRises (all classes settled : List ModelClass) : Prop :=
  ∀ {a b : String} {ups : List String}, superclassOf all a = superclassOf all b →
    Lineage all b ups → Ahead (classNames classes) a b →
    (Ahead (classNames settled) a b ↔ Even (rises (Ahead (classNames classes)) b ups))

section Siblings

variable {all rest moved settled : List ModelClass} {c : ModelClass}

/-- A class that is settled comes before all that are not, and nothing up from it is among them. -/
theorem TurnedByRises.place (hnodup : (classNames all).Nodup) (hacyclic : Acyclic all)
    (hun : Unsettled all (c :: rest)) (hnone : insertBehindParent? c rest = none)
    (hperm : settled.Perm rest) (h : TurnedByRises all rest settled) :
    TurnedByRises all (c :: rest) (c :: settled) := by
  have hc : c.name ∉ classNames rest := (List.nodup_cons.mp hun.nodup).1
  intro a b ups hsame hups hab
  rcases ahead_cons.mp hab with ⟨rfl, hb⟩ | hahead
  · have hfirst : Ahead (classNames (c :: settled)) c.name b :=
      ahead_cons.mpr (Or.inl ⟨rfl, (hperm.map (·.name)).mem_iff.mpr hb⟩)
    have hzero : rises (Ahead (classNames (c :: rest))) b ups = 0 := by
      refine rises_eq_zero fun u hu hahead => ?_
      have hup := (hups.congr hsame).transGen hnodup u hu
      exact hun.not_mem_of_placed hnodup hacyclic hnone hup hahead.right_mem
    rw [hzero]
    exact iff_of_true hfirst ⟨0, rfl⟩
  · have ha : a ≠ c.name := ne_of_mem_of_not_mem hahead.left_mem hc
    have hb : b ≠ c.name := ne_of_mem_of_not_mem hahead.right_mem hc
    rw [classNames_cons, classNames_cons, ahead_cons_of_ne ha, rises_cons hc hb]
    exact h hsame hups hahead

/-- A class that is moved comes to stand behind the siblings that stand before the superclass.  For
these the superclass is a rise, which counts no more for the class itself. -/
theorem TurnedByRises.move (hnodup : (classNames all).Nodup) (hacyclic : Acyclic all)
    (hun : Unsettled all (c :: rest)) (hmove : insertBehindParent? c rest = some moved)
    (hperm : settled.Perm moved) (h : TurnedByRises all moved settled) :
    TurnedByRises all (c :: rest) settled := by
  obtain ⟨hc, hrest⟩ := List.nodup_cons.mp hun.nodup
  obtain ⟨parent, hsuper, hmoved⟩ := exists_movedBehind hun.nodup hmove
  have hedge : Inherits all c.name parent := ⟨c, hun.sub List.mem_cons_self, rfl, hsuper⟩
  have hparent := (superclassOf_eq_some hnodup).mpr hedge
  have hkept : ∀ {b ups}, Lineage all b ups → b ≠ c.name →
      rises (Ahead (classNames moved)) b ups = rises (Ahead (classNames rest)) b ups :=
    fun hups hne => rises_moved hnodup hacyclic hmoved hun.nodup hparent hups .refl hne
  intro a b ups hsame hups hab
  rw [classNames_cons] at hab ⊢
  rcases ahead_cons.mp hab with ⟨rfl, hb⟩ | hahead
  · have hne : b ≠ c.name := ne_of_mem_of_not_mem hb hc
    have hapart : b ≠ parent := by
      rintro rfl
      exact hacyclic b (.single ((superclassOf_eq_some hnodup).mp (hsame.symm.trans hparent)))
    rw [rises_cons hc hne]
    by_cases hbefore : Ahead (classNames rest) b parent
    · -- the two change places, and the sibling has one rise more than the class at its new place
      have hown := hups.congr hsame
      have hup := fun hmem => hacyclic c.name (hown.transGen hnodup _ hmem)
      obtain ⟨more, rfl, -⟩ := hown.exists_of_superclass hparent
      have hturned := h hsame.symm hown ((hmoved.before hne).mpr (Or.inr hbefore))
      rw [rises_mover hmoved hun.nodup hup] at hturned
      have hnames : (classNames settled).Perm (c.name :: classNames rest) :=
        (hperm.map _).trans hmoved.perm
      rw [rises, if_pos hbefore, Nat.even_add_one, ← hturned]
      exact ahead_iff_not (hnames.nodup_iff.mpr hun.nodup)
        (hnames.mem_iff.mpr List.mem_cons_self)
        (hnames.mem_iff.mpr (List.mem_cons_of_mem _ hb)) hne.symm
    · -- the class still stands before its sibling
      have hbehind := (ahead_iff_not hrest hmoved.mem hb hapart.symm).mpr hbefore
      rw [h hsame hups ((hmoved.behind hne).mpr hbehind), hkept hups hne]
  · have ha : a ≠ c.name := ne_of_mem_of_not_mem hahead.left_mem hc
    have hb : b ≠ c.name := ne_of_mem_of_not_mem hahead.right_mem hc
    rw [h hsame hups ((hmoved.others ha hb).mpr hahead), hkept hups hb, rises_cons hc hb]

/-- What the moves make of the order of siblings. -/
theorem Settles.turnedByRises (hnodup : (classNames all).Nodup) (hacyclic : Acyclic all)
    {classes settled : List ModelClass} (h : Settles classes settled) :
    Unsettled all classes → TurnedByRises all classes settled := by
  induction h with
  | nil => exact fun _ _ _ _ _ _ hab => absurd hab.left_mem List.not_mem_nil
  | place hnone hrest ih =>
    intro hun
    exact TurnedByRises.place hnodup hacyclic hun hnone hrest.perm (ih (hun.place hnodup hnone))
  | move hmove hrest ih =>
    intro hun
    exact TurnedByRises.move hnodup hacyclic hun hmove hrest.perm (ih (hun.move hmove))

end Siblings

/-! ## The order of declaration -/

/-- The names of the classes that a class inherits from, the nearest first. -/
def ModelTypes.superclassNames (types : ModelTypes) (c : ModelClass) : List String :=
  (types.chain types.classes.length (c.superclass.bind types.class?)).map (·.name)

/-- As far as the limit goes, the chain of a class is its lineage.  The limit is enough when what it
lacks to the number of classes is outweighed by the class. -/
theorem ModelTypes.lineage_chain {types : ModelTypes} (hnodup : (classNames types.classes).Nodup)
    (hacyclic : Acyclic types.classes)
    (hdeclared : ∀ {a b}, Inherits types.classes a b → b ∈ classNames types.classes) :
    ∀ (limit : ℕ) {name : String}, types.classes.length < limit + weight types.classes name →
      Lineage types.classes name
        ((types.chain limit ((superclassOf types.classes name).bind types.class?)).map
          (·.name)) := by
  intro limit
  induction limit with
  | zero =>
    intro name hlimit
    have hle : weight types.classes name ≤ types.classes.length := weight_le name
    omega
  | succ limit ih =>
    intro name hlimit
    cases hsuper : superclassOf types.classes name with
    | none => exact .root hsuper
    | some parent =>
      have hedge := (superclassOf_eq_some hnodup).mp hsuper
      obtain ⟨p, hp, rfl⟩ := List.mem_map.mp (hdeclared hedge)
      have hfound : types.class? p.name = some p := findClass_name hnodup hp
      have hmore := weight_lt hacyclic hedge (hdeclared hedge)
      have hrest : Lineage types.classes p.name _ := ih (by omega)
      rw [superclassOf_name hnodup hp] at hrest
      rw [Option.bind_some, hfound, chain, List.map_cons]
      exact .up hsuper hrest

/-- Of classes that are sorted the one with the lesser name stands first. -/
theorem ahead_sortByName {classes : List ModelClass} (hnodup : (classNames classes).Nodup)
    {a b : String} (ha : a ∈ classNames classes) (hb : b ∈ classNames classes) :
    Ahead (classNames (sortByName classes)) a b ↔ a < b := by
  have hperm := (perm_sortByName classes).map (·.name)
  have hsorted : (classNames (sortByName classes)).Pairwise (· ≤ ·) := by
    rw [List.pairwise_map]
    refine (List.pairwise_mergeSort ?_ ?_ classes).imp of_decide_eq_true
    · intro c d e hcd hde
      exact decide_eq_true (String.le_trans (of_decide_eq_true hcd) (of_decide_eq_true hde))
    · intro c d
      simpa using String.le_total c.name d.name
  have hle : ∀ {a b}, Ahead (classNames (sortByName classes)) a b → a ≤ b :=
    fun h => List.pairwise_iff_forall_sublist.mp hsorted h
  have hdistinct := hperm.nodup_iff.mpr hnodup
  constructor
  · intro h
    refine String.not_le.mp fun hge => h.ne hdistinct ?_
    exact String.le_antisymm (hle h) hge
  · intro hlt
    have hne : a ≠ b := by
      rintro rfl
      exact String.lt_irrefl a hlt
    rw [ahead_iff_not hdistinct (hperm.mem_iff.mpr ha) (hperm.mem_iff.mpr hb) hne]
    exact fun h => String.not_le.mpr hlt (hle h)

namespace Table

variable (table : Table)

theorem unsettled_sortByName :
    Unsettled table.declarations.classes (sortByName (breakCycles table.classes)) := by
  have hperm := table.perm_declarations.trans (perm_sortByName (breakCycles table.classes)).symm
  refine ⟨hperm.symm.subset, (hperm.map _).nodup_iff.mp table.classNames_declarations_nodup, ?_⟩
  rintro a b ⟨c, hc, rfl, -⟩ -
  exact (hperm.map _).mem_iff.mp (List.mem_map_of_mem hc)

theorem mem_of_inherits {a b : String} (h : Inherits table.declarations.classes a b) :
    b ∈ classNames table.declarations.classes := by
  obtain ⟨c, hc, -, hsuper⟩ := h
  exact table.superclass_mem_declarations hc hsuper

/-- The names of the superclasses of a class are its lineage. -/
theorem lineage_superclassNames {c : ModelClass} (hc : c ∈ table.declarations.classes) :
    Lineage table.declarations.classes c.name (table.declarations.superclassNames c) := by
  have hnodup := table.classNames_declarations_nodup
  have hself : c.name ∈ descendants table.declarations.classes c.name :=
    mem_descendants.mpr ⟨List.mem_map_of_mem hc, .refl⟩
  have hweight : 0 < weight table.declarations.classes c.name := Finset.card_pos.mpr ⟨_, hself⟩
  have h : Lineage table.declarations.classes c.name _ :=
    ModelTypes.lineage_chain hnodup table.acyclic_declarations table.mem_of_inherits
      table.declarations.classes.length (by omega)
  rwa [superclassOf_name hnodup hc] at h

/-- Of two classes with the same superclass the one with the lesser name is declared first exactly
when, up from them, it happens an even number of times that a name is greater than that of the other
class and all names in between.  Classes without superclass are declared in the order of their
names. -/
theorem siblings_in_order_iff :
    ∀ c ∈ table.declarations.classes, ∀ d ∈ table.declarations.classes,
      c.superclass = d.superclass → c.name < d.name →
        ([c.name, d.name].Sublist (classNames table.declarations.classes) ↔
          Even (rises (· < ·) d.name (table.declarations.superclassNames d))) ∧
        (d.superclass = none →
          [c.name, d.name].Sublist (classNames table.declarations.classes)) := by
  intro c hc d hd hsame hlt
  have hnodup := table.classNames_declarations_nodup
  have hsettles := settles_declarationOrder table.classNames_nodup
  have hlineage := table.lineage_superclassNames hd
  have hsorted : ∀ a ∈ classNames table.declarations.classes,
      ∀ b ∈ classNames table.declarations.classes,
        (Ahead (classNames (sortByName (breakCycles table.classes))) a b ↔ a < b) := by
    have hnames := table.perm_declarations.map (·.name)
    intro a ha b hb
    exact ahead_sortByName (hnames.nodup_iff.mp hnodup) (hnames.mem_iff.mp ha)
      (hnames.mem_iff.mp hb)
  have hups : ∀ b ∈ table.declarations.superclassNames d,
      b ∈ classNames table.declarations.classes := by
    intro b hb
    obtain ⟨_, -, hlast⟩ := TransGen.tail'_iff.mp (hlineage.transGen hnodup b hb)
    exact table.mem_of_inherits hlast
  have hrises : rises (Ahead (classNames (sortByName (breakCycles table.classes)))) d.name
        (table.declarations.superclassNames d) =
      rises (· < ·) d.name (table.declarations.superclassNames d) := by
    refine rises_congr (p := (· ∈ classNames table.declarations.classes)) ?_ ?_
    · exact fun a ha b hb => ⟨hsorted a ha b (hups b hb), fun _ => hups b hb⟩
    · exact fun b hb => ⟨hsorted _ (List.mem_map_of_mem hd) b (hups b hb), fun _ => hups b hb⟩
  have hiff : [c.name, d.name].Sublist (classNames table.declarations.classes) ↔
      Even (rises (· < ·) d.name (table.declarations.superclassNames d)) := by
    rw [← hrises]
    refine hsettles.turnedByRises hnodup table.acyclic_declarations table.unsettled_sortByName ?_
      hlineage ?_
    · rw [superclassOf_name hnodup hc, superclassOf_name hnodup hd, hsame]
    · exact (hsorted _ (List.mem_map_of_mem hc) _ (List.mem_map_of_mem hd)).mpr hlt
  refine ⟨hiff, fun hroot => hiff.mpr ?_⟩
  have hnone : table.declarations.superclassNames d = [] := by
    simp [ModelTypes.superclassNames, ModelTypes.chain, hroot]
  rw [hnone]
  exact ⟨0, rfl⟩

/-- Classes that are discovered in the order of their names need not be sorted. -/
theorem declarations_of_sorted
    (h : (breakCycles table.classes).Pairwise fun a b => decide (a.name ≤ b.name)) :
    table.declarations =
      { enums := table.enums.mergeSort fun a b => a.name ≤ b.name
        classes := settle (table.classes.length * (table.classes.length + 1))
          (breakCycles table.classes)
        names := table.names } := by
  rw [declarations, declarationOrder, sortByName, List.mergeSort_of_pairwise h]

/-- Object types without properties, each with its base. -/
def family (bases : List (String × Option String)) : Table :=
  bases.map fun (name, base) =>
    { identity := name, reason := .manual
      description :=
        { identity := name, shortName := name, nameOverride := none, genericArgs := []
          kind := .object
            { properties := [], base := base.map (.named · []), interfaces := []
              knownInheritors := [] } } }

/-- Mammals, which are vertebrates. -/
def vertebrates : Table :=
  family [("Cat", some "Mammal"), ("Dog", some "Mammal"), ("Mammal", some "Vertebrate"),
    ("Vertebrate", none)]

/-- The mammals are turned round twice. -/
theorem vertebrates_in_order :
    ["Cat", "Dog"].Sublist (classNames vertebrates.declarations.classes) := by
  have hdeclared := vertebrates.declarations_of_sorted (by decide +kernel)
  obtain ⟨c, hc, d, hd, hcat, hdog, hsame, heven⟩ :
      ∃ c ∈ vertebrates.declarations.classes, ∃ d ∈ vertebrates.declarations.classes,
        c.name = "Cat" ∧ d.name = "Dog" ∧ c.superclass = d.superclass ∧
          Even (rises (· < ·) d.name (vertebrates.declarations.superclassNames d)) := by
    rw [hdeclared]
    decide +kernel
  have hlt : c.name < d.name := by
    rw [hcat, hdog]
    decide
  rw [← hcat, ← hdog]
  exact ((vertebrates.siblings_in_order_iff c hc d hd hsame hlt).1).mpr heven

/-- Mammals only. -/
def mammals : Table := family [("Cat", some "Mammal"), ("Dog", some "Mammal"), ("Mammal", none)]

/-- The mammals are turned round once, and the dog is declared before the cat. -/
theorem mammals_turned :
    ∃ c ∈ mammals.declarations.classes, ∃ d ∈ mammals.declarations.classes,
      c.superclass = d.superclass ∧ c.name < d.name ∧
        ¬ [c.name, d.name].Sublist (classNames mammals.declarations.classes) := by
  rw [mammals.declarations_of_sorted (by decide +kernel)]
  decide +kernel

end Table

end DataContract
