import DataContract.Naming.Order
import DataContract.Proofs.Keyed.Lookup
import Mathlib.Data.List.Perm.Subperm
import Mathlib.Data.List.Range
import Mathlib.Data.Nat.Find
import Mathlib.Logic.Function.Iterate
import Mathlib.Logic.Relation

/-!
# Cycles of superclasses

Classes with distinct names form a graph in which each class has at most one edge, to its
superclass.  A cycle through a class is found by following these edges: a chain that is longer
than there are classes repeats itself.

Results:

* `leadsTo_iff`: the bounded walk finds every class that the chain of superclasses comes to.
* `breakCycles_cut`: breaking cycles changes nothing but superclasses, which it takes away.
* `acyclic_breakCycles`: no class inherits from itself afterwards.
* `breakCycles_exact`: the first class on each cycle loses its superclass, and no other one does.
* `mem_breakCycles`: a class on no cycle stays as it is.
-/

namespace DataContract

open Relation (ReflTransGen TransGen)

/-! ## The graph of superclasses -/

/-- The names of classes. -/
abbrev classNames (classes : List ModelClass) : List String := classes.map (·.name)

/-- A class of the name `a` inherits from the class of the name `b`. -/
def Inherits (classes : List ModelClass) (a b : String) : Prop :=
  ∃ c ∈ classes, c.name = a ∧ c.superclass = some b

/-- No class inherits from itself, over whatever other classes. -/
def Acyclic (classes : List ModelClass) : Prop := ∀ a, ¬ TransGen (Inherits classes) a a

/-- The superclass of the class of a name. -/
def superclassOf (classes : List ModelClass) (name : String) : Option String :=
  (findClass classes name).bind (·.superclass)

section Graph

variable {classes : List ModelClass}

theorem classNames_cons (c : ModelClass) :
    classNames (c :: classes) = c.name :: classNames classes := rfl

theorem eq_of_name_eq (hnodup : (classNames classes).Nodup) {c d : ModelClass}
    (hc : c ∈ classes) (hd : d ∈ classes) (h : c.name = d.name) : c = d :=
  List.inj_on_of_nodup_map hnodup hc hd h

theorem findClass_eq_some {name : String} {c : ModelClass} (h : findClass classes name = some c) :
    c ∈ classes ∧ c.name = name := by
  refine ⟨List.mem_of_find?_eq_some h, ?_⟩
  simpa using List.find?_some h

/-- With distinct names every class is found under its name. -/
theorem findClass_name (hnodup : (classNames classes).Nodup) {c : ModelClass}
    (hc : c ∈ classes) : findClass classes c.name = some c :=
  find?_key hnodup hc

theorem superclassOf_name (hnodup : (classNames classes).Nodup) {c : ModelClass}
    (hc : c ∈ classes) : superclassOf classes c.name = c.superclass := by
  rw [superclassOf, findClass_name hnodup hc, Option.bind_some]

theorem superclassOf_eq_some (hnodup : (classNames classes).Nodup) {a b : String} :
    superclassOf classes a = some b ↔ Inherits classes a b := by
  rw [superclassOf, Option.bind_eq_some_iff]
  constructor
  · rintro ⟨c, hfind, hsuper⟩
    obtain ⟨hc, hname⟩ := findClass_eq_some hfind
    exact ⟨c, hc, hname, hsuper⟩
  · rintro ⟨c, hc, rfl, hsuper⟩
    exact ⟨c, findClass_name hnodup hc, hsuper⟩

theorem inherits_rightUnique (hnodup : (classNames classes).Nodup) :
    Relator.RightUnique (Inherits classes) := by
  rintro a b b' ⟨c, hc, rfl, hb⟩ ⟨d, hd, hname, hb'⟩
  obtain rfl := eq_of_name_eq hnodup hd hc hname
  exact Option.some.inj (hb.symm.trans hb')

theorem Inherits.of_perm {others : List ModelClass} (hperm : classes.Perm others) {a b : String}
    (h : Inherits classes a b) : Inherits others a b := by
  obtain ⟨c, hc, hspec⟩ := h
  exact ⟨c, hperm.mem_iff.mp hc, hspec⟩

theorem Acyclic.of_perm {others : List ModelClass} (hperm : classes.Perm others)
    (h : Acyclic classes) : Acyclic others := by
  intro a hcycle
  exact h a (TransGen.mono (fun _ _ => Inherits.of_perm hperm.symm) a a hcycle)

end Graph

/-! ## Chains of superclasses -/

section Chains

variable {classes : List ModelClass}

/-- The `k`th superclass. -/
def ancestor (classes : List ModelClass) (k : ℕ) (start : Option String) : Option String :=
  (fun name => name.bind (superclassOf classes))^[k] start

@[simp] theorem ancestor_zero (start : Option String) : ancestor classes 0 start = start := rfl

theorem ancestor_succ (k : ℕ) (start : Option String) :
    ancestor classes (k + 1) start = ancestor classes k (start.bind (superclassOf classes)) := rfl

theorem ancestor_succ' (k : ℕ) (start : Option String) :
    ancestor classes (k + 1) start = (ancestor classes k start).bind (superclassOf classes) :=
  Function.iterate_succ_apply' _ k start

theorem ancestor_add (k l : ℕ) (start : Option String) :
    ancestor classes (k + l) start = ancestor classes k (ancestor classes l start) :=
  Function.iterate_add_apply _ k l start

theorem ancestor_none (k : ℕ) : ancestor classes k none = none := by
  induction k with
  | zero => rfl
  | succ k ih => rw [ancestor_succ, Option.bind_none, ih]

theorem exists_ancestor_of_reflTransGen (hnodup : (classNames classes).Nodup) {a b : String}
    (h : ReflTransGen (Inherits classes) a b) : ∃ k, ancestor classes k (some a) = some b := by
  induction h with
  | refl => exact ⟨0, rfl⟩
  | tail _ hstep ih =>
    obtain ⟨k, hk⟩ := ih
    refine ⟨k + 1, ?_⟩
    rw [ancestor_succ', hk, Option.bind_some, superclassOf_eq_some hnodup]
    exact hstep

theorem reflTransGen_of_ancestor (hnodup : (classNames classes).Nodup) {a b : String} (k : ℕ)
    (h : ancestor classes k (some a) = some b) : ReflTransGen (Inherits classes) a b := by
  induction k generalizing b with
  | zero =>
    obtain rfl := Option.some.inj h
    exact .refl
  | succ k ih =>
    rw [ancestor_succ', Option.bind_eq_some_iff] at h
    obtain ⟨mid, hmid, hstep⟩ := h
    exact (ih hmid).tail ((superclassOf_eq_some hnodup).mp hstep)

/-- A chain that comes to a class at all does so before it is longer than there are classes. -/
theorem exists_ancestor_le {start : Option String} {target : String}
    (h : ∃ k, ancestor classes k start = some target) :
    ∃ k ≤ classes.length, ancestor classes k start = some target := by
  classical
  refine ⟨Nat.find h, ?_, Nat.find_spec h⟩
  have hdistinct : ((List.range (Nat.find h)).map (ancestor classes · start)).Nodup := by
    refine List.Nodup.map_on ?_ List.nodup_range
    have hne : ∀ i j, i < j → j < Nat.find h →
        ancestor classes i start ≠ ancestor classes j start := by
      intro i j hij hj heq
      -- The chain would come to the target earlier by what lies between the two positions.
      refine Nat.find_min h (m := Nat.find h - j + i) (by omega) ?_
      have hsplit := Nat.find_spec h
      rw [show Nat.find h = Nat.find h - j + j by omega, ancestor_add, ← heq, ← ancestor_add]
        at hsplit
      exact hsplit
    intro i hi j hj heq
    rw [List.mem_range] at hi hj
    rcases Nat.lt_trichotomy i j with hij | hij | hij
    · exact absurd heq (hne i j hij hj)
    · exact hij
    · exact absurd heq.symm (hne j i hij hi)
  have hsub : (List.range (Nat.find h)).map (ancestor classes · start) ⊆
      (classNames classes).map some := by
    intro name hname
    obtain ⟨i, hi, rfl⟩ := List.mem_map.mp hname
    rw [List.mem_range] at hi
    have hlater := Nat.find_spec h
    rw [show Nat.find h = Nat.find h - (i + 1) + (i + 1) by omega, ancestor_add] at hlater
    cases hnext : ancestor classes (i + 1) start with
    | none => rw [hnext, ancestor_none] at hlater; cases hlater
    | some next =>
      rw [ancestor_succ', Option.bind_eq_some_iff] at hnext
      obtain ⟨name, hname, hsuper⟩ := hnext
      obtain ⟨c, hfind, -⟩ := Option.bind_eq_some_iff.mp hsuper
      obtain ⟨hc, rfl⟩ := findClass_eq_some hfind
      rw [hname]
      exact List.mem_map_of_mem (List.mem_map_of_mem hc)
  have hlength := (hdistinct.subperm hsub).length_le
  simpa using hlength

theorem leadsTo_iff_ancestor {target : String} : ∀ (limit : ℕ) (start : Option String),
    leadsTo classes target limit start = true ↔
      ∃ k < limit, ancestor classes k start = some target := by
  intro limit
  induction limit with
  | zero => intro start; simp [leadsTo]
  | succ limit ih =>
    intro start
    cases start with
    | none => simp [leadsTo, ancestor_none]
    | some name =>
      rw [leadsTo, Bool.or_eq_true, beq_iff_eq, ih]
      constructor
      · rintro (rfl | ⟨k, hk, hancestor⟩)
        · exact ⟨0, by omega, rfl⟩
        · exact ⟨k + 1, by omega, hancestor⟩
      · rintro ⟨k, hk, hancestor⟩
        cases k with
        | zero => exact Or.inl (Option.some.inj hancestor)
        | succ k => exact Or.inr ⟨k, by omega, hancestor⟩

/-- The walk finds every class that the chain of superclasses comes to. -/
theorem leadsTo_iff (hnodup : (classNames classes).Nodup) {name target : String} :
    leadsTo classes target (classes.length + 1) (some name) = true ↔
      ReflTransGen (Inherits classes) name target := by
  rw [leadsTo_iff_ancestor]
  constructor
  · rintro ⟨k, -, hancestor⟩
    exact reflTransGen_of_ancestor hnodup k hancestor
  · intro h
    obtain ⟨k, hk, hancestor⟩ := exists_ancestor_le (exists_ancestor_of_reflTransGen hnodup h)
    exact ⟨k, by omega, hancestor⟩

end Chains

/-! ## Breaking cycles -/

section Breaking

variable {classes : List ModelClass}

/-- The class as it was or without its superclass. -/
def Cut (c cut : ModelClass) : Prop := cut = c ∨ cut = { c with superclass := none }

theorem Cut.name {c cut : ModelClass} (h : Cut c cut) : cut.name = c.name := by
  rcases h with rfl | rfl <;> rfl

theorem Cut.properties {c cut : ModelClass} (h : Cut c cut) : cut.properties = c.properties := by
  rcases h with rfl | rfl <;> rfl

theorem cut_cutIfCyclic (c : ModelClass) : Cut c (cutIfCyclic classes c) := by
  unfold cutIfCyclic
  split_ifs
  · exact Or.inr rfl
  · exact Or.inl rfl

/-- One class after the other is as it was or without its superclass. -/
abbrev CutAll : List ModelClass → List ModelClass → Prop := List.Forall₂ Cut

theorem cutAll_refl (classes : List ModelClass) : CutAll classes classes :=
  List.forall₂_same.mpr fun _ _ => Or.inl rfl

theorem CutAll.classNames_eq {cuts : List ModelClass} (h : CutAll classes cuts) :
    classNames cuts = classNames classes := by
  induction h with
  | nil => rfl
  | cons hcut _ ih =>
    rw [classNames, classNames, List.map_cons, List.map_cons, hcut.name]
    exact congrArg _ ih

theorem CutAll.map_identity {classes cuts : List ModelClass} (h : CutAll classes cuts) :
    cuts.map (·.identity) = classes.map (·.identity) := by
  induction h with
  | nil => rfl
  | cons hcut _ ih =>
    rcases hcut with rfl | rfl
    · rw [List.map_cons, List.map_cons, ih]
    · rw [List.map_cons, List.map_cons, ih]

theorem CutAll.exists_of_mem {cuts : List ModelClass} (h : CutAll classes cuts)
    {cut : ModelClass} (hmem : cut ∈ cuts) : ∃ c ∈ classes, Cut c cut := by
  induction h with
  | nil => cases hmem
  | cons hcut _ ih =>
    rcases List.mem_cons.mp hmem with rfl | hmem
    · exact ⟨_, by simp, hcut⟩
    · obtain ⟨c, hc, hcut⟩ := ih hmem
      exact ⟨c, by simp [hc], hcut⟩

theorem CutAll.exists_cut {cuts : List ModelClass} (h : CutAll classes cuts)
    {c : ModelClass} (hmem : c ∈ classes) : ∃ cut ∈ cuts, Cut c cut := by
  induction h with
  | nil => cases hmem
  | cons hcut _ ih =>
    rcases List.mem_cons.mp hmem with rfl | hmem
    · exact ⟨_, by simp, hcut⟩
    · obtain ⟨cut, hc, hcut⟩ := ih hmem
      exact ⟨cut, by simp [hc], hcut⟩

theorem CutAll.inherits {cuts : List ModelClass} (h : CutAll classes cuts) {a b : String}
    (hedge : Inherits cuts a b) : Inherits classes a b := by
  obtain ⟨cut, hmem, rfl, hsuper⟩ := hedge
  obtain ⟨c, hc, hcut⟩ := h.exists_of_mem hmem
  rcases hcut with rfl | rfl
  · exact ⟨cut, hc, rfl, hsuper⟩
  · cases hsuper

/-- Looking at the rest leaves what is done, and takes superclasses away from the rest. -/
theorem breakCyclesFrom_eq : ∀ (rest done : List ModelClass),
    ∃ cuts, CutAll rest cuts ∧ breakCyclesFrom done rest = done ++ cuts := by
  intro rest
  induction rest with
  | nil => intro done; exact ⟨[], .nil, (List.append_nil done).symm⟩
  | cons c rest ih =>
    intro done
    obtain ⟨cuts, hcuts, hrest⟩ := ih (done ++ [cutIfCyclic (done ++ c :: rest) c])
    refine ⟨cutIfCyclic (done ++ c :: rest) c :: cuts, .cons (cut_cutIfCyclic c) hcuts, ?_⟩
    rw [breakCyclesFrom, hrest, List.append_assoc, List.singleton_append]

/-- Breaking cycles takes superclasses away and changes nothing else. -/
theorem breakCycles_cut (classes : List ModelClass) : CutAll classes (breakCycles classes) := by
  obtain ⟨cuts, hcuts, heq⟩ := breakCyclesFrom_eq classes []
  rw [breakCycles, heq]
  exact hcuts

/-- The walk up from the superclass of a class finds whether the class inherits from itself. -/
theorem leadsTo_superclass_iff (hnodup : (classNames classes).Nodup) {c : ModelClass}
    (hc : c ∈ classes) : leadsTo classes c.name (classes.length + 1) c.superclass = true ↔
      TransGen (Inherits classes) c.name c.name := by
  rw [TransGen.head'_iff]
  constructor
  · intro hleads
    cases hsuper : c.superclass with
    | none => rw [hsuper] at hleads; cases hleads
    | some next =>
      rw [hsuper, leadsTo_iff hnodup] at hleads
      exact ⟨next, ⟨c, hc, rfl, hsuper⟩, hleads⟩
  · rintro ⟨next, ⟨d, hd, hname, hsuper⟩, hrest⟩
    obtain rfl := eq_of_name_eq hnodup hd hc hname
    rw [hsuper, leadsTo_iff hnodup]
    exact hrest

/-- The classes `before` have been looked at and have become `done`, in which superclasses have been
taken away and no class inherits from itself.  The classes `rest` are as they were. -/
structure Broken (before done rest : List ModelClass) : Prop where
  nodup : (classNames (before ++ rest)).Nodup
  cut : CutAll before done
  acyclic : ∀ c ∈ done, ¬ TransGen (Inherits (done ++ rest)) c.name c.name

namespace Broken

variable {before done rest : List ModelClass} {c : ModelClass}

theorem nil (hnodup : (classNames rest).Nodup) : Broken [] [] rest :=
  ⟨hnodup, .nil, by simp⟩

theorem cutAll (h : Broken before done rest) : CutAll (before ++ rest) (done ++ rest) :=
  List.rel_append h.cut (cutAll_refl rest)

theorem nodup_done (h : Broken before done rest) : (classNames (done ++ rest)).Nodup := by
  rw [h.cutAll.classNames_eq]
  exact h.nodup

/-- Looking at a class leaves it on no cycle, and closes none. -/
theorem step (h : Broken before done (c :: rest)) :
    Broken (before ++ [c]) (done ++ [cutIfCyclic (done ++ c :: rest) c]) rest := by
  have hcut : CutAll (done ++ c :: rest) (done ++ cutIfCyclic (done ++ c :: rest) c :: rest) :=
    List.rel_append (cutAll_refl done) (.cons (cut_cutIfCyclic c) (cutAll_refl rest))
  have hleads := leadsTo_superclass_iff h.nodup_done (c := c) (by simp)
  refine ⟨?_, List.rel_append h.cut (.cons (cut_cutIfCyclic c) .nil), ?_⟩
  · rw [List.append_assoc, List.singleton_append]
    exact h.nodup
  · intro d hd hcycle
    rw [List.append_assoc, List.singleton_append] at hcycle
    have hearlier := TransGen.mono (fun _ _ => hcut.inherits) _ _ hcycle
    rcases List.mem_append.mp hd with hd | hd
    · exact h.acyclic d hd hearlier
    · obtain rfl := List.mem_singleton.mp hd
      rw [(cut_cutIfCyclic c).name] at hcycle hearlier
      obtain ⟨next, ⟨e, he, hname, hsuper⟩, -⟩ := TransGen.head'_iff.mp hcycle
      have hnodup := h.nodup_done
      rw [← hcut.classNames_eq] at hnodup
      obtain rfl : e = cutIfCyclic (done ++ c :: rest) c :=
        eq_of_name_eq hnodup he (by simp) (hname.trans (cut_cutIfCyclic c).name.symm)
      rw [cutIfCyclic, if_pos (hleads.mpr hearlier)] at hsuper
      cases hsuper

theorem breakCyclesFrom : ∀ {rest before done : List ModelClass}, Broken before done rest →
    Broken (before ++ rest) (breakCyclesFrom done rest) [] := by
  intro rest
  induction rest with
  | nil =>
    intro before done h
    rw [List.append_nil, DataContract.breakCyclesFrom]
    exact h
  | cons c rest ih =>
    intro before done h
    have hdone := ih h.step
    rw [List.append_assoc, List.singleton_append] at hdone
    exact hdone

end Broken

/-- No class inherits from itself when cycles have been broken. -/
theorem acyclic_breakCycles (hnodup : (classNames classes).Nodup) :
    Acyclic (breakCycles classes) := by
  intro a hcycle
  obtain ⟨next, ⟨c, hc, rfl, -⟩, -⟩ := TransGen.head'_iff.mp hcycle
  have hdone := (Broken.nil hnodup).breakCyclesFrom.acyclic c hc
  rw [List.append_nil] at hdone
  exact hdone hcycle

/-! ## Which superclass a cycle loses -/

/-- Where each node has one successor at most, all that is reached from a node on a cycle is on that
cycle. -/
theorem reflTransGen_of_cycle {α : Type} {r s : α → α → Prop} (hunique : Relator.RightUnique s)
    (hsub : ∀ a b, r a b → s a b) {a b : α} (hcycle : TransGen r a a)
    (hreach : ReflTransGen s a b) : ReflTransGen r a b ∧ ReflTransGen r b a := by
  induction hreach with
  | refl => exact ⟨.refl, .refl⟩
  | @tail m b _ hedge ih =>
    obtain ⟨hto, hback⟩ := ih
    obtain ⟨next, hnext, hrest⟩ := TransGen.head'_iff.mp (TransGen.trans_right hback hcycle)
    obtain rfl := hunique (hsub m next hnext) hedge
    exact ⟨hto.tail hnext, hrest⟩

/-- The class inherits from itself, and none of the classes before it is on that cycle. -/
def OpensCycle (before : List ModelClass) (c : ModelClass) (rest : List ModelClass) : Prop :=
  TransGen (Inherits (before ++ c :: rest)) c.name c.name ∧
    ∀ d ∈ before, TransGen (Inherits (before ++ c :: rest)) c.name d.name →
      ¬ TransGen (Inherits (before ++ c :: rest)) d.name c.name

/-- What has been taken away from the classes before a class matters to it only if one of them is on
its cycle. -/
theorem Broken.transGen_iff {before done rest : List ModelClass} {c : ModelClass}
    (h : Broken before done (c :: rest)) :
    TransGen (Inherits (done ++ c :: rest)) c.name c.name ↔ OpensCycle before c rest := by
  have hsub : ∀ a b, Inherits (done ++ c :: rest) a b → Inherits (before ++ c :: rest) a b :=
    fun _ _ => h.cutAll.inherits
  constructor
  · intro hcycle
    refine ⟨TransGen.mono hsub _ _ hcycle, fun d hd hto _ => ?_⟩
    -- The cycle is still whole, so an earlier class on it would have lost its superclass.
    obtain ⟨hto, hback⟩ := reflTransGen_of_cycle (inherits_rightUnique h.nodup) hsub hcycle
      hto.to_reflTransGen
    obtain ⟨cut, hmem, hcut⟩ := h.cut.exists_cut hd
    rw [← hcut.name] at hto hback
    exact h.acyclic cut hmem ((TransGen.trans_right hback hcycle).trans_left hto)
  · rintro ⟨hcycle, hfirst⟩
    -- No class on the cycle is an earlier one, so each of them still has its superclass.
    have hkept : ∀ m next, TransGen (Inherits (before ++ c :: rest)) c.name m →
        TransGen (Inherits (before ++ c :: rest)) m c.name →
        Inherits (before ++ c :: rest) m next → Inherits (done ++ c :: rest) m next := by
      rintro m next hto hback ⟨d, hd, rfl, hsuper⟩
      rcases List.mem_append.mp hd with hd | hd
      · exact absurd hback (hfirst d hd hto)
      · exact ⟨d, List.mem_append_right _ hd, rfl, hsuper⟩
    have halong : ∀ b, TransGen (Inherits (before ++ c :: rest)) c.name b →
        ReflTransGen (Inherits (before ++ c :: rest)) b c.name →
        TransGen (Inherits (done ++ c :: rest)) c.name b := by
      intro b hto
      induction hto with
      | single hedge => exact fun _ => .single (hkept _ _ hcycle hcycle hedge)
      | @tail m b hto hedge ih =>
        intro hback
        have hthrough := TransGen.head' hedge hback
        exact (ih hthrough.to_reflTransGen).tail (hkept _ _ hto hthrough hedge)
    exact halong c.name hcycle .refl

/-- Looking at the rest takes the superclass away from each class that opens a cycle, and leaves all
others as they are. -/
theorem Broken.exact : ∀ {middle before done rest : List ModelClass} {c : ModelClass},
    Broken before done (middle ++ c :: rest) →
    (OpensCycle (before ++ middle) c rest →
      { c with superclass := none } ∈ DataContract.breakCyclesFrom done (middle ++ c :: rest)) ∧
    (¬ OpensCycle (before ++ middle) c rest →
      c ∈ DataContract.breakCyclesFrom done (middle ++ c :: rest)) := by
  intro middle
  induction middle with
  | nil =>
    intro before done rest c h
    rw [List.nil_append] at h
    have hleads := (leadsTo_superclass_iff h.nodup_done (c := c) (by simp)).trans h.transGen_iff
    obtain ⟨cuts, -, hdone⟩ := breakCyclesFrom_eq rest (done ++ [cutIfCyclic (done ++ c :: rest) c])
    rw [List.append_nil, List.nil_append, DataContract.breakCyclesFrom, hdone, cutIfCyclic]
    refine ⟨fun hopens => ?_, fun hnot => ?_⟩
    · rw [if_pos (hleads.mpr hopens)]
      simp
    · rw [if_neg (mt hleads.mp hnot)]
      simp
  | cons d middle ih =>
    intro before done rest c h
    have hmore := ih h.step
    rw [List.append_assoc, List.singleton_append] at hmore
    exact hmore

/-- Breaking cycles takes the superclass away from the first class on each cycle, and leaves all
others as they are. -/
theorem breakCycles_exact {before rest : List ModelClass} {c : ModelClass}
    (hnodup : (classNames (before ++ c :: rest)).Nodup) :
    (OpensCycle before c rest →
      { c with superclass := none } ∈ breakCycles (before ++ c :: rest)) ∧
    (¬ OpensCycle before c rest → c ∈ breakCycles (before ++ c :: rest)) :=
  (Broken.nil hnodup).exact

/-- A class on no cycle keeps its superclass. -/
theorem mem_breakCycles (hnodup : (classNames classes).Nodup) {c : ModelClass} (hc : c ∈ classes)
    (hcycle : ¬ TransGen (Inherits classes) c.name c.name) : c ∈ breakCycles classes := by
  obtain ⟨before, rest, rfl⟩ := List.append_of_mem hc
  exact (breakCycles_exact hnodup).2 fun hopens => hcycle hopens.1

end Breaking

end DataContract
