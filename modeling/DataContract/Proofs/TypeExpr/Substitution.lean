import DataContract.TypeExpr.Basic
import Mathlib.Data.List.Basic
import Mathlib.Tactic.Common

/-!
# Substitutions in turn

Where one substitution follows another, the second one also acts on what the first has put in.  So
both are a single one, whose arguments are those of the first after the second, as long as the
second replaces none of the names that the first leaves in place.  No less will do.

A chain of substitutions can be made into a single one from its far end, too: the arguments of each
one are filled in by all that follow it.

Results:

* `substitute_substitute_iff`: when two substitutions are one with substituted arguments.
* `Instantiation.inTurn_apply`: what follows a substitution acts on its arguments.
* `Instantiation.inTurn_eq_atOnce`: a chain of substitutions is a single one.
-/

namespace DataContract

namespace TypeExpr

/-! ## Two substitutions -/

mutual

/-- The names that stand without arguments. -/
def plainNames : TypeExpr → List String
  | .void => []
  | .array element => element.plainNames
  | .named name [] => [name]
  | .named _ (own :: more) => own.plainNames ++ allPlainNames more

/-- The names that stand without arguments in the expressions of a list. -/
def allPlainNames : List TypeExpr → List String
  | [] => []
  | own :: more => own.plainNames ++ allPlainNames more

end

section Twice

variable {params params' : List String} {args args' : List TypeExpr}

/-- Arguments that are changed are found at the same positions. -/
theorem argumentFor?_map (change : TypeExpr → TypeExpr) (name : String) :
    argumentFor? params (args.map change) name = (argumentFor? params args name).map change := by
  unfold argumentFor?
  cases params.idxOf? name with
  | none => rfl
  | some i => simp

theorem substitute_eq_self {name : String} (h : argumentFor? params args name = none) :
    (named name []).substitute params args = named name [] := by
  rw [substitute, h, Option.getD_none]

mutual

/-- Two substitutions are one, with the second applied to the arguments of the first, exactly when
the second changes none of the names that the first leaves in place. -/
theorem substitute_substitute_iff : ∀ t : TypeExpr,
    (t.substitute params args).substitute params' args' =
        t.substitute params (args.map (substitute params' args')) ↔
      ∀ name ∈ t.plainNames, argumentFor? params args name = none →
        (named name []).substitute params' args' = named name []
  | .void => by simp [substitute, plainNames]
  | .array element => by
    simpa [substitute, plainNames] using substitute_substitute_iff element
  | .named name [] => by
    rw [plainNames, List.forall_mem_singleton, substitute, substitute, argumentFor?_map]
    cases argumentFor? params args name with
    | none => simp
    | some arg => simp
  | .named name (own :: more) => by
    rw [plainNames, List.forall_mem_append, ← substitute_substitute_iff own,
      ← substituteAll_substituteAll_iff more]
    simp only [substitute, named.injEq, List.cons.injEq, true_and]

theorem substituteAll_substituteAll_iff : ∀ own : List TypeExpr,
    substituteAll params' args' (substituteAll params args own) =
        substituteAll params (args.map (substitute params' args')) own ↔
      ∀ name ∈ allPlainNames own, argumentFor? params args name = none →
        (named name []).substitute params' args' = named name []
  | [] => by simp [substituteAll, allPlainNames]
  | own :: more => by
    rw [allPlainNames, List.forall_mem_append, ← substitute_substitute_iff own,
      ← substituteAll_substituteAll_iff more]
    simp only [substituteAll, List.cons.injEq]

end

end Twice

end TypeExpr

/-! ## Chains of substitutions -/

/-- Parameters with the arguments that are given for them. -/
structure Instantiation where
  params : List String
  args : List TypeExpr

namespace Instantiation

/-- The argument for a name. -/
def argument? (i : Instantiation) (name : String) : Option TypeExpr :=
  TypeExpr.argumentFor? i.params i.args name

/-- The expression with the arguments in it. -/
def apply (i : Instantiation) (t : TypeExpr) : TypeExpr := t.substitute i.params i.args

/-- The same parameters with changed arguments. -/
def mapArgs (i : Instantiation) (change : TypeExpr → TypeExpr) : Instantiation :=
  { i with args := i.args.map change }

/-- One instantiation after the other. -/
def inTurn : List Instantiation → TypeExpr → TypeExpr
  | [], t => t
  | i :: rest, t => inTurn rest (i.apply t)

/-- The first one of several instantiations, its arguments filled in by the others. -/
def atOnce (i : Instantiation) : List Instantiation → Instantiation
  | [] => i
  | next :: rest => i.mapArgs (next.atOnce rest).apply

/-- No name that the first instantiation leaves in place in an expression has an argument in the
second. -/
def Apart (i j : Instantiation) (t : TypeExpr) : Prop :=
  ∀ name ∈ t.plainNames, i.argument? name = none → j.argument? name = none

/-- What an instantiation leaves in place no later one replaces, and likewise in its arguments. -/
def Independent : List Instantiation → TypeExpr → Prop
  | [], _ => True
  | i :: rest, t => (∀ j ∈ rest, i.Apart j t) ∧ ∀ arg ∈ i.args, Independent rest arg

instance (i j : Instantiation) (t : TypeExpr) : Decidable (i.Apart j t) :=
  inferInstanceAs (Decidable (∀ name ∈ t.plainNames, _ = none → _ = none))

instance decidableIndependent :
    (levels : List Instantiation) → (t : TypeExpr) → Decidable (Independent levels t)
  | [], _ => isTrue trivial
  | i :: rest, t =>
    have (arg : TypeExpr) : Decidable (Independent rest arg) := decidableIndependent rest arg
    inferInstanceAs (Decidable ((∀ j ∈ rest, i.Apart j t) ∧ ∀ arg ∈ i.args, Independent rest arg))

variable {i j : Instantiation} {t : TypeExpr}

theorem params_atOnce (rest : List Instantiation) : (i.atOnce rest).params = i.params := by
  cases rest <;> rfl

theorem argument?_mapArgs (change : TypeExpr → TypeExpr) (name : String) :
    (i.mapArgs change).argument? name = (i.argument? name).map change :=
  TypeExpr.argumentFor?_map change name

/-- Which names are left in place does not depend on what the arguments are. -/
theorem Apart.mapArgs (h : i.Apart j t) (change : TypeExpr → TypeExpr) :
    (i.mapArgs change).Apart j t := by
  intro name hname hleft
  rw [argument?_mapArgs, Option.map_eq_none_iff] at hleft
  exact h name hname hleft

/-- A second instantiation acts on the arguments of the first. -/
theorem Apart.apply_apply (h : i.Apart j t) : j.apply (i.apply t) = (i.mapArgs j.apply).apply t :=
  (TypeExpr.substitute_substitute_iff t).mpr fun name hname hleft =>
    TypeExpr.substitute_eq_self (h name hname hleft)

/-- What follows an instantiation acts on its arguments. -/
theorem inTurn_apply {rest : List Instantiation} (h : ∀ j ∈ rest, i.Apart j t) :
    inTurn rest (i.apply t) = (i.mapArgs (inTurn rest)).apply t := by
  induction rest generalizing i with
  | nil => simp [inTurn, mapArgs]
  | cons j rest ih =>
    have hrest : ∀ k ∈ rest, (i.mapArgs j.apply).Apart k t :=
      fun k hk => (h k (List.mem_cons_of_mem j hk)).mapArgs j.apply
    have hargs : (i.mapArgs j.apply).mapArgs (inTurn rest) = i.mapArgs (inTurn (j :: rest)) := by
      simp [mapArgs, inTurn]
    rw [inTurn, (h j List.mem_cons_self).apply_apply, ih hrest, hargs]

/-- A chain of instantiations is a single one. -/
theorem inTurn_eq_atOnce {rest : List Instantiation} (h : Independent (i :: rest) t) :
    inTurn (i :: rest) t = (i.atOnce rest).apply t := by
  induction rest generalizing i t with
  | nil => rfl
  | cons next rest ih =>
    obtain ⟨hapart, hargs⟩ := h
    have hsame : i.mapArgs (inTurn (next :: rest)) = i.atOnce (next :: rest) := by
      rw [atOnce, mapArgs, mapArgs, List.map_congr_left fun arg harg => ih (hargs arg harg)]
    rw [inTurn, inTurn_apply hapart, hsame]

/-- A name that the first instantiation leaves in place is replaced by the second one only where it
follows. -/
example :
    let i : Instantiation := ⟨["U"], [.named "T" []]⟩
    let j : Instantiation := ⟨["T"], [.named "int" []]⟩
    let pair := TypeExpr.named "Pair" [.named "U" [], .named "T" []]
    inTurn [i, j] pair = .named "Pair" [.named "int" [], .named "int" []] ∧
      (i.atOnce [j]).apply pair = .named "Pair" [.named "int" [], .named "T" []] := by
  decide +kernel

end Instantiation

end DataContract
