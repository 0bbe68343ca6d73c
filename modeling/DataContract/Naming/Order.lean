import DataContract.Model.Types

/-!
# The order of classes

Classes are declared by name, but each one behind the class that it inherits from.

A class that inherits from itself, over whatever other classes, loses its superclass; of the
classes on such a cycle that is the one discovered first.  Then no chain of superclasses is
endless.

Specification (`SPEC_FULL.md`, part II): section 4.3, the ordering and the superclass.

Contents:

* `breakCycles`: classes without endless chains of superclasses.
* `settle`: each class moved behind its superclass.
* `declarationOrder`: the order of declaration.
-/

namespace DataContract

/-! ## Cycles -/

/-- Whether the chain of superclasses that begins with `next` comes to `target`.  As many classes
are looked at as `limit` says. -/
def leadsTo (classes : List ModelClass) (target : String) : Nat → Option String → Bool
  | limit + 1, some name =>
    name == target ||
      leadsTo classes target limit ((findClass classes name).bind (·.superclass))
  | _, _ => false

/-- The class without its superclass if it inherits from itself. -/
def cutIfCyclic (classes : List ModelClass) (c : ModelClass) : ModelClass :=
  if leadsTo classes c.name (classes.length + 1) c.superclass then { c with superclass := none }
  else c

/-- Cuts the cycles among classes, those in `done` having been looked at. -/
def breakCyclesFrom (done : List ModelClass) : List ModelClass → List ModelClass
  | [] => done
  | c :: rest => breakCyclesFrom (done ++ [cutIfCyclic (done ++ c :: rest) c]) rest

/-- The classes, of which those that inherit from themselves have lost their superclass, one after
the other until no class does (`break_inheritance_cycles`). -/
def breakCycles (classes : List ModelClass) : List ModelClass := breakCyclesFrom [] classes

/-! ## Superclasses first -/

/-- The classes with `c` directly behind its superclass, none if that is not among them. -/
def insertBehindParent? (c : ModelClass) : List ModelClass → Option (List ModelClass)
  | [] => none
  | other :: rest =>
    if c.superclass = some other.name then some (other :: c :: rest)
    else (insertBehindParent? c rest).map (other :: ·)

/-- Moves each class that stands before its superclass directly behind it, from the front on
(section 4.3, dependency stabilization).  What comes to stand in its place is looked at next.
`limit` bounds the number of steps. -/
def settle : Nat → List ModelClass → List ModelClass
  | limit + 1, c :: rest =>
    match insertBehindParent? c rest with
    | some moved => settle limit moved
    | none => c :: settle limit rest
  | _, classes => classes

/-- The classes in ascending order of their names. -/
def sortByName (classes : List ModelClass) : List ModelClass :=
  classes.mergeSort fun a b => a.name ≤ b.name

/-- The classes in the order of declaration (section 4.3, `order_by_dependency`).  Each of them is
moved at most as often as there are classes. -/
def declarationOrder (classes : List ModelClass) : List ModelClass :=
  settle (classes.length * (classes.length + 1)) (sortByName (breakCycles classes))

end DataContract
