/-!
# Reasons of discovery

Why a type is part of the model.

Specification (`SPEC_FULL.md`, part II): section 3, the provenance log.

Contents:

* `Reason`: the reasons.
* `Reason.describe`: a reason in words.
-/

namespace DataContract

/-- Why a type is part of the model (section 3, the provenance log). -/
inductive Reason where
  /-- A parameter or the response of an operation holds it. -/
  | fromOperation (operation : String)
  /-- A property of a discovered type holds it. -/
  | propertyOf (owner property : String)
  /-- A discovered type lists it as known inheritor. -/
  | knownInheritorOf (owner : String)
  /-- A parameter of an interface's method holds it. -/
  | fromInterfaceParam (method param : String)
  /-- The result of an interface's method holds it. -/
  | fromInterfaceReturn (method : String)
  /-- It has been added by hand. -/
  | manual
  deriving DecidableEq, Inhabited, Repr

/-- A reason in words. -/
def Reason.describe : Reason → String
  | .fromOperation operation => s!"from operation {operation}"
  | .propertyOf owner property => s!"property {property} of {owner}"
  | .knownInheritorOf owner => s!"known inheritor of {owner}"
  | .fromInterfaceParam method param => s!"parameter {param} of {method}"
  | .fromInterfaceReturn method => s!"return type of {method}"
  | .manual => "manually added"

end DataContract
