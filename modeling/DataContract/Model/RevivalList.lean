import DataContract.Model.Contract
import DataContract.Revival.Code

/-!
# The list of revivals

The revivals of a model, one a line, grouped by class, operation and method.

Specification (`SPEC_FULL.md`, part II): section 6, what `contractgen revivers` prints.

Contents:

* `Contract.listRevivals`: the text of the list.
-/

namespace DataContract

/-- A line, with the end of the line. -/
def line (text : String) : String := text ++ "\n"

/-- The line of a revival, nothing for none. -/
def revivalLine (label : String) (revival : Option Revival) : String :=
  revival.elim "" fun r => line ("  " ++ label ++ r.code)

/-- The line of a revival under a name, nothing for none. -/
def namedRevivalLine (name : String) (revival : Option Revival) : String :=
  revivalLine (name ++ ": ") revival

/-- The label of what comes back from a call. -/
def resultLabel : String := "-> "

/-- The lines of a class, nothing for one without revivals. -/
def ModelClass.revivalLines (c : ModelClass) : String :=
  if c.properties.any (·.revival.isSome) then
    line ("class " ++ c.name) ++
      String.join (c.properties.map fun p => namedRevivalLine p.name p.revival)
  else ""

/-- The lines of an operation. -/
def Operation.revivalLines (op : Operation) : String :=
  line (op.method.word ++ " " ++ op.name ++ " \x60" ++ op.url.literal ++ "\x60") ++
    String.join (op.arguments.map fun p => namedRevivalLine p.name p.revival) ++
    revivalLine resultLabel op.responseRevival

/-- The lines of a method of an interface. -/
def Method.revivalLines (interfaceName : String) (m : Method) : String :=
  line (interfaceName ++ "." ++ m.name) ++
    String.join (m.params.map fun p => namedRevivalLine p.name p.revival) ++
    revivalLine resultLabel m.returnRevival

/-- The lines of an interface. -/
def Interface.revivalLines (i : Interface) : String :=
  String.join (i.methods.map (·.revivalLines i.name))

/-- The revivals of a model (`render`). -/
def Contract.listRevivals (contract : Contract) : String :=
  String.join (contract.types.classes.map ModelClass.revivalLines) ++
    String.join (contract.operations.map Operation.revivalLines) ++
    String.join (contract.interfaces.map Interface.revivalLines)

end DataContract
