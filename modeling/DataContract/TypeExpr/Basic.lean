/-!
# Type expressions

A type expression refers to a type of the service the way its declarations spell it:
`Shop.Item`, `List<Shop.Item>`, `Dictionary<int, string[]>`.  Its text is the identity under
which a type is discovered and named.

Specification (`SPEC_FULL.md`, part II): section 4.0, `RawType` with `Display`.

Contents:

* `TypeExpr`: void, a name with arguments, or an array.
* `TypeExpr.render`: the canonical text.
* `TypeExpr.substitute`: generic parameters replaced by arguments.
-/

namespace DataContract

/-- A reference to a type (section 4.0, `RawType`). -/
inductive TypeExpr where
  /-- No value. -/
  | void
  /-- A name, applied to arguments when there are any. -/
  | named (name : String) (args : List TypeExpr)
  /-- An array of `element`. -/
  | array (element : TypeExpr)
  deriving Inhabited, Repr

namespace TypeExpr

/-- What `inner?` abbreviates. -/
def nullable (inner : TypeExpr) : TypeExpr := .named "Nullable" [inner]

/-- The expression refers to no value. -/
def isVoid : TypeExpr → Bool
  | .void => true
  | _ => false

/-! ## Equality -/

mutual

/-- Equality of expressions is decidable. -/
def decideEq : (a b : TypeExpr) → Decidable (a = b)
  | .void, .void => isTrue rfl
  | .void, .named _ _ => isFalse nofun
  | .void, .array _ => isFalse nofun
  | .named _ _, .void => isFalse nofun
  | .named n as, .named m bs =>
    match decEq n m, decideEqList as bs with
    | isTrue hn, isTrue ha => isTrue (by rw [hn, ha])
    | isFalse hn, _ => isFalse fun h => hn (by injection h)
    | _, isFalse ha => isFalse fun h => ha (by injection h)
  | .named _ _, .array _ => isFalse nofun
  | .array _, .void => isFalse nofun
  | .array _, .named _ _ => isFalse nofun
  | .array a, .array b =>
    match decideEq a b with
    | isTrue h => isTrue (by rw [h])
    | isFalse h => isFalse fun e => h (by injection e)

/-- Equality of argument lists is decidable. -/
def decideEqList : (as bs : List TypeExpr) → Decidable (as = bs)
  | [], [] => isTrue rfl
  | [], _ :: _ => isFalse nofun
  | _ :: _, [] => isFalse nofun
  | a :: as, b :: bs =>
    match decideEq a b, decideEqList as bs with
    | isTrue h, isTrue hs => isTrue (by rw [h, hs])
    | isFalse h, _ => isFalse fun e => h (by injection e)
    | _, isFalse hs => isFalse fun e => hs (by injection e)

end

instance : DecidableEq TypeExpr := decideEq

/-! ## Canonical text -/

mutual

/-- The canonical text: arguments in angle brackets and separated by `, `, arrays with `[]`
(section 4.0, `Display`). -/
def render : TypeExpr → String
  | .void => "void"
  | .array element => element.render ++ "[]"
  | .named name [] => name
  | .named name (arg :: args) => name ++ "<" ++ arg.render ++ renderRest args ++ ">"

/-- The arguments after the first, each led in by a comma. -/
def renderRest : List TypeExpr → String
  | [] => ""
  | arg :: args => ", " ++ arg.render ++ renderRest args

end

/-! ## Generic parameters -/

/-- The argument at the position at which a parameter of that name first stands. -/
def argumentFor? (params : List String) (args : List TypeExpr) (name : String) :
    Option TypeExpr :=
  (params.idxOf? name).bind (args[·]?)

mutual

/-- Every name without arguments that is a parameter replaced by the argument at its position
(section 4.0, `substitute`).  A name that has arguments is no reference to a parameter; a parameter
for which there is no argument stays. -/
def substitute (params : List String) (args : List TypeExpr) : TypeExpr → TypeExpr
  | .void => .void
  | .array element => .array (element.substitute params args)
  | .named name [] => (argumentFor? params args name).getD (.named name [])
  | .named name (own :: more) =>
    .named name (own.substitute params args :: substituteAll params args more)

/-- Substitution in every expression of a list. -/
def substituteAll (params : List String) (args : List TypeExpr) : List TypeExpr → List TypeExpr
  | [] => []
  | own :: more => own.substitute params args :: substituteAll params args more

end

@[simp] theorem substituteAll_eq_map (params : List String) (args own : List TypeExpr) :
    substituteAll params args own = own.map (substitute params args) := by
  induction own with
  | nil => rfl
  | cons a as ih => simp [substituteAll, ih]

end TypeExpr

end DataContract
