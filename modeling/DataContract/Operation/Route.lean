import DataContract.Config.Basic
import DataContract.Operation.UrlPattern

/-!
# Routes

What the route of an operation says besides its text: which placeholders are optional, and how
the operation is named.

Specification (`SPEC_FULL.md`, part II): section 4.5, canonical names and URL templates.

Contents:

* `Route.strip`: the route without configured beginnings and query string.
* `Route.normalize`: the route with bare names in its placeholders, and the optional names.
* `Route.dropPlaceholder`: the route without a placeholder.
* `Route.suggestedName?`: the name that the route suggests for an action.
-/

namespace DataContract.Route

/-! ## The path -/

/-- The position of the question mark before the query string (`query_start`).  One between braces
belongs to a placeholder. -/
def queryPosition? (depth : Nat) : List Char → Option Nat
  | [] => none
  | c :: rest =>
    if c = '{' then (queryPosition? (depth + 1) rest).map (· + 1)
    else if c = '}' then (queryPosition? (depth - 1) rest).map (· + 1)
    else if c = '?' ∧ depth = 0 then some 0
    else (queryPosition? depth rest).map (· + 1)

/-- The text before the query string. -/
def beforeQuery (route : List Char) : List Char :=
  match queryPosition? 0 route with
  | some position => route.take position
  | none => route

/-- The text behind a beginning that it has up to the case of ASCII letters. -/
def dropBeginning (route : List Char) (beginning : String) : List Char :=
  (Text.dropCaseless? beginning.toList route).getD route

/-- The route without slashes at its front, then without each configured beginning that it has by
then, and without query string (section 4.5, `strip_route`). -/
def strip (config : Config) (route : String) : String :=
  let path := route.toList.dropWhile (· == '/')
  String.ofList (beforeQuery (config.stripRoutePrefixes.foldl dropBeginning path))

/-! ## Placeholders -/

/-- What a placeholder names and whether it is optional: `id?`, `id:int`, `id:int?`, `*path`. -/
def cleanName (inner : String) : String × Bool :=
  let name := (Text.beforeFirst ':' inner.toList).dropWhile (· == '*')
  if name.getLast? = some '?' then (String.ofList name.dropLast, true)
  else (String.ofList name, inner.toList.getLast? == some '?')

/-- The text with bare names in its placeholders, and the names of the optional ones.  A placeholder
reaches from the first opening brace to the next closing one, and what is behind it is looked at
likewise. -/
def normalizeText (text : List Char) : List Char × List String :=
  match _hopen : Text.cut? ['{'] text with
  | none => (text, [])
  | some (before, behind) =>
    match _hclose : Text.cut? ['}'] behind with
    | none => (text, [])
    | some (inner, rest) =>
      let (name, optional) := cleanName (String.ofList inner)
      let (normalized, names) := normalizeText rest
      (before ++ '{' :: name.toList ++ '}' :: normalized, if optional then name :: names else names)
termination_by text.length
decreasing_by
  have hrest := Text.length_lt_of_cut? (by simp) _hclose
  exact Nat.lt_trans hrest (Text.length_lt_of_cut? (by simp) _hopen)

/-- The route with bare names in its placeholders, and the names of the optional ones
(`normalize_placeholders`). -/
def normalize (route : String) : String × List String :=
  let (normalized, names) := normalizeText route.toList
  (String.ofList normalized, names)

/-- The route without the placeholders of that name (section 4.5, `strip_placeholder`).  If anywhere
a slash stands before one, those are taken out with the slash and others stay; else if anywhere a
slash stands behind one, likewise with that. -/
def dropPlaceholder (route : String) (name : String) : String :=
  let token := (UrlPattern.renderPiece (.placeholder name)).toList
  let text := route.toList
  String.ofList <|
    if Text.occurs ('/' :: token) text then Text.replaceAll ('/' :: token) [] text
    else if Text.occurs (token ++ ['/']) text then Text.replaceAll (token ++ ['/']) [] text
    else Text.replaceAll token [] text

/-! ## Names -/

/-- A segment as part of a name: what is no letter or digit of ASCII becomes an underscore. -/
def nameSegment (segment : List Char) : String :=
  String.ofList (segment.map fun c => if c.isAlphanum then c else '_')

/-- The segments of a path that are neither empty nor hold a placeholder, as one name. -/
def nameOfPath (path : List Char) : Option String :=
  let segments := (Text.pieces '/' path).filter fun s => !s.isEmpty && '{' ∉ s
  if segments.isEmpty then none else some ("_".intercalate (segments.map nameSegment))

/-- The name that a route suggests: the segments behind the anchor (section 4.5, `route_name_part`).
The anchor is the route that all operations of the controller share or, without one, the
controller's name. -/
def suggestedName? (config : Config) (route : String) (routePrefix : Option String)
    (controller : String) : Option String :=
  let path := (normalize (strip config route)).1
  let shared := (routePrefix.map (strip config)).getD ""
  let anchor := if shared = "" then controller else shared
  if anchor = "" then none
  else
    match Text.cut? anchor.toList path.toList with
    | some (_, rest) => nameOfPath rest
    | none => none

end DataContract.Route
