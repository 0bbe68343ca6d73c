/-!
# URL patterns

A route is fixed text with placeholders in braces.  A placeholder reaches from an opening brace
to the next closing one; an opening brace without a closing one is fixed text, and so is all
behind it.

Specification (`SPEC_FULL.md`, part II): section 4.5, URL templates.

Contents:

* `UrlPattern`: the pieces of a route.
* `UrlPattern.parse`, `UrlPattern.render`: from the route's text and back.
* `UrlPattern.literal`: the pattern as the body of a template literal.
-/

namespace DataContract

/-- A piece of a pattern. -/
inductive UrlPiece where
  /-- Text that stands in every URL. -/
  | fixed (text : String)
  /-- The value of a parameter. -/
  | placeholder (name : String)
  deriving DecidableEq, Inhabited, Repr

/-- A route as a sequence of pieces (section 3, URL template). -/
structure UrlPattern where
  pieces : List UrlPiece
  deriving DecidableEq, Inhabited, Repr

namespace UrlPattern

/-! ## Reading -/

/-- The piece of a fixed text, nothing for no text. -/
def fixedPieces (text : List Char) : List UrlPiece :=
  if text.isEmpty then [] else [.fixed (String.ofList text)]

/-- What has been read of a route. -/
structure Reading where
  /-- The pieces that are whole. -/
  pieces : List UrlPiece := []
  /-- The fixed text behind them. -/
  text : List Char := []
  /-- The text of the placeholder that is open. -/
  inside : Option (List Char) := none

/-- Reads a character. -/
def Reading.step (r : Reading) (c : Char) : Reading :=
  match r.inside with
  | none =>
    if c = '{' then { pieces := r.pieces ++ fixedPieces r.text, inside := some [] }
    else { r with text := r.text ++ [c] }
  | some name =>
    if c = '}' then
      { r with pieces := r.pieces ++ [.placeholder (String.ofList name)], inside := none }
    else { r with inside := some (name ++ [c]) }

/-- The pieces with a text at their end.  Fixed text behind fixed text is one piece. -/
def lengthen (pieces : List UrlPiece) (text : List Char) : List UrlPiece :=
  match pieces.getLast? with
  | some (.fixed previous) => pieces.dropLast ++ [.fixed (previous ++ String.ofList text)]
  | _ => pieces ++ fixedPieces text

/-- The pieces at the end of the route.  A placeholder that is still open is fixed text. -/
def Reading.finish (r : Reading) : List UrlPiece :=
  match r.inside with
  | none => r.pieces ++ fixedPieces r.text
  | some name => lengthen r.pieces (r.text ++ '{' :: name)

/-- The pattern of a route. -/
def parse (route : String) : UrlPattern := ⟨(route.toList.foldl Reading.step {}).finish⟩

/-! ## Writing -/

/-- The text of a piece in a route. -/
def renderPiece : UrlPiece → String
  | .fixed text => text
  | .placeholder name => "\x7b" ++ name ++ "\x7d"

/-- The route of a pattern. -/
def render (url : UrlPattern) : String := String.join (url.pieces.map renderPiece)

/-- A character of fixed text within a template literal. -/
def escapeFixed (c : Char) : List Char := if c = '\x60' then ['\\', c] else [c]

/-- The text of a piece within a template literal. -/
def literalPiece : UrlPiece → String
  | .fixed text => String.ofList (text.toList.flatMap escapeFixed)
  | .placeholder name => "$\x7b" ++ name ++ "\x7d"

/-- The pattern as the body of a template literal (section 3, placeholders as `${param}`). -/
def literal (url : UrlPattern) : String := String.join (url.pieces.map literalPiece)

/-! ## Placeholders -/

/-- The name of a placeholder. -/
def placeholderName? : UrlPiece → Option String
  | .placeholder name => some name
  | .fixed _ => none

/-- The names of the placeholders in their order. -/
def placeholders (url : UrlPattern) : List String := url.pieces.filterMap placeholderName?

/-- There is a placeholder of that name. -/
def hasPlaceholder (url : UrlPattern) (name : String) : Bool := url.placeholders.any (· == name)

end UrlPattern

end DataContract
