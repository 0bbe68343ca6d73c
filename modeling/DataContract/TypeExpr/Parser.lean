import DataContract.Text.Alphanumeric
import DataContract.Text.Blank
import DataContract.TypeExpr.Basic

/-!
# Reading type expressions

The grammar, with blanks allowed between the tokens:

    type := name ('<' type (',' type)* '>')? ('[' ']' | '?')*

A name is a run of alphanumeric characters, underscores, dots and backticks.  The text is read by
a pushdown machine, one character at a time: its stack holds the argument lists that are still
open.  A character for which the machine has no move is where the text stops being the beginning
of a type expression, so its position is the position of the fault.

Specification (`SPEC_FULL.md`, part II): section 4.0, the grammar of `RawType`.

Contents:

* `TypeExpr.Reader`: the states of the machine, `Reader.step` its moves, `Reader.finish?` what is
  read when the text ends.
* `TypeExpr.parse`: reads a text; a blank one is `void`.
* `TypeExpr.SyntaxError`: a text that is refused, with `SyntaxError.message` as its wording.
-/

namespace DataContract.TypeExpr

/-! ## Faults -/

/-- What the grammar calls for at the place of a fault. -/
inductive Expected where
  | typeName
  | commaOrClose
  | closingBracket
  | endOfText
  deriving DecidableEq, Repr

/-- The wording of an expectation. -/
def Expected.describe : Expected → String
  | .typeName => "expected a type name"
  | .commaOrClose => "expected ',' or '>'"
  | .closingBracket => "expected ']'"
  | .endOfText => "unexpected trailing input"

/-- A text that is no type expression. -/
structure SyntaxError where
  /-- The text. -/
  text : String
  /-- What should stand at the fault. -/
  expected : Expected
  /-- The number of characters before the fault. -/
  offset : Nat
  deriving DecidableEq, Repr

/-- The wording of a syntax error. -/
def SyntaxError.message (e : SyntaxError) : String :=
  s!"Invalid type expression '{e.text}': {e.expected.describe} at offset {e.offset}"

/-! ## The machine -/

/-- The characters of names. -/
def isNameChar (c : Char) : Bool :=
  Text.isAlphanumeric c || c == '_' || c == '.' || c == '\x60'

/-- A name whose argument list is open, with the arguments read so far, the last one first. -/
structure Frame where
  name : String
  args : List TypeExpr

/-- A state of the machine.  The stack of open argument lists has the innermost one first. -/
inductive Reader where
  /-- A type must begin. -/
  | start (frames : List Frame)
  /-- Within a name, its last character first. -/
  | name (letters : List Char) (frames : List Frame)
  /-- Behind a name, arguments may follow. -/
  | head (name : String) (frames : List Frame)
  /-- Behind a type, suffixes may follow. -/
  | type (type : TypeExpr) (frames : List Frame)
  /-- Behind the opening bracket of an array suffix. -/
  | bracket (element : TypeExpr) (frames : List Frame)

namespace Reader

/-- The type that a name alone refers to. -/
def ofName (n : String) : TypeExpr :=
  if n = "void" then .void else .named n []

/-- The move behind a complete type. -/
def afterType (t : TypeExpr) (frames : List Frame) (c : Char) : Except Expected Reader :=
  if Text.isBlank c then .ok (.type t frames)
  else if c = '[' then .ok (.bracket t frames)
  else if c = '?' then .ok (.type t.nullable frames)
  else
    match frames with
    | [] => .error .endOfText
    | frame :: outer =>
      if c = ',' then .ok (.start ({ frame with args := t :: frame.args } :: outer))
      else if c = '>' then .ok (.type (.named frame.name (t :: frame.args).reverse) outer)
      else .error .commaOrClose

/-- The move behind a name. -/
def afterName (n : String) (frames : List Frame) (c : Char) : Except Expected Reader :=
  if Text.isBlank c then .ok (.head n frames)
  else if c = '<' then .ok (.start (⟨n, []⟩ :: frames))
  else afterType (ofName n) frames c

/-- The name with these letters, the last one first. -/
def spell (letters : List Char) : String := String.ofList letters.reverse

/-- The move on one character. -/
def step : Reader → Char → Except Expected Reader
  | .start frames, c =>
    if Text.isBlank c then .ok (.start frames)
    else if isNameChar c then .ok (.name [c] frames)
    else .error .typeName
  | .name letters frames, c =>
    if isNameChar c then .ok (.name (c :: letters) frames)
    else afterName (spell letters) frames c
  | .head n frames, c => afterName n frames c
  | .type t frames, c => afterType t frames c
  | .bracket element frames, c =>
    if Text.isBlank c then .ok (.bracket element frames)
    else if c = ']' then .ok (.type (.array element) frames)
    else .error .closingBracket

/-- What has been read when the text ends here. -/
def finish? : Reader → Except Expected TypeExpr
  | .start _ => .error .typeName
  | .name letters [] => .ok (ofName (spell letters))
  | .head n [] => .ok (ofName n)
  | .type t [] => .ok t
  | .name _ (_ :: _) | .head _ (_ :: _) | .type _ (_ :: _) => .error .commaOrClose
  | .bracket _ _ => .error .closingBracket

/-- The run over the rest of a text of which `offset` characters have been read. -/
def run (offset : Nat) (state : Reader) : List Char → Except (Expected × Nat) TypeExpr
  | [] => state.finish?.mapError (·, offset)
  | c :: rest =>
    match state.step c with
    | .ok next => run (offset + 1) next rest
    | .error expected => .error (expected, offset)

end Reader

/-! ## Reading a text -/

/-- The type expression that a text spells (section 4.0, the grammar).  A blank text is `void`. -/
def parse (text : String) : Except SyntaxError TypeExpr :=
  if text.toList.all Text.isBlank then .ok .void
  else
    (Reader.run 0 (.start []) text.toList).mapError fun (expected, offset) =>
      { text, expected, offset }

end DataContract.TypeExpr
