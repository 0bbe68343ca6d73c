import DataContract.Toml.Scan

/-!
# Reading TOML text

Specification (`SPEC_FULL.md`, part II): section 10.3, TOML.

Contents:

* `Toml.scanValue`: a value, with a limit on the nesting of arrays and tables in braces.
* `Toml.parse`: the table of a text, none for a text that is no TOML.
-/

namespace DataContract.Toml

/-! ## Values -/

/-- Finds the items of an array and its closing bracket, behind the opening bracket or a comma. -/
def scanItems (scan : Scan Toml) (text : List Char) : Option (List Toml × List Char) :=
  match skipLines false text with
  | ']' :: rest => some ([], rest)
  | start => do
    let (value, rest) ← scan start
    match skipLines false rest with
    | ']' :: rest => return ([value], rest)
    | ',' :: rest =>
      if rest.length < text.length then
        let (values, rest) ← scanItems scan rest
        return (value :: values, rest)
      else none
    | _ => none
termination_by text.length

/-- Finds a key with its value. -/
def scanPair (scan : Scan Toml) : Scan ((List String × String) × Toml) := fun text => do
  let (key, rest) ← scanKey text
  match rest with
  | '=' :: rest =>
    let (value, rest) ← scan (skipBlanks rest)
    return ((key, value), rest)
  | _ => none

/-- Finds the entries of a table in braces and its closing brace, added to those given. -/
def scanEntries (scan : Scan Toml) (entries : Entries) (text : List Char) :
    Option (Entries × List Char) := do
  let (((path, key), value), rest) ← scanPair scan text
  let entries ← insert? path key value entries
  match skipBlanks rest with
  | '}' :: rest => return (entries, rest)
  | ',' :: rest => if rest.length < text.length then scanEntries scan entries rest else none
  | _ => none
termination_by text.length

/-- Finds a number, a date or a time. -/
def scanNumberOrDate : Scan Toml := fun text =>
  (scanDate text).orElse fun _ => scanNumber text

/-- Finds a value within which arrays and tables in braces are nested less deep than the limit. -/
def scanValue (limit : Nat) : Scan Toml := fun text =>
  match text with
  | [] => none
  | c :: rest =>
    if c = '"' ∨ c = '\'' then do
      let (found, rest) ← scanString text
      return (.string found, rest)
    else if c = '[' then
      match limit with
      | 0 => none
      | limit + 1 => do
        let (items, rest) ← scanItems (scanValue limit) rest
        return (.array items, rest)
    else if c = '{' then
      match limit with
      | 0 => none
      | limit + 1 => do
        match skipBlanks rest with
        | '}' :: rest => return (.inline [], rest)
        | _ =>
          let (entries, rest) ← scanEntries (scanValue limit) [] rest
          return (.inline entries, rest)
    else if c = 't' then do return (.boolean true, ← dropWord? "true" text)
    else if c = 'f' then do return (.boolean false, ← dropWord? "false" text)
    else scanNumberOrDate text

/-- The greatest nesting of arrays and tables in braces. -/
def maxNesting : Nat := 79

/-! ## Lines -/

/-- What a line says. -/
inductive Line where
  | pair (path : List String) (key : String) (value : Toml)
  | header (path : List String) (key : String)
  | arrayHeader (path : List String) (key : String)

/-- Finds what a line says, up to the end of the line. -/
def scanLine : Scan Line := fun text => do
  let (line, rest) ←
    match text with
    | '[' :: '[' :: rest => do
      let ((path, key), rest) ← scanKey rest
      match rest with
      | ']' :: ']' :: rest => pure (Line.arrayHeader path key, rest)
      | _ => none
    | '[' :: rest => do
      let ((path, key), rest) ← scanKey rest
      match rest with
      | ']' :: rest => pure (Line.header path key, rest)
      | _ => none
    | _ => do
      let (((path, key), value), rest) ← scanPair (scanValue maxNesting) text
      pure (Line.pair path key value, rest)
  return (line, ← endLine? rest)

/-- Adds what a line says. -/
def Builder.add? (b : Builder) : Line → Option Builder
  | .pair path key value => b.put? path key value
  | .header path key => b.openTable? path key
  | .arrayHeader path key => b.openArrayTable? path key

/-- Adds what the lines of a text say. -/
def addLines? (b : Builder) (text : List Char) : Option Builder :=
  match skipLines false text with
  | [] => some b
  | start => do
    let (line, rest) ← scanLine start
    let b ← b.add? line
    if rest.length < text.length then addLines? b rest else none
termination_by text.length

/-- The text without the mark at its front that tells the order of bytes. -/
def dropByteOrderMark : List Char → List Char
  | c :: rest => if c.toNat = 0xFEFF then rest else c :: rest
  | [] => []

/-- The table of a text. -/
def parse (text : String) : Option Entries := do
  (← addLines? {} (dropByteOrderMark text.toList)).finish?

end DataContract.Toml
