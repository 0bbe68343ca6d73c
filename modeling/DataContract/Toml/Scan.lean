import DataContract.Double.Basic
import DataContract.Text.Numeral
import DataContract.Toml.Basic

/-!
# Scanning TOML

Blanks, keys and scalars at the front of a TOML text.  A scan gives what it finds and the rest of
the text, and nothing for a text that is not well formed.

Specification (`SPEC_FULL.md`, part II): section 10.3, TOML.

Contents:

* `Toml.skipBlanks`, `Toml.skipLines`: what stands between tokens.
* `Toml.scanKey`: a key, with dots.
* `Toml.scanString`, `Toml.scanNumber`, `Toml.scanDate`: scalars.
-/

namespace DataContract.Toml

/-- Finds something at the front of a text. -/
abbrev Scan (α : Type) := List Char → Option (α × List Char)

/-! ## Between tokens -/

/-- A blank within a line. -/
def isSpace (c : Char) : Bool := c == ' ' || c == '\t'

/-- A character of a comment. -/
def isCommentChar (c : Char) : Bool := c == '\t' || (0x20 ≤ c.toNat && c.toNat != 0x7F)

/-- The text without the blanks at its front. -/
def skipBlanks (text : List Char) : List Char := text.dropWhile isSpace

/-- The text without the blanks, comments and line ends at its front.  A comment must end with
its line. -/
def skipLines (inComment : Bool) : List Char → List Char
  | [] => []
  | '\r' :: '\n' :: rest => skipLines false rest
  | c :: rest =>
    if c = '\n' then skipLines false rest
    else if inComment then if isCommentChar c then skipLines true rest else c :: rest
    else if isSpace c then skipLines false rest
    else if c = '#' then skipLines true rest
    else c :: rest

/-- The text behind the end of its line, before which only blanks and a comment may stand. -/
def endLine? (text : List Char) : Option (List Char) :=
  let rest :=
    match skipBlanks text with
    | '#' :: comment => comment.dropWhile isCommentChar
    | rest => rest
  match rest with
  | [] => some []
  | '\n' :: rest => some rest
  | '\r' :: '\n' :: rest => some rest
  | _ => none

/-! ## Strings -/

/-- Finds so many hexadecimal digits that denote a character. -/
def scanCodePoint (count : Nat) : Scan Char := fun text => do
  let digits := text.take count
  guard (digits.length = count)
  let point ← digits.foldlM (fun n c => (16 * n + ·) <$> Text.hexValue? c) 0
  guard point.isValidChar
  return (Char.ofNat point, text.drop count)

/-- Finds the character that is escaped behind a backslash. -/
def scanEscape : Scan Char
  | 'b' :: rest => some ('\x08', rest)
  | 't' :: rest => some ('\t', rest)
  | 'n' :: rest => some ('\n', rest)
  | 'f' :: rest => some ('\x0c', rest)
  | 'r' :: rest => some ('\r', rest)
  | '"' :: rest => some ('"', rest)
  | '\\' :: rest => some ('\\', rest)
  | 'u' :: rest => scanCodePoint 4 rest
  | 'U' :: rest => scanCodePoint 8 rest
  | _ => none

/-- The delimiter of a kind of strings: those between double quotes have escapes. -/
def delimiter (escapes : Bool) : Char := if escapes then '"' else '\''

/-- Finds the rest of a string on one line. -/
def scanLineString (escapes : Bool) (text : List Char) : Option (List Char × List Char) :=
  match text with
  | [] => none
  | c :: rest =>
    if c = delimiter escapes then some ([], rest)
    else if escapes ∧ c = '\\' then do
      let (found, after) ← scanEscape rest
      if after.length < rest.length + 1 then
        let (chars, last) ← scanLineString escapes after
        return (found :: chars, last)
      else none
    else if isCommentChar c then do
      let (chars, last) ← scanLineString escapes rest
      return (c :: chars, last)
    else none
termination_by text.length

/-- The text behind a backslash at the end of a line: all blanks and line ends are skipped. -/
def skipContinuation? (text : List Char) : Option (List Char) :=
  match skipBlanks text with
  | '\n' :: rest => some (skipSpace rest)
  | '\r' :: '\n' :: rest => some (skipSpace rest)
  | _ => none
where
  /-- The text without blanks and line ends at its front. -/
  skipSpace : List Char → List Char
  | '\r' :: '\n' :: rest => skipSpace rest
  | c :: rest => if isSpace c || c == '\n' then skipSpace rest else c :: rest
  | [] => []

/-- The greatest number of delimiters that may stand at the end of a string of several lines: the
three that close it and two of its own. -/
def maxDelimiters : Nat := 5

/-- Finds the rest of a string of several lines. -/
def scanLinesString (escapes : Bool) (text : List Char) : Option (List Char × List Char) :=
  let quote := delimiter escapes
  match text with
  | [] => none
  | c :: rest =>
    if c = quote then
      let run := text.takeWhile (· == quote)
      if 3 ≤ run.length then
        if run.length ≤ maxDelimiters then some (run.drop 3, text.drop run.length) else none
      else do
        let (chars, last) ← scanLinesString escapes rest
        return (c :: chars, last)
    else if escapes ∧ c = '\\' then
      match skipContinuation? rest with
      | some after =>
        if after.length < rest.length + 1 then scanLinesString escapes after else none
      | none => do
        let (found, after) ← scanEscape rest
        if after.length < rest.length + 1 then
          let (chars, last) ← scanLinesString escapes after
          return (found :: chars, last)
        else none
    else if c = '\r' ∧ rest.head? ≠ some '\n' then none
    else if c = '\r' then scanLinesString escapes rest
    else if isCommentChar c ∨ c = '\n' then do
      let (chars, last) ← scanLinesString escapes rest
      return (c :: chars, last)
    else none
termination_by text.length

/-- The text without a line end at its front. -/
def dropLineEnd : List Char → List Char
  | '\n' :: rest => rest
  | '\r' :: '\n' :: rest => rest
  | text => text

/-- Finds a string. -/
def scanString : Scan String := fun text => do
  let (chars, rest) ←
    match text with
    | '"' :: '"' :: '"' :: rest => scanLinesString true (dropLineEnd rest)
    | '"' :: rest => scanLineString true rest
    | '\'' :: '\'' :: '\'' :: rest => scanLinesString false (dropLineEnd rest)
    | '\'' :: rest => scanLineString false rest
    | _ => none
  return (String.ofList chars, rest)

/-! ## Keys -/

/-- A character of a key without quotes. -/
def isKeyChar (c : Char) : Bool := c.isAlphanum || c == '_' || c == '-'

/-- Finds a key without dots. -/
def scanSimpleKey : Scan String := fun text =>
  match text with
  | '"' :: rest => do
    let (chars, rest) ← scanLineString true rest
    return (String.ofList chars, rest)
  | '\'' :: rest => do
    let (chars, rest) ← scanLineString false rest
    return (String.ofList chars, rest)
  | _ =>
    let key := text.takeWhile isKeyChar
    if key.isEmpty then none else some (String.ofList key, text.dropWhile isKeyChar)

/-- The number of parts that are too many for a key. -/
def tooManyParts : Nat := 80

/-- Finds the parts of a key, at most as many as given. -/
def scanKeyParts : Nat → Scan (List String)
  | 0, _ => none
  | limit + 1, text => do
    let (part, rest) ← scanSimpleKey (skipBlanks text)
    match skipBlanks rest with
    | '.' :: rest => do
      let (parts, rest) ← scanKeyParts limit rest
      return (part :: parts, rest)
    | rest => return ([part], rest)

/-- Finds a key with blanks around it: the parts before the last dot and the last part. -/
def scanKey : Scan (List String × String) := fun text => do
  let (parts, rest) ← scanKeyParts (tooManyParts - 1) text
  let last ← parts.getLast?
  return ((parts.dropLast, last), rest)

/-! ## Numbers -/

/-- Finds digits, between any two of which one underscore may stand. -/
def scanDigits (isDigit : Char → Bool) (text : List Char) : Option (List Char × List Char) :=
  match text with
  | [] => none
  | c :: rest =>
    if isDigit c then
      match rest with
      | '_' :: after => do
        let (digits, rest) ← scanDigits isDigit after
        return (c :: digits, rest)
      | next :: after =>
        if isDigit next then do
          let (digits, rest) ← scanDigits isDigit (next :: after)
          return (c :: digits, rest)
        else some ([c], next :: after)
      | [] => some ([c], [])
    else none
termination_by text.length

/-- Splits off a sign. -/
def splitSign : List Char → Bool × List Char
  | '+' :: rest => (false, rest)
  | '-' :: rest => (true, rest)
  | text => (false, text)

/-- Finds the digits of a decimal number, which begins with zero only if that is all of it. -/
def scanDecimal : Scan (List Char) := fun text =>
  match text with
  | '0' :: rest => some (['0'], rest)
  | _ => scanDigits Char.isDigit text

/-- An integer of 64 bits with a sign. -/
def integer? (value : Int) : Option Toml :=
  if Text.isSigned64 value then some (.integer value) else none

/-- Finds digits in a base other than ten. -/
def scanInBase (base : Nat) : Scan Toml := fun text => do
  let (digits, rest) ← scanDigits (fun c => (Text.hexValue? c).any (· < base)) text
  return (← integer? (Text.valueIn base digits), rest)

/-- The parts of a number: digits before and behind the point and an exponent. -/
structure Decimal where
  whole : List Char
  fraction : List Char := []
  exponent : Option Int := none
  /-- The number has a point. -/
  pointed : Bool := false

/-- Finds an exponent: its sign and its digits. -/
def scanExponent : Scan Int := fun text => do
  let (negative, rest) := splitSign text
  let (digits, rest) ← scanDigits Char.isDigit rest
  let value : Int := Text.valueIn 10 digits
  return (if negative then -value else value, rest)

/-- Finds the exponent of a number, if there is one. -/
def scanExponentOf (number : Decimal) : Scan Decimal := fun text =>
  match text with
  | 'e' :: rest | 'E' :: rest => do
    let (exponent, rest) ← scanExponent rest
    return ({ number with exponent := some exponent }, rest)
  | _ => some (number, text)

/-- Finds a number without sign. -/
def scanUnsigned : Scan Decimal := fun text => do
  let (whole, rest) ← scanDecimal text
  match rest with
  | '.' :: rest =>
    let (fraction, rest) ← scanDigits Char.isDigit rest
    scanExponentOf { whole, fraction, pointed := true } rest
  | _ => scanExponentOf { whole } rest

/-- The number is an integer. -/
def Decimal.isInteger (number : Decimal) : Bool := !number.pointed && number.exponent.isNone

/-- The number is beyond the greatest double. -/
def Decimal.overflows (number : Decimal) : Bool :=
  let significand := Text.valueIn 10 (number.whole ++ number.fraction)
  let power := number.exponent.getD 0 - number.fraction.length
  let digits : Int := (Nat.toDigits 10 significand).length + power
  if significand = 0 ∨ digits ≤ 0 then false
  else if 400 < digits then true
  else
    (Double.ofRatio? false (significand * Double.pow10 power.toNat)
      (Double.pow10 (-power).toNat)).isNone

/-- The text behind a word at its front. -/
def dropWord? (word : String) (text : List Char) : Option (List Char) :=
  if word.toList.isPrefixOf text then some (text.drop word.length) else none

/-- Finds a number. -/
def scanNumber : Scan Toml := fun text =>
  match text with
  | '0' :: 'x' :: rest => scanInBase 16 rest
  | '0' :: 'o' :: rest => scanInBase 8 rest
  | '0' :: 'b' :: rest => scanInBase 2 rest
  | _ =>
    let (negative, unsigned) := splitSign text
    match (dropWord? "inf" unsigned).orElse fun _ => dropWord? "nan" unsigned with
    | some rest => some (.float, rest)
    | none => do
      let (number, rest) ← scanUnsigned unsigned
      let value : Int := Text.valueIn 10 number.whole
      if number.isInteger then return (← integer? (if negative then -value else value), rest)
      else if !negative && number.overflows then none
      else return (.float, rest)

/-! ## Dates and times -/

/-- Finds a number of so many digits within bounds. -/
def scanField (count low high : Nat) : Scan Nat := fun text => do
  let digits := text.take count
  guard (digits.length = count ∧ digits.all Char.isDigit)
  let value := Text.valueIn 10 digits
  guard (low ≤ value ∧ value ≤ high)
  return (value, text.drop count)

/-- Finds a character. -/
def scanChar (c : Char) : Scan Unit
  | first :: rest => if first = c then some ((), rest) else none
  | [] => none

/-- The year has a 29th of February. -/
def isLeapYear (year : Nat) : Bool := year % 4 == 0 && (year % 100 != 0 || year % 400 == 0)

/-- The number of days of a month. -/
def daysIn (year month : Nat) : Nat :=
  if month = 2 then if isLeapYear year then 29 else 28
  else if month ∈ [4, 6, 9, 11] then 30
  else 31

/-- Finds a date. -/
def scanDay : Scan Unit := fun text => do
  let (year, text) ← scanField 4 0 9999 text
  let (_, text) ← scanChar '-' text
  let (month, text) ← scanField 2 1 12 text
  let (_, text) ← scanChar '-' text
  let (_, text) ← scanField 2 1 (daysIn year month) text
  return ((), text)

/-- Finds a time of day. -/
def scanTime : Scan Unit := fun text => do
  let (_, text) ← scanField 2 0 23 text
  let (_, text) ← scanChar ':' text
  let (_, text) ← scanField 2 0 59 text
  let (_, text) ← scanChar ':' text
  let (_, text) ← scanField 2 0 60 text
  match text with
  | '.' :: rest =>
    if (rest.takeWhile Char.isDigit).isEmpty then none
    else return ((), rest.dropWhile Char.isDigit)
  | _ => return ((), text)

/-- Finds the offset of a time, if there is one. -/
def scanOffset : Scan Unit := fun text =>
  match text with
  | 'Z' :: rest | 'z' :: rest => some ((), rest)
  | '+' :: rest | '-' :: rest => do
    let (_, text) ← scanField 2 0 23 rest
    let (_, text) ← scanChar ':' text
    let (_, text) ← scanField 2 0 59 text
    return ((), text)
  | _ => some ((), text)

/-- Finds a date, a time or both.  A blank behind a date belongs to it only if a time follows. -/
def scanDate : Scan Toml := fun text =>
  match scanDay text with
  | none => do return (.datetime, (← scanTime text).2)
  | some (_, rest) =>
    match rest with
    | 'T' :: time | 't' :: time | ' ' :: time =>
      match scanTime time with
      | some (_, rest) => do return (.datetime, (← scanOffset rest).2)
      | none => some (.datetime, rest)
    | _ => some (.datetime, rest)

end DataContract.Toml
