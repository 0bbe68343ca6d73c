import DataContract.Json.Scan

/-!
# Reading JSON text

The tree of a text.  A pushdown machine reads the text token by token; its stack holds the arrays
and objects that are still open.  At a fault it stops, and the open arrays and objects end there.

Specification (`SPEC_FULL.md`, part II): section 10.4, the JSON that is read.

Contents:

* `Source.read`: the tree of the value at the front of a text, with the text behind it.
* `Json.parse`: the value of a text that holds a value and blanks only.
-/

namespace DataContract

namespace Source

/-! ## Open arrays and objects -/

/-- An array or object that is open while a value in it is read, with what it holds so far, the
last one first. -/
inductive Frame where
  | items (done : List Source)
  | members (done : List (Json.Literal × Source)) (key : Json.Literal)

/-- Items that go on as given behind those read so far. -/
def itemsOnto (last : Items) (done : List Source) : Items :=
  done.foldl (fun rest value => .item value rest) last

/-- Members that go on as given behind those read so far. -/
def membersOnto (last : Members) (done : List (Json.Literal × Source)) : Members :=
  done.foldl (fun rest (key, value) => .member key value rest) last

/-- What an open array or object is when the text stops within the given value of it. -/
def Frame.stopped (inner : Source) : Frame → Source
  | .items done => .array (itemsOnto (.item inner .close) done)
  | .members done key => .object (membersOnto (.member key inner .close) done)

/-- The tree when the text stops within the given value. -/
def stopped (frames : List Frame) (inner : Source) : Source := frames.foldl Frame.stopped inner

/-! ## The machine -/

/-- What may come next. -/
inductive Place where
  /-- A value, or also the closing bracket directly behind the opening one. -/
  | value (first : Bool)
  /-- A key, or also the closing brace directly behind the opening one. -/
  | key (first : Bool) (done : List (Json.Literal × Source))
  /-- The colon behind a key. -/
  | colon (done : List (Json.Literal × Source)) (key : Json.Literal)
  /-- What goes on behind a value. -/
  | next (value : Source)

/-- The blanks of JSON. -/
def isSpace (c : Char) : Bool := c == ' ' || c == '\t' || c == '\n' || c == '\r'

/-- The scalar at the front of a text that begins with `c`; none for any other text. -/
def scanScalar? (c : Char) (rest : List Char) : Option (Json.Scan Source) :=
  if c = 'n' then some (Json.scanWord .null "ull".toList rest)
  else if c = 't' then some (Json.scanWord (.bool true) "rue".toList rest)
  else if c = 'f' then some (Json.scanWord (.bool false) "alse".toList rest)
  else if c = '"' then
    some <| match Json.scanLiteral rest with
      | .found literal rest => .found (.string literal) rest
      | .broken fault => .broken fault
  else if c = '-' then
    some <| match Json.scanNumber true rest with
      | .found value rest => .found (.number value) rest
      | .broken fault => .broken fault
  else if c.isDigit then
    some <| match Json.scanNumber false (c :: rest) with
      | .found value rest => .found (.number value) rest
      | .broken fault => .broken fault
  else none

theorem scanScalar?_length {c : Char} {text rest : List Char} {value : Source}
    (h : scanScalar? c text = some (.found value rest)) : rest.length ≤ text.length := by
  unfold scanScalar? at h
  split at h
  · exact (Json.scanWord_length _ _ text).length_le (Option.some.inj h)
  split at h
  · exact (Json.scanWord_length _ _ text).length_le (Option.some.inj h)
  split at h
  · exact (Json.scanWord_length _ _ text).length_le (Option.some.inj h)
  split at h
  · split at h
    · rename_i found
      injection Option.some.inj h with _ h
      exact h ▸ (Json.scanLiteral_length text).length_le found
    · simp at h
  split at h
  · split at h
    · rename_i found
      injection Option.some.inj h with _ h
      exact h ▸ (Json.scanNumber_length true text).length_le found
    · simp at h
  split at h
  · rename_i digit
    split at h
    · rename_i found
      injection Option.some.inj h with _ h
      exact Nat.le_of_lt_succ (h ▸ Json.scanNumber_length_lt digit found)
    · simp at h
  · simp at h

/-- The tree of the value at the front of a text, and the text behind it.  After a fault no text
is left. -/
def run (place : Place) (frames : List Frame) (text : List Char) : Source × List Char :=
  match place, frames, text with
  | .next value, [], text => (value, text)
  | .value _, frames, [] => (stopped frames (.broken (.plain .truncated)), [])
  | .colon done key, frames, [] =>
    (stopped (.members done key :: frames) (.broken (.plain .truncated)), [])
  | .key _ done, frames, [] =>
    (stopped frames (.object (membersOnto (.noKey (.plain .truncated)) done)), [])
  | .next value, .items done :: frames, [] =>
    (stopped frames (.array (itemsOnto (.cut .truncated) (value :: done))), [])
  | .next value, .members done key :: frames, [] =>
    (stopped frames (.object (membersOnto (.cut .truncated) ((key, value) :: done))), [])
  | place, frames, c :: rest =>
    if isSpace c then run place frames rest
    else
      match place, frames with
      | .value first, frames =>
        if c = '[' then run (.value true) (.items [] :: frames) rest
        else if c = '{' then run (.key true []) frames rest
        else
          match first, frames, c with
          | true, .items [] :: outer, ']' => run (.next (.array .close)) outer rest
          | _, _, _ =>
            match _hs : scanScalar? c rest with
            | some (.found value after) => run (.next value) frames after
            | some (.broken fault) => (stopped frames (.broken fault), [])
            | none => (stopped frames (.broken (.plain .malformed)), [])
      | .key first done, frames =>
        if c = '"' then
          match _hs : Json.scanLiteral rest with
          | .found key after => run (.colon done key) frames after
          | .broken fault => (stopped frames (.object (membersOnto (.noKey fault) done)), [])
        else if c = '}' ∧ first then run (.next (.object .close)) frames rest
        else (stopped frames (.object (membersOnto (.noKey (.plain .malformed)) done)), [])
      | .colon done key, frames =>
        if c = ':' then run (.value false) (.members done key :: frames) rest
        else (stopped (.members done key :: frames) (.broken (.plain .malformed)), [])
      | .next value, .items done :: outer =>
        if c = ',' then run (.value false) (.items (value :: done) :: outer) rest
        else if c = ']' then
          run (.next (.array (itemsOnto .close (value :: done)))) outer rest
        else (stopped outer (.array (itemsOnto (.cut .malformed) (value :: done))), [])
      | .next value, .members done key :: outer =>
        if c = ',' then run (.key false ((key, value) :: done)) outer rest
        else if c = '}' then
          run (.next (.object (membersOnto .close ((key, value) :: done)))) outer rest
        else
          (stopped outer (.object (membersOnto (.cut .malformed) ((key, value) :: done))), [])
      | .next value, [] => (value, c :: rest)
termination_by text.length
decreasing_by
  all_goals simp only [List.length_cons]
  all_goals first
    | omega
    | exact Nat.lt_succ_of_le (scanScalar?_length _hs)
    | exact Nat.lt_succ_of_le ((Json.scanLiteral_length rest).length_le _hs)

/-- The tree of the value at the front of a text, and the text behind it. -/
def read (text : String) : Source × List Char := run (.value false) [] text.toList

end Source

/-- The value of a text that holds one value and blanks besides, with fewer brackets around any
value than are too many. -/
def Json.parse (text : String) : Except Json.Flaw Json :=
  let (source, rest) := Source.read text
  match source.flawReading? 0 with
  | some flaw => .error flaw
  | none => if rest.all Source.isSpace then .ok source.toJson else .error .malformed

end DataContract
