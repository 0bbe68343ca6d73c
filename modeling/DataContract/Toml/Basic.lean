import DataContract.Keyed

/-!
# TOML values

The values of a TOML text and the rules by which its tables grow.  A table is defined once: by a
header, by keys with dots, or in braces.  A header may still define a table that came up only on
the way to another one, and keys with dots may go on with a table that keys with dots began.

Specification (`SPEC_FULL.md`, part II): section 10.3, TOML.

Contents:

* `Toml`: the values.
* `Toml.insert?`: puts a value at a path of keys into a table.
* `Toml.Builder`: the table of a text as it grows line by line.
-/

namespace DataContract

/-- How a table has come up. -/
inductive Toml.TableKind where
  /-- By its own header, or as the table of the whole text. -/
  | headed
  /-- On the way to a table with a header. -/
  | implied
  /-- By keys with dots. -/
  | dotted
  deriving DecidableEq, Inhabited, Repr

/-- A TOML value.  The values of floats and dates make no difference and are not kept. -/
inductive Toml where
  | string (text : String)
  | integer (value : Int)
  | float
  | boolean (value : Bool)
  | datetime
  | array (items : List Toml)
  /-- A table in braces. -/
  | inline (entries : List (String × Toml))
  | table (kind : Toml.TableKind) (entries : List (String × Toml))
  /-- An array of tables that have headers of their own, the last one first. -/
  | tables (items : List (List (String × Toml)))
  deriving Inhabited, Repr

namespace Toml

/-- The entries of a table. -/
abbrev Entries := List (String × Toml)

/-- The entries without that key. -/
def removeEntry (key : String) (entries : Entries) : Entries :=
  entries.filter fun (other, _) => other != key

/-- A change to the entries of a table of some kind, none if it may not be made. -/
abbrev Change := TableKind → Entries → Option Entries

/-- Makes a change in the table at a path.  `via` is how tables come up that the path needs and
that are not there; keys with dots do not enter a table that has a header.  An array of tables
stands for its last table. -/
def changeAt? (via : TableKind) (change : Change) :
    List String → TableKind → Entries → Option Entries
  | [], kind, entries => change kind entries
  | key :: path, _, entries =>
    match entries.lookup key with
    | none => do
      let inner ← changeAt? via change path via []
      return Keyed.set key (.table via inner) entries
    | some (.table kind inner) =>
      if via = .dotted ∧ kind = .headed then none
      else do
        let inner ← changeAt? via change path kind inner
        return Keyed.set key (.table kind inner) entries
    | some (.tables (last :: others)) => do
      let last ← changeAt? via change path .headed last
      return Keyed.set key (.tables (last :: others)) entries
    | some _ => none

/-- Adds a key that is not there. -/
def addEntry? (key : String) (value : Toml) (entries : Entries) : Option Entries :=
  if (entries.lookup key).isSome then none else some (entries ++ [(key, value)])

/-- Puts a value at a path of keys, the last of which is `key`.  With more than one key the table
must be one that keys with dots began. -/
def insert? (path : List String) (key : String) (value : Toml) (entries : Entries) :
    Option Entries :=
  let change : Change := fun kind entries =>
    if path ≠ [] ∧ kind ≠ .dotted then none else addEntry? key value entries
  changeAt? .dotted change path .headed entries

/-! ## The table of a text -/

/-- The table of a text as it grows.  The table of the last header is kept apart until the next
header. -/
structure Builder where
  /-- The table of the text without that of the last header. -/
  root : Entries := []
  /-- The path of the last header; none before the first header. -/
  header : Option (List String × String) := none
  /-- The last header is one of an array of tables. -/
  inArray : Bool := false
  /-- The table of the last header. -/
  current : Entries := []

namespace Builder

/-- Puts a value into the table of the last header. -/
def put? (b : Builder) (path : List String) (key : String) (value : Toml) : Option Builder := do
  return { b with current := ← insert? path key value b.current }

/-- Adds a table to the array of tables at a key. -/
def pushTable? (key : String) (table : Entries) (entries : Entries) : Option Entries :=
  match entries.lookup key with
  | some (.tables items) => some (Keyed.set key (.tables (table :: items)) entries)
  | none => some (Keyed.set key (.tables [table]) entries)
  | some _ => none

/-- The table of the text with that of the last header. -/
def finish? (b : Builder) : Option Entries :=
  match b.header with
  | none => some b.current
  | some (path, key) =>
    let change : Change := fun _ entries =>
      if b.inArray then pushTable? key b.current entries
      else addEntry? key (.table .headed b.current) entries
    changeAt? .implied change path .headed b.root

/-- Begins the table of a header. -/
def openTable? (b : Builder) (path : List String) (key : String) : Option Builder := do
  let root ← b.finish?
  let root ← changeAt? .implied (fun _ entries => some entries) path .headed root
  let inner ← entryAt? path root
  match inner.lookup key with
  | none => return { root, header := some (path, key), inArray := false, current := [] }
  | some (.table .implied entries) =>
    let remove : Change := fun _ entries => some (removeEntry key entries)
    let root ← changeAt? .implied remove path .headed root
    return { root, header := some (path, key), inArray := false, current := entries }
  | some _ => none
where
  /-- The entries of the table at a path. -/
  entryAt? : List String → Entries → Option Entries
  | [], entries => some entries
  | key :: path, entries =>
    match entries.lookup key with
    | some (.table _ inner) => entryAt? path inner
    | some (.tables (last :: _)) => entryAt? path last
    | _ => none

/-- Begins a further table of the array of tables of a header. -/
def openArrayTable? (b : Builder) (path : List String) (key : String) : Option Builder := do
  let root ← b.finish?
  let change : Change := fun _ entries =>
    match entries.lookup key with
    | none => some entries
    | some (.tables _) => some entries
    | some _ => none
  let root ← changeAt? .implied change path .headed root
  return { root, header := some (path, key), inArray := true, current := [] }

end Builder

end Toml

end DataContract
