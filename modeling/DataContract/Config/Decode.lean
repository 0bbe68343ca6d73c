import DataContract.Config.Basic
import DataContract.Toml.Reader

/-!
# Reading configurations

A configuration is a TOML text.  What it does not say keeps its default, and what is no choice is
passed over.

Specification (`SPEC_FULL.md`, part II): section 10.3, `CompilerConfig` read from TOML.

Contents:

* `Config.decode?`: the configuration of a table.
* `Config.parse?`: the configuration of a text.
-/

namespace DataContract.Config

/-! ## Values -/

/-- A natural number. -/
def natural? : Toml → Option Nat
  | .integer value => if 0 ≤ value then some value.toNat else none
  | _ => none

/-- True or false. -/
def flag? : Toml → Option Bool
  | .boolean value => some value
  | _ => none

/-- A text. -/
def text? : Toml → Option String
  | .string text => some text
  | _ => none

/-- An array of texts. -/
def texts? : Toml → Option (List String)
  | .array items => items.mapM text?
  | _ => none

/-- The way to revive objects that a word says. -/
def revivalOfWord? (word : String) : Option ObjectRevival :=
  [ObjectRevival.construct, .inline].find? (·.word == word)

/-- An array or a table without anything in it. -/
def isEmpty : Toml → Bool
  | .array items => items.isEmpty
  | .inline entries => entries.isEmpty
  | .table _ entries => entries.isEmpty
  | .tables items => items.isEmpty
  | _ => false

/-- A way to revive objects: its word, or a table with the word as its only key and nothing at
it. -/
def revival? : Toml → Option ObjectRevival
  | .string word => revivalOfWord? word
  | .inline [(word, value)] | .table _ [(word, value)] =>
    if isEmpty value then revivalOfWord? word else none
  | _ => none

/-! ## Choices -/

/-- The configuration with the value of a key, if there is one. -/
def choose? {α : Type} (entries : Toml.Entries) (key : String) (read : Toml → Option α)
    (put : α → Config → Config) (config : Config) : Option Config :=
  match entries.lookup key with
  | none => some config
  | some value => (put · config) <$> read value

/-- The configuration of a table. -/
def decode? (entries : Toml.Entries) : Option Config := do
  let c ← choose? entries "max_passes" natural? (fun v c => { c with maxPasses := v }) {}
  let c ← choose? entries "ignore_types" texts? (fun v c => { c with ignoreTypes := v }) c
  let c ← choose? entries "exclude_controllers" texts?
    (fun v c => { c with excludeControllers := v }) c
  let c ← choose? entries "strip_route_prefixes" texts?
    (fun v c => { c with stripRoutePrefixes := v }) c
  let c ← choose? entries "prefer_route_name_for" texts?
    (fun v c => { c with preferRouteNameFor := v }) c
  let c ← choose? entries "object_revival" revival? (fun v c => { c with objectRevival := v }) c
  choose? entries "sort_methods" flag? (fun v c => { c with sortMethods := v }) c

/-- The configuration of a text. -/
def parse? (text : String) : Option Config := (Toml.parse text).bind decode?

end DataContract.Config
