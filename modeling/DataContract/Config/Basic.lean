import DataContract.Text.Search

/-!
# Configuration

The choices that steer discovery, naming and the extraction of operations.

Specification (`SPEC_FULL.md`, part II): section 6, the fields of `CompilerConfig`.

Contents:

* `Config`: the choices, with their defaults.
* `Config.ignores`, `Config.excludes`, `Config.namesByRoute`: what they say of a name.
-/

namespace DataContract

/-- How objects are revived. -/
inductive ObjectRevival where
  /-- By the constructor of their class, which revives the properties. -/
  | construct
  /-- In place, property by property. -/
  | inline
  deriving DecidableEq, Inhabited, Repr

/-- The word for a way to revive objects. -/
def ObjectRevival.word : ObjectRevival → String
  | .construct => "construct"
  | .inline => "inline"

/-- The choices (section 6, `CompilerConfig`). -/
structure Config where
  /-- The greatest number of discovery passes. -/
  maxPasses : Nat := 50
  /-- The types that are never discovered, by name or by identity. -/
  ignoreTypes : List String := []
  /-- The controllers whose operations are left out. -/
  excludeControllers : List String := []
  /-- The beginnings that are cut off routes. -/
  stripRoutePrefixes : List String := ["REST/", "api/"]
  /-- The actions whose names give way to one taken from the route. -/
  preferRouteNameFor : List String := ["get", "put", "post", "delete"]
  objectRevival : ObjectRevival := .construct
  /-- The methods of interfaces are sorted by name. -/
  sortMethods : Bool := true
  deriving DecidableEq, Inhabited, Repr

namespace Config

/-- The type is never discovered. -/
def ignores (config : Config) (name identity : String) : Bool :=
  config.ignoreTypes.any fun t => t == name || t == identity

/-- The operations of the controller are left out.  The case of ASCII letters does not count. -/
def excludes (config : Config) (controller : String) : Bool :=
  config.excludeControllers.any (Text.caselessEq · controller)

/-- The action's name gives way to one taken from the route.  The case of ASCII letters does not
count. -/
def namesByRoute (config : Config) (action : String) : Bool :=
  config.preferRouteNameFor.any (Text.caselessEq · action)

end Config

end DataContract
