/-!
# Arguments of the command line

The grammar of the arguments:

    [-v] (compile | revivers) DOCUMENT [-v] [--config CONFIG] [-o PATH | --out PATH] [--pretty]

where the last two belong to `compile` alone.  Long options take a value as the next argument or
behind `=`, short ones also attached.  The next argument is no value if it begins with a dash and
goes on.  Behind `--` every argument is a document.

Specification (`SPEC_FULL.md`, part II): section 6, the CLI, and section 10.6.

Contents:

* `Request`: what is asked for.
* `Request.parse`: the request of some arguments.
-/

namespace DataContract

/-- What a request does with a document. -/
inductive Task where
  /-- Writes the model, to a file if one is named. -/
  | compile (out : Option String) (pretty : Bool)
  /-- Lists the revivals. -/
  | revivers
  deriving DecidableEq, Repr

/-- What is asked for. -/
inductive Request where
  | perform (task : Task) (document : String) (config : Option String)
  | version
  | help
  /-- The arguments make no request. -/
  | misuse
  deriving DecidableEq, Repr

namespace Request

/-- The commands. -/
inductive Command where
  | compile
  | revivers
  deriving DecidableEq, Repr

/-- The command of that name. -/
def command? : String → Option Command
  | "compile" => some .compile
  | "revivers" => some .revivers
  | _ => none

/-- What the arguments of a command have said so far. -/
structure Settings where
  verbose : Bool := false
  pretty : Bool := false
  config : Option String := none
  out : Option String := none
  document : Option String := none

/-- An option of a command. -/
inductive OptionName where
  | verbose
  | pretty
  | config
  | out
  deriving DecidableEq, Repr

/-- The option of a long name. -/
def longOption? (command : Command) (name : String) : Option OptionName :=
  match name, command with
  | "verbose", _ => some .verbose
  | "config", _ => some .config
  | "pretty", .compile => some .pretty
  | "out", .compile => some .out
  | _, _ => none

/-- The option of a short name. -/
def shortOption? (command : Command) (name : Char) : Option OptionName :=
  match name, command with
  | 'v', _ => some .verbose
  | 'o', .compile => some .out
  | _, _ => none

/-- The option takes a value. -/
def OptionName.takesValue : OptionName → Bool
  | .config | .out => true
  | .verbose | .pretty => false

/-- Sets a text that is not set yet, to one that is not empty. -/
def setOnce (value : String) : Option String → Option (Option String)
  | none => if value = "" then none else some (some value)
  | some _ => none

/-- The settings with an option, none if it is set already or its value is empty. -/
def Settings.set? (s : Settings) (option : OptionName) (value : String) : Option Settings :=
  match option with
  | .verbose => if s.verbose then none else some { s with verbose := true }
  | .pretty => if s.pretty then none else some { s with pretty := true }
  | .config => return { s with config := ← setOnce value s.config }
  | .out => return { s with out := ← setOnce value s.out }

/-- The settings with a document. -/
def Settings.setDocument? (s : Settings) (value : String) : Option Settings :=
  return { s with document := ← setOnce value s.document }

/-- The request that the settings make in the end. -/
def Settings.request (s : Settings) (command : Command) : Request :=
  match s.document with
  | none => .misuse
  | some document =>
    match command with
    | .compile => .perform (.compile s.out s.pretty) document s.config
    | .revivers => .perform .revivers document s.config

/-! ## Single arguments -/

/-- An argument by its form. -/
inductive Argument where
  /-- `--` alone. -/
  | separator
  /-- A long option, with the value behind `=`. -/
  | long (name : String) (value : Option String)
  /-- Short options in a row. -/
  | short (letters : List Char)
  | plain (text : String)
  deriving DecidableEq, Repr

/-- The form of an argument.  A dash alone is a plain text. -/
def Argument.ofString (text : String) : Argument :=
  match text.toList with
  | ['-', '-'] => .separator
  | '-' :: '-' :: rest =>
    let name := String.ofList (rest.takeWhile (· != '='))
    match rest.dropWhile (· != '=') with
    | [] => .long name none
    | _ :: value => .long name (some (String.ofList value))
  | '-' :: c :: rest => .short (c :: rest)
  | _ => .plain text

/-- The value that is attached to a short option. -/
def attachedValue : List Char → String
  | '=' :: value => String.ofList value
  | value => String.ofList value

/-! ## The arguments of a command -/

/-- The outcome of an argument. -/
inductive Step where
  | go (settings : Settings)
  /-- The next argument is the value of the option. -/
  | await (settings : Settings) (option : OptionName)
  | stop (request : Request)

/-- Goes on if the settings are fine. -/
def Step.ofSettings : Option Settings → Step
  | some settings => .go settings
  | none => .stop .misuse

/-- Short options in a row.  One that takes a value takes the rest of the row. -/
def stepShort (command : Command) (s : Settings) : List Char → Step
  | [] => .go s
  | 'h' :: _ => .stop .help
  | letter :: rest =>
    match shortOption? command letter with
    | none => .stop .misuse
    | some option =>
      if option.takesValue then
        if rest.isEmpty then .await s option
        else .ofSettings (s.set? option (attachedValue rest))
      else
        match s.set? option "" with
        | some s => stepShort command s rest
        | none => .stop .misuse

/-- A long option. -/
def stepLong (command : Command) (s : Settings) (name : String) (value : Option String) : Step :=
  if name = "help" ∧ value.isNone then .stop .help
  else
    match longOption? command name, value with
    | none, _ => .stop .misuse
    | some option, some value =>
      if option.takesValue then .ofSettings (s.set? option value) else .stop .misuse
    | some option, none =>
      if option.takesValue then .await s option else .ofSettings (s.set? option "")

/-- The request of a command's arguments, `pending` being the option whose value comes next. -/
def parseCommand (command : Command) (s : Settings) (pending : Option OptionName) :
    List String → Request
  | [] => if pending.isSome then .misuse else s.request command
  | text :: rest =>
    match pending, Argument.ofString text with
    | some option, .plain value =>
      match s.set? option value with
      | some s => parseCommand command s none rest
      | none => .misuse
    | some _, _ => .misuse
    | none, .separator =>
      match rest.foldlM Settings.setDocument? s with
      | some s => s.request command
      | none => .misuse
    | none, argument =>
      let step :=
        match argument with
        | .long name value => stepLong command s name value
        | .short letters => stepShort command s letters
        | .plain value => .ofSettings (s.setDocument? value)
        | .separator => .go s
      match step with
      | .go s => parseCommand command s none rest
      | .await s option => parseCommand command s (some option) rest
      | .stop request => request

/-! ## All arguments -/

/-- Short options in a row before the command.  `verbose` tells that one is set. -/
def shortBefore (verbose : Bool) : List Char → Except Request Bool
  | [] => .ok verbose
  | 'h' :: _ => .error .help
  | 'V' :: _ => .error .version
  | 'v' :: rest => if verbose then .error .misuse else shortBefore true rest
  | _ => .error .misuse

/-- The request of the arguments that ask for help on a command. -/
def helpOn : List String → Request
  | [] => .help
  | [name] => if name = "help" ∨ (command? name).isSome then .help else .misuse
  | _ => .misuse

/-- The request of the arguments, `verbose` telling that they are to be verbose already. -/
def parseFrom (verbose : Bool) : List String → Request
  | [] => .misuse
  | text :: rest =>
    match Argument.ofString text with
    | .separator => .misuse
    | .long "verbose" none => if verbose then .misuse else parseFrom true rest
    | .long "version" none => .version
    | .long "help" none => .help
    | .long _ _ => .misuse
    | .short letters =>
      match shortBefore verbose letters with
      | .ok verbose => parseFrom verbose rest
      | .error request => request
    | .plain name =>
      match command? name with
      | some command => parseCommand command {} none rest
      | none => if name = "help" then helpOn rest else .misuse

/-- The request of the arguments. -/
def parse (args : List String) : Request := parseFrom false args

end Request

end DataContract
