import SingleFile.Command

/-!
# The command line

Arguments are read from left to right. The first one names a subcommand; after it
come one path and options in any order. The first argument that is out of place
decides the error.
-/

namespace SingleFile.Command

/-- What is wrong with a command line. -/
inductive UsageError where
  | noSubcommand
  | unknownSubcommand (name : String)
  | unexpected (argument : String)
  | unexpectedValue (option : String)
  | missingValue (option : String)
  | emptyValue (name : String)
  | repeated (option : String)
  | conflict (first second : String)
  | noInput
  deriving Repr, DecidableEq

namespace UsageError

def message : UsageError → String
  | .noSubcommand => "a subcommand is required"
  | .unknownSubcommand name => "unrecognized subcommand '" ++ name ++ "'"
  | .unexpected argument => "unexpected argument '" ++ argument ++ "' found"
  | .unexpectedValue option => "unexpected value for '--" ++ option ++ "' found"
  | .missingValue option => "a value is required for '--" ++ option ++ "' but none was supplied"
  | .emptyValue name => "a value is required for '" ++ name ++ "' but it is empty"
  | .repeated option => "the argument '--" ++ option ++ "' cannot be used multiple times"
  | .conflict first second =>
    "the argument '--" ++ first ++ "' cannot be used with '--" ++ second ++ "'"
  | .noInput => "the following required arguments were not provided: <INPUT>"

end UsageError

/-- One argument by its form. -/
inductive Argument where
  /-- The mark after which every argument is a path. -/
  | escape
  /-- A name after two hyphens, with what follows an equals sign. -/
  | long (name : String) (value : Option String)
  /-- Letters after one hyphen. -/
  | short (letters : List Char)
  /-- Anything else, a single hyphen included. -/
  | plain (text : String)
  deriving Repr, DecidableEq

namespace Argument

/-- The form of a written argument. -/
def ofString (text : String) : Argument :=
  match text.toList with
  | ['-', '-'] => .escape
  | '-' :: '-' :: rest =>
    let name := String.ofList (rest.takeWhile (· ≠ '='))
    match rest.dropWhile (· ≠ '=') with
    | [] => .long name none
    | _ :: value => .long name (some (String.ofList value))
  | '-' :: c :: rest => .short (c :: rest)
  | _ => .plain text

end Argument

/-- What a command line asks for. -/
inductive Request where
  | version
  | help
  | run (command : Command)
  deriving Repr, DecidableEq

/-- Which options a subcommand has, without and with a value. -/
structure Options where
  flags : List String
  settings : List String

/-- What has been read of a subcommand's arguments. -/
structure Collected where
  input : Option String
  flags : List String
  settings : List (String × String)
  deriving Repr, DecidableEq

namespace Collected

/-- Take a path in. -/
def addInput (collected : Collected) (text : String) : Except UsageError Collected :=
  if collected.input.isSome then .error (.unexpected text)
  else if text = "" then .error (.emptyValue "<INPUT>")
  else .ok { collected with input := some text }

/-- Take a flag in. -/
def addFlag (collected : Collected) (name : String) : Except UsageError Collected :=
  if collected.flags.contains name then .error (.repeated name)
  else .ok { collected with flags := name :: collected.flags }

/-- Take an option with its value in. -/
def addSetting (collected : Collected) (name value : String) : Except UsageError Collected :=
  if (collected.settings.lookup name).isSome then .error (.repeated name)
  else if value = "" then .error (.emptyValue ("--" ++ name))
  else .ok { collected with settings := (name, value) :: collected.settings }

end Collected

/-- Read the arguments of a subcommand. The result is nothing when help is asked for. -/
def collect (options : Options) (collected : Collected) :
    List String → Except UsageError (Option Collected)
  | [] => .ok (some collected)
  | text :: rest =>
    match Argument.ofString text with
    | .escape => do
      return some (← rest.foldlM Collected.addInput collected)
    | .long name value =>
      if options.flags.contains name then
        match value with
        | some _ => .error (.unexpectedValue name)
        | none => do collect options (← collected.addFlag name) rest
      else if options.settings.contains name then
        match value with
        | some value => do collect options (← collected.addSetting name value) rest
        | none =>
          match rest with
          | [] => .error (.missingValue name)
          | next :: rest =>
            match Argument.ofString next with
            | .plain value => do collect options (← collected.addSetting name value) rest
            | _ => .error (.missingValue name)
      else if name = "help" && value.isNone then .ok none
      else .error (.unexpected text)
    | .short letters => if letters.head? = some 'h' then .ok none else .error (.unexpected text)
    | .plain text => do collect options (← collected.addInput text) rest

/-- Read a subcommand's arguments and make the command of them. -/
def readSubcommand (options : Options) (arguments : List String)
    (make : String → Collected → Except UsageError Command) : Except UsageError Request := do
  match ← collect options ⟨none, [], []⟩ arguments with
  | none => return .help
  | some collected =>
    match collected.input with
    | none => .error .noInput
    | some input => return .run (← make input collected)

/-- The arguments of `fmt`. -/
def readFmt (arguments : List String) : Except UsageError Request :=
  readSubcommand ⟨["write", "check"], []⟩ arguments fun input collected =>
    let write := collected.flags.contains "write"
    let check := collected.flags.contains "check"
    if write && check then .error (.conflict "write" "check") else .ok (.fmt input write check)

/-- The arguments of `from-json`. -/
def readFromJson (arguments : List String) : Except UsageError Request :=
  readSubcommand ⟨[], ["out"]⟩ arguments fun input collected =>
    .ok (.fromJson input (collected.settings.lookup "out"))

/-- The arguments of `help`: at most the name of a subcommand. -/
def readHelp : List String → Except UsageError Request
  | [] => .ok .help
  | [name] =>
    if ["fmt", "from-json", "help"].contains name then .ok .help
    else .error (.unknownSubcommand name)
  | _ :: name :: _ => .error (.unknownSubcommand name)

/-- Read a whole command line. -/
def readArguments : List String → Except UsageError Request
  | [] => .error .noSubcommand
  | text :: rest =>
    match Argument.ofString text with
    | .escape => .error .noSubcommand
    | .long "version" none => .ok .version
    | .long "help" none => .ok .help
    | .long _ _ => .error (.unexpected text)
    | .short ('V' :: _) => .ok .version
    | .short ('h' :: _) => .ok .help
    | .short _ => .error (.unexpected text)
    | .plain "fmt" => readFmt rest
    | .plain "from-json" => readFromJson rest
    | .plain "help" => readHelp rest
    | .plain name => .error (.unknownSubcommand name)

end SingleFile.Command
