/-! # Command line arguments

What the arguments of the program ask for. A command comes first; options have two dashes and take
their value from behind an equals sign or from the next argument, which may not look like an option.
All other arguments of a command are source files, and all arguments behind `--` are. The option
that names the settings may stand before or behind the command. A command can be asked to explain
itself by naming it behind the word `help`. -/

namespace DesignAtlas

/-- The commands of the program. -/
inductive Subcommand where
  | html
  | markdown
  | tree
  | json
  | version
  deriving DecidableEq, Repr

namespace Subcommand

/-- The name of a command. -/
def word : Subcommand → String
  | .html => "html"
  | .markdown => "markdown"
  | .tree => "tree"
  | .json => "json"
  | .version => "version"

/-- All commands. -/
def all : List Subcommand := [.html, .markdown, .tree, .json, .version]

/-- The command with a name. -/
def ofWord? (w : String) : Option Subcommand := all.find? fun s => s.word == w

/-- Whether the command works on source files. -/
def takesFiles (s : Subcommand) : Bool := s != .version

/-- Whether the command has a top module. -/
def takesTop (s : Subcommand) : Bool := s == .html || s == .markdown || s == .tree

/-- Whether the command writes into a directory. -/
def takesOutput (s : Subcommand) : Bool := s == .html

end Subcommand

/-- The options with a value. -/
inductive OptionName where
  | config
  | top
  | output
  deriving DecidableEq, Repr

/-- The name of an option. -/
def OptionName.word : OptionName → String
  | .config => "config"
  | .top => "top"
  | .output => "output"

/-- What the arguments say. -/
structure Arguments where
  command : Option Subcommand := none
  config : Option String := none
  top : Option String := none
  output : Option String := none
  files : List String := []
  deriving DecidableEq, Repr

/-- What the program is asked to do. -/
inductive Request where
  | run (arguments : Arguments)
  | showVersion
  | showHelp
  deriving DecidableEq, Repr

/-- Why arguments are refused. -/
inductive UsageError where
  | unexpected (argument : String)
  | missingValue (option : OptionName)
  | repeated (option : OptionName)
  | missingFiles
  deriving DecidableEq, Repr

/-- The error in words. -/
def UsageError.message : UsageError → String
  | .unexpected a => "unexpected argument '" ++ a ++ "'"
  | .missingValue o => "a value is required for '--" ++ o.word ++ "'"
  | .repeated o => "'--" ++ o.word ++ "' cannot be used multiple times"
  | .missingFiles => "source files are required"

namespace Arguments

/-! ### The look of an argument -/

/-- What an argument looks like. -/
inductive Look where
  /-- The two dashes behind which all arguments are plain. -/
  | separator
  /-- A long option, with the value behind its equals sign. -/
  | long (name : String) (value : Option String)
  /-- Short options, by their letters. -/
  | short (letters : List Char)
  | plain
  deriving DecidableEq, Repr

/-- The look of an argument. A single dash is plain. -/
def lookOf (a : String) : Look :=
  match a.toList with
  | ['-', '-'] => .separator
  | '-' :: '-' :: rest =>
    let name := String.ofList (rest.takeWhile (· != '='))
    match rest.dropWhile (· != '=') with
    | [] => .long name none
    | _ :: value => .long name (some (String.ofList value))
  | '-' :: c :: rest => .short (c :: rest)
  | _ => .plain

/-! ### Options -/

/-- The value that an option has so far. -/
def get (s : Arguments) : OptionName → Option String
  | .config => s.config
  | .top => s.top
  | .output => s.output

/-- Gives an option its value, once. -/
def set (s : Arguments) (o : OptionName) (v : String) : Except UsageError Arguments :=
  if (s.get o).isSome then .error (.repeated o)
  else
    match o with
    | .config => .ok { s with config := some v }
    | .top => .ok { s with top := some v }
    | .output => .ok { s with output := some v }

/-- The option of a command with a name; before the command there is only one. -/
def optionOf? (command : Option Subcommand) (name : String) : Option OptionName :=
  if name = "config" then some .config
  else if name = "top" && command.any Subcommand.takesTop then some .top
  else if name = "output" && command.any Subcommand.takesOutput then some .output
  else none

/-! ### Reading -/

/-- The request that an option without value makes at once, where it is known. The version can be
asked for before the command only. -/
def flagRequest? (command : Option Subcommand) : Look → Option Request
  | .long "help" none => some .showHelp
  | .long "version" none => if command.isNone then some .showVersion else none
  | .short ('h' :: _) => some .showHelp
  | .short ('V' :: _) => if command.isNone then some .showVersion else none
  | _ => none

/-- Takes plain arguments, which are source files of the command. -/
def addFiles (s : Arguments) (files : List String) : Except UsageError Arguments :=
  match files with
  | [] => .ok s
  | f :: _ =>
    if s.command.any Subcommand.takesFiles then .ok { s with files := s.files ++ files }
    else .error (.unexpected f)

/-- The request of complete arguments. -/
def finish (s : Arguments) : Except UsageError Request :=
  if s.command.any Subcommand.takesFiles && s.files.isEmpty then .error .missingFiles
  else .ok (.run s)

/-- Reads the arguments behind a command. -/
def readRest (s : Arguments) : List String → Except UsageError Request
  | [] => s.finish
  | a :: as =>
    match lookOf a with
    | .separator => (s.addFiles as).bind finish
    | .plain => (s.addFiles [a]).bind fun s => readRest s as
    | look =>
      match flagRequest? s.command look with
      | some r => .ok r
      | none =>
        match look with
        | .long name value =>
          match optionOf? s.command name with
          | none => .error (.unexpected a)
          | some o =>
            match value, as with
            | some v, as => (s.set o v).bind fun s => readRest s as
            | none, [] => .error (.missingValue o)
            | none, v :: as =>
              if lookOf v = .plain then (s.set o v).bind fun s => readRest s as
              else .error (.missingValue o)
        | _ => .error (.unexpected a)

/-- The request with the settings named before the command, unless it names some itself. -/
def withConfig (config : Option String) : Request → Request
  | .run s => .run { s with config := s.config.or config }
  | r => r

/-- The word that asks for an explanation. -/
def helpWord : String := "help"

/-- Reads the arguments behind the word that asks for an explanation: at most one thing to
explain. -/
def readHelp : List String → Except UsageError Request
  | [] => .ok .showHelp
  | a :: as =>
    if (Subcommand.ofWord? a).isNone && a != helpWord then .error (.unexpected a)
    else
      match as with
      | [] => .ok .showHelp
      | b :: _ => .error (.unexpected b)

/-- Reads all arguments, of which `s` holds those already read. -/
def readAll (s : Arguments) : List String → Except UsageError Request
  | [] => s.finish
  | a :: as =>
    match lookOf a with
    | .separator => (s.addFiles as).bind finish
    | .plain =>
      match Subcommand.ofWord? a with
      | some c => (readRest { command := some c } as).map (withConfig s.config)
      | none => if a = helpWord then readHelp as else .error (.unexpected a)
    | look =>
      match flagRequest? none look with
      | some r => .ok r
      | none =>
        match look with
        | .long name value =>
          match optionOf? none name with
          | none => .error (.unexpected a)
          | some o =>
            match value, as with
            | some v, as => (s.set o v).bind fun s => readAll s as
            | none, [] => .error (.missingValue o)
            | none, v :: as =>
              if lookOf v = .plain then (s.set o v).bind fun s => readAll s as
              else .error (.missingValue o)
        | _ => .error (.unexpected a)

/-- The request that the arguments of the program make. -/
def read (as : List String) : Except UsageError Request := readAll {} as

end Arguments

end DesignAtlas
