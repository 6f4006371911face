import DesignAtlas.Arguments
import DesignAtlas.Config
import DesignAtlas.File.Source
import DesignAtlas.Json
import DesignAtlas.Markdown
import DesignAtlas.Site

/-! # The program

What the program does with its arguments, over any access to files: it reads the settings, loads the
sources, finds the top module, and prints or writes what the command asks for. Problems of the
sources are counted in one line on the error stream; what stops the work is explained there, and the
status is 1, or 2 when the arguments are refused. -/

namespace DesignAtlas.Command

/-- What a run leaves behind besides files. -/
structure Outcome where
  status : Nat
  out : String
  err : String
  deriving DecidableEq, Repr

/-- What the program finds around it. -/
structure Environment (m : Type → Type) where
  files : FileAccess m
  workingDirectory : String
  /-- The renderer that runs the drawing program at a path. -/
  drawAt : String → Renderer
  /-- The renderer that runs the drawing program with a name, if there is one among the installed
  programs. -/
  drawNamed : String → Option Renderer

/-- The name under which the program speaks. -/
def programName : String := "hdldoc-driver"

/-- The version of the program. -/
def version : String := "0.1.0"

/-- The settings that are read when none are named. -/
def defaultConfig : String := "hdldoc.toml"

/-- The name of the drawing program. -/
def drawingProgram : String := "dot"

/-- The top module when none is named. -/
def defaultTop : String := "top"

/-- The help text. -/
def usage : String :=
  "Documentation generator for Verilog designs\n\nUsage: " ++ programName ++
    " [--config FILE] COMMAND [FILES]... [--top NAME] [--output DIR]\n\nCommands: " ++
    ", ".intercalate (Subcommand.all.map Subcommand.word) ++ "\n"

/-! ### Messages -/

/-- The front of a message. -/
def lead : Option Subcommand → String
  | some c => programName ++ ": " ++ c.word ++ ": "
  | none => programName ++ ": "

/-- What stops the work: a message and its details. -/
structure Failure where
  command : Option Subcommand
  message : String
  details : List (String × String) := []
  deriving DecidableEq, Repr

/-- The text of a failure. -/
def Failure.text (f : Failure) : String :=
  lead f.command ++ f.message ++ "\n" ++
    String.join (f.details.map fun d => "  " ++ d.1 ++ ": " ++ d.2 ++ "\n")

/-- The outcome of a failure. -/
def Failure.outcome (f : Failure) : Outcome := ⟨1, "", f.text⟩

/-- The line that counts diagnostics, empty when there are none. -/
def summaryLine (c : Subcommand) (ds : List Diagnostic) : String :=
  if ds.isEmpty then ""
  else
    lead (some c) ++ toString ds.length ++ " diagnostic(s) (" ++ Diagnostic.summaryText ds ++ ")\n"

/-! ### Steps -/

variable {m : Type → Type} [Monad m]

/-- Reads the settings at a path. -/
def readConfig (env : Environment m) (path : String) : m (Except Failure Config) := do
  let isFile ← env.files.isFile path
  let isDirectory ← env.files.isDirectory path
  if !isFile && !isDirectory then
    return .error ⟨none, "config toml file does not exist",
      [("path", path), ("working directory", env.workingDirectory)]⟩
  let unreadable (cause : String) : Except Failure Config :=
    .error ⟨none, "could not read config toml file", [("path", path), ("error", cause)]⟩
  match ← env.files.read path with
  | .error e => return unreadable e.message
  | .ok bytes =>
    match String.fromUTF8? bytes with
    | none => return unreadable "stream did not contain valid UTF-8"
    | some s =>
      match Config.ofText s.toList with
      | .ok c => return .ok c
      | .error e =>
        return .error ⟨none, "could not parse config toml file",
          [("path", path), ("error", e.message)]⟩

/-- Reads the named settings, or the default ones where they are. -/
def loadConfig (env : Environment m) (named : Option String) : m (Except Failure Config) := do
  match named with
  | some path => readConfig env path
  | none =>
    if ← env.files.isFile defaultConfig then readConfig env defaultConfig else return .ok {}

/-- A design as it was loaded. -/
structure Loaded where
  files : List String
  design : Design
  diagnostics : List Diagnostic

/-- Loads the design of the source files. -/
def loadDesign (env : Environment m) (c : Subcommand) (o : Options) (paths : List String) :
    m (Except Failure Loaded) := do
  match ← SourceFile.loadAll env.files paths with
  | .error e => return .error ⟨some c, e.message, []⟩
  | .ok sources =>
    let built := Design.ofFiles o sources
    return .ok ⟨sources.map SourceFile.path, built.1, built.2⟩

/-- The hierarchy of a loaded design below its top module, and the line that counts all
diagnostics. -/
def hierarchyOf (c : Subcommand) (l : Loaded) (requested : String) :
    Except Failure (Hierarchy × String) :=
  match Design.resolveTop l.design requested with
  | .error e =>
    .error ⟨some c, "top module '" ++ e.requested ++ "' not found",
      [("available modules", ", ".intercalate e.available)]⟩
  | .ok top =>
    let t := Hierarchy.expandOnto l.design top.name l.diagnostics
    .ok (t.1, summaryLine c t.2)

/-- The renderer that a path to a program stands for. A path without a slash is the name of an
installed program. -/
def rendererAt (env : Environment m) (path : String) : Option Renderer :=
  if path.toList.contains '/' then some (env.drawAt path) else env.drawNamed path

/-- Finds the renderer of graphs: that of the settings, whose path must lead to a file, or the
installed one. -/
def findRenderer (env : Environment m) (config : Config) : m (Option Renderer) := do
  match config.dotPath with
  | some path => if ← env.files.isFile path then return rendererAt env path else return none
  | none => return env.drawNamed drawingProgram

/-! ### Commands -/

/-- Writes the site of a design. -/
def writeSite (env : Environment m) (config : Config) (args : Arguments) (l : Loaded)
    (t : Hierarchy) (summary : String) : m Outcome := do
  let doc := Document.ofDesign l.design t
  let directory := (args.output.or config.outputDirectory).getD (Site.defaultDirectory doc)
  let renderer ← findRenderer env config
  match ← Site.write env.files renderer directory doc l.files with
  | .ok _ => return ⟨0, "", summary⟩
  | .error e => return ⟨1, "", summary ++ Failure.text ⟨some .html, e.message, []⟩⟩

/-- Carries out a command that works on source files. -/
def runOnFiles (env : Environment m) (config : Config) (args : Arguments) (c : Subcommand) :
    m Outcome := do
  match ← loadDesign env c config.options args.files with
  | .error f => return f.outcome
  | .ok l =>
    if c = .json then
      return ⟨0, (Json.ofDesign l.design).pretty 0 ++ "\n", summaryLine c l.diagnostics⟩
    match hierarchyOf c l ((args.top.or config.top).getD defaultTop) with
    | .error f => return f.outcome
    | .ok (t, summary) =>
      match c with
      | .tree => return ⟨0, t.outline, summary⟩
      | .markdown => return ⟨0, Markdown.render (Document.ofDesign l.design t), summary⟩
      | _ => writeSite env config args l t summary

/-- Carries out what the arguments say. -/
def runArguments (env : Environment m) (args : Arguments) : m Outcome := do
  match ← loadConfig env args.config with
  | .error f => return f.outcome
  | .ok config =>
    match args.command with
    | none => return Failure.outcome ⟨none, "No valid subcommand provided.", []⟩
    | some .version => return ⟨0, version ++ "\n", ""⟩
    | some c => runOnFiles env config args c

/-- Runs the program. -/
def run (env : Environment m) (args : List String) : m Outcome :=
  match Arguments.read args with
  | .error e => return ⟨2, "", "error: " ++ e.message ++ "\n"⟩
  | .ok .showVersion => return ⟨0, programName ++ " " ++ version ++ "\n", ""⟩
  | .ok .showHelp => return ⟨0, usage, ""⟩
  | .ok (.run args) => runArguments env args

end DesignAtlas.Command
