import DesignAtlas.ModuleInfo

/-! # Designs

A design is the roster of the modules found in some source files. A module defined again replaces
the earlier one at its place, and this is reported. The top module is the requested one or, when it
is missing, the first of the usual names that is there. -/

namespace DesignAtlas

/-- A source file: its path and its text. -/
structure SourceFile where
  path : String
  text : Text
  deriving DecidableEq, Repr

/-- The modules of a design. -/
abbrev Design := Roster ModuleInfo

namespace Design

/-! ### Building -/

/-- The diagnostics of defining a module: one when its name is already taken. -/
def redefinition (d : Design) (m : ModuleInfo) : List Diagnostic :=
  match d.find? m.name with
  | some old =>
    [⟨.moduleRedefined, m.name, m.sourceFile ++ " replaces definition from " ++ old.sourceFile⟩]
  | none => []

/-- Defines a module. -/
def define (d : Design) (m : ModuleInfo) : Design × List Diagnostic := (d.put m, redefinition d m)

/-- Defines the module of a declaration; the diagnostics are added to those before. -/
def addDecl (file : String) (source : Text) (o : Options) (s : Design × List Diagnostic)
    (decl : ModuleDecl) : Design × List Diagnostic :=
  let m := ModuleInfo.ofDecl file source o decl
  let r := define s.1 m.1
  (r.1, s.2 ++ m.2 ++ r.2)

/-- Defines the modules of a source file in order. -/
def addFile (o : Options) (s : Design × List Diagnostic) (file : SourceFile) :
    Design × List Diagnostic :=
  let source := Comment.strip file.text
  (ModuleDecl.ofSource source).foldl (addDecl file.path source o) s

/-- The design of some source files and the diagnostics of building it. -/
def ofFiles (o : Options) (files : List SourceFile) : Design × List Diagnostic :=
  files.foldl (addFile o) (Roster.empty, [])

/-- What building has to say about a source file: how many modules it declares. -/
def fileRemark (file : SourceFile) : LogLine :=
  ⟨.info, file.path ++ ": found " ++
    toString (ModuleDecl.ofSource (Comment.strip file.text)).length ++ " module(s)"⟩

/-! ### Questions -/

/-- The modules that have an instance of `name`, in order. -/
def callersOf (d : Design) (name : String) : List ModuleInfo :=
  d.records.filter fun m => m.instantiates name

/-- The names tried when the requested top module is missing. -/
def fallbackNames : List String := ["rio", "top"]

/-- The top module of a design. -/
structure Top where
  name : String
  /-- Whether it is not the requested one. -/
  fallback : Bool
  deriving DecidableEq, Repr

/-- There is no top module: the requested name and the names of all modules. -/
structure TopNotFound where
  requested : String
  available : List String
  deriving DecidableEq, Repr

/-- The error in words. -/
def TopNotFound.message (e : TopNotFound) : String :=
  "top module '" ++ e.requested ++ "' not found (fallbacks tried: " ++
    ", ".intercalate fallbackNames ++ "); available modules: " ++
    if e.available.isEmpty then "<none>" else ", ".intercalate e.available

/-- Finds the top module. -/
def resolveTop (d : Design) (requested : String) : Except TopNotFound Top :=
  if d.contains requested then .ok ⟨requested, false⟩
  else
    match fallbackNames.find? fun n => d.contains n with
    | some n => .ok ⟨n, true⟩
    | none => .error ⟨requested, d.names⟩

/-- What finding the top module has to say: a fallback is announced. -/
def Top.remarks (t : Top) : List LogLine :=
  if t.fallback then [⟨.warn, "FALLBACK: setting top module to '" ++ t.name ++ "'"⟩] else []

end Design

end DesignAtlas
