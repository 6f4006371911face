import DesignAtlas.File.Access
import DesignAtlas.Html

/-! # Writing the site

The pages of a document are written into one directory, which is made when it is missing. Pages are
written one after the other; a later page of the same name replaces an earlier one, and the first
failure ends the writing. -/

namespace DesignAtlas

/-- Why the site cannot be written. -/
inductive SiteError where
  | creating (path : String) (cause : FileError)
  | writing (path : String) (cause : FileError)
  deriving DecidableEq, Repr

/-- The error in words. -/
def SiteError.message : SiteError → String
  | .creating path cause => "creating '" ++ path ++ "': " ++ cause.message
  | .writing path cause => "writing '" ++ path ++ "': " ++ cause.message

namespace Site

variable {m : Type → Type} [Monad m]

/-! ### The directory -/

/-- A path and the paths of the directories above it, at most `bound` of them. The root and the
empty path need not be made and are left out. -/
def ancestors (bound : Nat) (path : String) : List String :=
  match bound with
  | 0 => []
  | bound + 1 =>
    match Path.parent? path with
    | some p => path :: ancestors bound p
    | none => []

/-- The directories among some ancestors, nearest first, that are missing: asking ends at the first
one that is there or could be made. -/
def missing (fs : FileAccess m) : List String → m (Except FileError (List String))
  | [] => return .ok []
  | p :: ps => do
    match ← fs.makeDirectory p with
    | .ok _ => return .ok []
    | .error .notFound =>
      match ← missing fs ps with
      | .ok qs => return .ok (p :: qs)
      | .error e => return .error e
    | .error e => do
      if ← fs.isDirectory p then return .ok [] else return .error e

/-- Makes directories in order; one that is there already is no failure. -/
def makeAll (fs : FileAccess m) : List String → m (Except FileError Unit)
  | [] => return .ok ()
  | p :: ps => do
    match ← fs.makeDirectory p with
    | .ok _ => makeAll fs ps
    | .error e => do
      if ← fs.isDirectory p then makeAll fs ps else return .error e

/-- Makes a directory and the directories above it. -/
def makeDirectories (fs : FileAccess m) (path : String) : m (Except FileError Unit) := do
  match ← missing fs (ancestors (path.length + 1) path) with
  | .error e => return .error e
  | .ok ps => makeAll fs ps.reverse

/-! ### The pages -/

/-- Writes pages in order. -/
def writePages (fs : FileAccess m) (directory : String) :
    List (String × String) → m (Except SiteError Unit)
  | [] => return .ok ()
  | (name, text) :: pages => do
    let path := Path.join directory name
    match ← fs.write path text.toUTF8 with
    | .error e => return .error (.writing path e)
    | .ok _ => writePages fs directory pages

/-- Writes the site of a document and its source files. -/
def write (fs : FileAccess m) (renderer : Option Renderer) (directory : String) (doc : Document)
    (files : List String) : m (Except SiteError Unit) := do
  match ← makeDirectories fs directory with
  | .error e => return .error (.creating directory e)
  | .ok _ => writePages fs directory (Html.pages renderer doc files)

/-- The directory of the top module's source file, which is where the site goes by default. -/
def defaultDirectory (doc : Document) : String :=
  match (doc.section? doc.top).bind fun s => Path.parent? s.sourceFile with
  | some p => if p.isEmpty then "." else p
  | none => "."

end Site

end DesignAtlas
