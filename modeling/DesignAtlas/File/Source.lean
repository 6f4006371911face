import DesignAtlas.Design
import DesignAtlas.File.Access
import DesignAtlas.Text.Utf8

/-! # Loading sources

Source files are read in order, and the first one that cannot be read ends the loading. Bytes that
are no text are replaced. -/

namespace DesignAtlas

/-- A source file cannot be read. -/
structure LoadError where
  path : String
  cause : FileError
  deriving DecidableEq, Repr

/-- The error in words. -/
def LoadError.message (e : LoadError) : String :=
  "reading source '" ++ e.path ++ "': " ++ e.cause.message

namespace SourceFile

variable {m : Type → Type} [Monad m]

/-- Reads one source file. -/
def load (fs : FileAccess m) (path : String) : m (Except LoadError SourceFile) := do
  match ← fs.read path with
  | .error e => return .error ⟨path, e⟩
  | .ok bytes => return .ok ⟨path, Utf8.decode bytes.toList⟩

/-- Reads source files in order. -/
def loadAll (fs : FileAccess m) : List String → m (Except LoadError (List SourceFile))
  | [] => return .ok []
  | p :: ps => do
    match ← load fs p with
    | .error e => return .error e
    | .ok f =>
      match ← loadAll fs ps with
      | .error e => return .error e
      | .ok fs => return .ok (f :: fs)

/-- What loading has to say about a source file: the size of its text. -/
def loadRemark (f : SourceFile) : LogLine :=
  ⟨.info, "loaded " ++ f.path ++ " (" ++ toString f.text.byteLength ++ " bytes)"⟩

/-- What loading and building have to say about some source files. -/
def remarks (files : List SourceFile) : List LogLine :=
  files.map loadRemark ++ files.map Design.fileRemark

end SourceFile

end DesignAtlas
