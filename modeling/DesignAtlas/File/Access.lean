/-! # Access to files

What the program asks of a file system, as a record of operations in some monad, so that one
program runs on the files of a machine and on a directory in memory. -/

namespace DesignAtlas

/-- Why an operation on a file fails. -/
inductive FileError where
  | notFound
  | alreadyExists
  | notDirectory
  | isDirectory
  | nameTooLong
  /-- A path has the character with the code zero in it. -/
  | nulByte
  | other (message : String)
  deriving DecidableEq, Repr

/-- The error in words. -/
def FileError.message : FileError → String
  | .notFound => "No such file or directory (os error 2)"
  | .alreadyExists => "File exists (os error 17)"
  | .notDirectory => "Not a directory (os error 20)"
  | .isDirectory => "Is a directory (os error 21)"
  | .nameTooLong => "File name too long (os error 36)"
  | .nulByte => "file name contained an unexpected NUL byte"
  | .other message => message

/-- The operations on files that the program uses. -/
structure FileAccess (m : Type → Type) where
  /-- The contents of a file. -/
  read : String → m (Except FileError ByteArray)
  /-- Whether a path leads to a file that is no directory. -/
  isFile : String → m Bool
  /-- Whether a path leads to a directory. -/
  isDirectory : String → m Bool
  /-- Makes a directory in an existing one. -/
  makeDirectory : String → m (Except FileError Unit)
  /-- Writes a file, in place of the one that may be there. -/
  write : String → ByteArray → m (Except FileError Unit)

end DesignAtlas
