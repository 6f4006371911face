import DesignAtlas.Command

/-! # The command line

Runs the program on the files of the machine. -/

namespace DesignAtlas

/-- The cause that a number of the machine's file system stands for, if it is one of those that the
program names. Some operations give the number with a minus sign, that is, modulo `2 ^ 32`. -/
def FileError.ofCode? (signed : UInt32) : Option FileError :=
  let code := min signed (0 - signed)
  if code = 2 then some .notFound
  else if code = 17 then some .alreadyExists
  else if code = 20 then some .notDirectory
  else if code = 21 then some .isDirectory
  else if code = 36 then some .nameTooLong
  else none

/-- The cause of a failure of the machine's file system. -/
def FileError.ofSystem (e : IO.Error) : FileError :=
  let named? : Option FileError :=
    match e with
    | .noFileOrDirectory _ code _ => FileError.ofCode? code
    | .noSuchThing _ code _ => FileError.ofCode? code
    | .alreadyExists _ code _ => FileError.ofCode? code
    | .inappropriateType _ code _ => FileError.ofCode? code
    | .invalidArgument _ code _ => FileError.ofCode? code
    | _ => none
  named?.getD (.other (toString e))

/-- Runs an operation on the file of the machine at a path and names its failure. -/
def FileAccess.guarded {α : Type} (path : String) (act : IO α) : IO (Except FileError α) := do
  if path.toList.any fun c => c.toNat == 0 then return .error .nulByte
  try
    return .ok (← act)
  catch e => return .error (FileError.ofSystem e)

/-- Whether an operation on the machine's files succeeds. -/
def FileAccess.succeeds {α : Type} (act : IO α) : IO Bool := do
  try
    let _ ← act
    return true
  catch _ => return false

/-- Access to the files of the machine. -/
def FileAccess.system : FileAccess IO where
  read path := FileAccess.guarded path (IO.FS.readBinFile path)
  isFile path := FileAccess.succeeds (IO.FS.readBinFile path)
  isDirectory path := FileAccess.succeeds (IO.FS.realPath (path ++ "/."))
  makeDirectory path := FileAccess.guarded path (IO.FS.createDir path)
  write path bytes := FileAccess.guarded path (IO.FS.writeBinFile path bytes)

end DesignAtlas

open DesignAtlas in
/-- The program. -/
def main (args : List String) : IO UInt32 := do
  let directory ← IO.currentDir
  let env : Command.Environment IO :=
    ⟨FileAccess.system, toString directory, fun _ _ => none, fun _ => none⟩
  let outcome ← Command.run env args
  IO.print outcome.out
  IO.eprint outcome.err
  return outcome.status.toUInt32
