import DesignAtlas.Text.Basic

/-! # Paths

A path is cut into pieces at its slashes. A piece counts when it is not empty and not `.`; at the
front of a path also `.` counts. The file name of a path is its last piece that counts, unless that
is `.` or `..`; its parent is what stands before that piece. -/

namespace DesignAtlas.Path

/-- The pieces of a path between its slashes. -/
def pieces (path : Text) : List Text := Text.split (· == '/') path

/-- Drops pieces that do not count from the front of the pieces in reverse. -/
def dropIdle : List Text → List Text
  | [] => []
  | [p] => if p.isEmpty then [] else [p]
  | p :: q :: ps => if p.isEmpty || p == ['.'] then dropIdle (q :: ps) else p :: q :: ps

/-- The file name of a path. -/
def fileName? (path : String) : Option String :=
  match dropIdle (pieces path.toList).reverse with
  | [] => none
  | p :: _ => if p == ['.'] || p == ['.', '.'] then none else some (String.ofList p)

/-- Whether a path begins at the root. -/
def isAbsolute (path : Text) : Bool := path.head? == some '/'

/-- The path of the directory that holds the last piece; `none` for the root and the empty path. -/
def parent? (path : String) : Option String :=
  match dropIdle (pieces path.toList).reverse with
  | [] => none
  | _ :: before =>
    match dropIdle before with
    | [] => some (if isAbsolute path.toList then "/" else "")
    | ps => some (String.ofList (List.intercalate ['/'] ps.reverse))

/-- The path of a file in a directory. -/
def join (directory name : String) : String :=
  if isAbsolute name.toList || directory.isEmpty then name
  else if directory.toList.getLast? == some '/' then directory ++ name
  else directory ++ "/" ++ name

end DesignAtlas.Path
