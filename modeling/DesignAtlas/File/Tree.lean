import DesignAtlas.File.Access
import DesignAtlas.Path

/-! # File trees in memory

A file tree is a root directory; a directory has names in it, each for a file with its contents or
for another directory. One of the directories is the working directory. A path is followed piece by
piece, from the root when it begins with a slash and from the working directory when it does not;
every piece but the last must lead to a directory. The parent of the root is the root. Names and
paths have a greatest length, in bytes. -/

namespace DesignAtlas

/-- What a name stands for in a directory. -/
inductive FileNode where
  | file (content : ByteArray)
  | folder (children : List (String × FileNode))

/-- What is in a directory. -/
abbrev Folder := List (String × FileNode)

namespace Folder

/-- What a name stands for. -/
def child? (f : Folder) (name : String) : Option FileNode := f.lookup name

/-- Puts something under a name: in the place of what is there, or at the end. -/
def putChild (f : Folder) (name : String) (n : FileNode) : Folder :=
  if (f.child? name).isSome then f.map fun c => if c.1 == name then (name, n) else c
  else f ++ [(name, n)]

/-- What stands at the end of some names; the directory itself stands at the end of none. -/
def find? (f : Folder) : List String → Option FileNode
  | [] => some (.folder f)
  | k :: ks =>
    match ks, f.child? k with
    | [], n => n
    | k' :: ks, some (.folder g) => find? g (k' :: ks)
    | _, _ => none

/-- Puts something at the end of some names, and makes the directories that are missing. -/
def put (f : Folder) (n : FileNode) : List String → Folder
  | [] => f
  | k :: ks =>
    match ks, f.child? k with
    | [], _ => f.putChild k n
    | k' :: ks, some (.folder g) => f.putChild k (.folder (put g n (k' :: ks)))
    | k' :: ks, _ => f.putChild k (.folder (put [] n (k' :: ks)))

end Folder

/-- A file tree with a working directory, which the names in `here` lead to from the root. -/
structure FileTree where
  root : Folder
  here : List String

namespace FileTree

/-- The tree that every program finds: the null device, which reads as an empty file, and the
directory for passing work, with an empty working directory in it. -/
def bare : FileTree :=
  ⟨[("dev", .folder [("null", .file ByteArray.empty)]),
    ("tmp", .folder [("atlas-work", .folder [])])], ["tmp", "atlas-work"]⟩

/-- The tree with something put at the end of some names. -/
def put (d : FileTree) (path : List String) (n : FileNode) : FileTree :=
  { d with root := d.root.put n path }

/-! ### Following a path -/

/-- The greatest length of a name. -/
def nameLimit : Nat := 255

/-- The length that no path reaches. -/
def pathLimit : Nat := 4096

/-- Whether a name is too long. -/
def isLongName (name : String) : Bool := decide (nameLimit < name.utf8ByteSize)

/-- What is wrong with a path as such. -/
def pathFault? (path : String) : Option FileError :=
  if path.toList.any fun c => c.toNat == 0 then some .nulByte
  else if path.isEmpty then some .notFound
  else if pathLimit ≤ path.utf8ByteSize then some .nameTooLong
  else none

/-- The pieces of a path. -/
def steps (path : String) : List String :=
  ((Path.pieces path.toList).filter fun p => !p.isEmpty).map String.ofList

/-- A place in a file tree. -/
structure Place where
  /-- The names that lead here from the root, the last one first. -/
  names : List String
  /-- The directories on the way, the nearest first. -/
  above : List Folder
  /-- What stands here. -/
  node : FileNode

/-- The place of the directory that a place is in; the root stays where it is. -/
def Place.up (p : Place) : Place :=
  match p.names, p.above with
  | _ :: ns, f :: fs => ⟨ns, fs, .folder f⟩
  | _, _ => p

/-- Follows pieces from a place. -/
def follow (p : Place) : List String → Except FileError Place
  | [] => .ok p
  | s :: ss =>
    match p.node with
    | .file _ => .error .notDirectory
    | .folder f =>
      if s = "." then follow p ss
      else if s = ".." then follow p.up ss
      else if isLongName s then .error .nameTooLong
      else
        match Folder.child? f s with
        | some n => follow ⟨s :: p.names, f :: p.above, n⟩ ss
        | none => .error .notFound

/-- The root, as a place. -/
def rootPlace (d : FileTree) : Place := ⟨[], [], .folder d.root⟩

/-- Follows the pieces of a path from where the path begins. -/
def walk (d : FileTree) (path : String) (ss : List String) : Except FileError Place :=
  follow d.rootPlace (if Path.isAbsolute path.toList then ss else d.here ++ ss)

/-- What a path leads to. One that ends in a slash must lead to a directory. -/
def lookup (d : FileTree) (path : String) : Except FileError FileNode :=
  match pathFault? path with
  | some e => .error e
  | none =>
    let closing := if path.toList.getLast? == some '/' then ["."] else []
    (d.walk path (steps path ++ closing)).map Place.node

/-- The place of a new file or directory: the directory that the path leads to without its last
piece, the last piece, and what stands there already. It is `none` when the last piece is no
name. -/
def placeOf (d : FileTree) (path : String) :
    Except FileError (Option (List String × Option FileNode)) :=
  match pathFault? path with
  | some e => .error e
  | none =>
    match (steps path).reverse with
    | [] => .ok none
    | last :: before =>
      match d.walk path before.reverse with
      | .error e => .error e
      | .ok p =>
        match p.node with
        | .file _ => .error .notDirectory
        | .folder f =>
          if last = "." ∨ last = ".." then .ok none
          else if isLongName last then .error .nameTooLong
          else .ok (some ((last :: p.names).reverse, Folder.child? f last))

/-! ### Operations -/

/-- The contents of a file. -/
def read (d : FileTree) (path : String) : Except FileError ByteArray :=
  match d.lookup path with
  | .error e => .error e
  | .ok (.file bytes) => .ok bytes
  | .ok (.folder _) => .error .isDirectory

/-- Whether a path leads to a directory. -/
def isDirectory (d : FileTree) (path : String) : Bool :=
  match d.lookup path with
  | .ok (.folder _) => true
  | _ => false

/-- Makes a directory in an existing one. -/
def makeDirectory (d : FileTree) (path : String) : Except FileError FileTree :=
  match d.placeOf path with
  | .error e => .error e
  | .ok (some (place, none)) => .ok (d.put place (.folder []))
  | .ok _ => .error .alreadyExists

/-- Writes a file. -/
def write (d : FileTree) (path : String) (bytes : ByteArray) : Except FileError FileTree :=
  match d.placeOf path with
  | .error e => .error e
  | .ok none => .error .isDirectory
  | .ok (some (_, some (.folder _))) => .error .isDirectory
  | .ok (some (place, _)) => .ok (d.put place (.file bytes))

/-- Runs an operation that changes the tree when it succeeds. -/
def change (f : FileTree → Except FileError FileTree) :
    StateM FileTree (Except FileError Unit) :=
  fun d =>
    match f d with
    | .ok d' => (.ok (), d')
    | .error e => (.error e, d)

/-- Access to a file tree in memory. -/
def access : FileAccess (StateM FileTree) where
  read path := fun d => (d.read path, d)
  isFile path := fun d => ((d.read path).toOption.isSome, d)
  isDirectory path := fun d => (d.isDirectory path, d)
  makeDirectory path := change fun d => d.makeDirectory path
  write path bytes := change fun d => d.write path bytes

/-! ### Setting up and comparing -/

/-- Goes one piece on from a place, given by its names, and makes the directory that may be missing
there. -/
def enter (state : FileTree × List String) (s : String) : FileTree × List String :=
  if s = "." then state
  else if s = ".." then (state.1, state.2.dropLast)
  else
    let place := state.2 ++ [s]
    if (state.1.root.find? place).isSome then (state.1, place)
    else (state.1.put place (.folder []), place)

/-- The tree with one more file, and with the directories that its path needs. -/
def withFile (d : FileTree) (path : String) (bytes : ByteArray) : FileTree :=
  match (steps path).reverse with
  | [] => d
  | last :: before =>
    let start := if Path.isAbsolute path.toList then [] else d.here
    let r := before.reverse.foldl enter (d, start)
    r.1.put (r.2 ++ [last]) (.file bytes)

mutual

/-- The files at and below a place, given by its names, the last one first. -/
def filesAt (names : List String) : FileNode → List (List String × ByteArray)
  | .file bytes => [(names.reverse, bytes)]
  | .folder children => filesIn names children

/-- The files among and below the children of a place. -/
def filesIn (names : List String) : List (String × FileNode) → List (List String × ByteArray)
  | [] => []
  | (k, n) :: cs => filesAt (k :: names) n ++ filesIn names cs

end

/-- The files below the working directory, by the names that lead to them from there. -/
def files (d : FileTree) : List (List String × ByteArray) :=
  match d.root.find? d.here with
  | some n => filesAt [] n
  | none => []

/-- Whether a file of some names and contents stands below the working directory. -/
def hasFile (d : FileTree) (names : List String) (bytes : ByteArray) : Bool :=
  match d.root.find? (d.here ++ names) with
  | some (.file old) => old == bytes
  | _ => false

/-- The files below the working directory that `before` does not hold with the same contents, by
their paths from there. -/
def changedFiles (before d : FileTree) : List (String × ByteArray) :=
  (d.files.filter fun f => !before.hasFile f.1 f.2).map fun f => ("/".intercalate f.1, f.2)

end FileTree

end DesignAtlas
