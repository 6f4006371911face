import DesignAtlas.Toml.Value

/-! # TOML tables under construction

A document defines tables by headers, by dotted keys, and in passing, when a header names a table
inside them. How a table came about decides what may still be added to it:

* a header may take over a table that so far was only passed, and no other;
* a dotted key may go on through tables that no header defines, but its value must end up in a table
  that dotted keys made;
* headers and dotted keys go through an array of tables by its last element. -/

namespace DesignAtlas.Toml

/-- How a table came about. -/
inductive Origin where
  /-- By a header of its own, as an element of an array of tables, or as the document. -/
  | header
  /-- On the way of a header to another table. -/
  | passed
  /-- On the way of a dotted key. -/
  | dotted
  deriving DecidableEq, Repr

/-- What a key stands for in a table under construction. -/
inductive Node where
  | value (v : Value)
  | table (origin : Origin) (members : List (String × Node))
  /-- An array of tables. -/
  | tables (elements : List (List (String × Node)))

/-- The members of a table under construction. -/
abbrev Members := List (String × Node)

namespace Members

/-- What a key stands for. -/
def find? (ms : Members) (k : String) : Option Node := ms.lookup k

/-- Adds a member, or puts it in the place of the one with its key. -/
def put (ms : Members) (k : String) (n : Node) : Members :=
  if (ms.find? k).isSome then ms.map fun m => if m.1 == k then (k, n) else m else ms ++ [(k, n)]

/-- Changes the table at the end of a path, which `f` gets with its origin. Tables that are missing
are made, with the origin `made`; only tables whose origin `passes` are gone through. -/
def change (made : Origin) (passes : Origin → Bool)
    (f : Origin → Members → Except Error Members) (origin : Origin) :
    List String → Members → Except Error Members
  | [], ms => f origin ms
  | k :: ks, ms =>
    match ms.find? k with
    | none => (change made passes f made ks []).map fun sub => ms.put k (.table made sub)
    | some (.table o sub) =>
      if passes o then (change made passes f o ks sub).map fun sub => ms.put k (.table o sub)
      else .error (.duplicate k)
    | some (.tables elements) =>
      match elements.getLast? with
      | some sub =>
        (change made passes f .header ks sub).map fun sub =>
          ms.put k (.tables (elements.dropLast ++ [sub]))
      | none => .error (.duplicate k)
    | some (.value _) => .error (.duplicate k)

/-- Changes the table that a header leads to. -/
def changeAt (path : List String) (f : Members → Except Error Members) (ms : Members) :
    Except Error Members :=
  change .passed (fun _ => true) (fun _ => f) .header path ms

/-- Defines the key at the end of a dotted one. -/
def define (path : List String) (key : String) (v : Value) (ms : Members) : Except Error Members :=
  change .dotted (· != .header)
    (fun o sub =>
      if (sub.find? key).isSome || !(path.isEmpty || o == .dotted) then .error (.duplicate key)
      else .ok (sub.put key (.value v)))
    .header path ms

/-- Defines a table by its header: the path to it and its own key. -/
def addTable (path : List String) (key : String) (ms : Members) : Except Error Members :=
  ms.changeAt path fun sub =>
    match sub.find? key with
    | none => .ok (sub.put key (.table .header []))
    | some (.table .passed inner) => .ok (sub.put key (.table .header inner))
    | some _ => .error (.duplicate key)

/-- Adds an element to an array of tables. -/
def addElement (path : List String) (key : String) (ms : Members) : Except Error Members :=
  ms.changeAt path fun sub =>
    match sub.find? key with
    | none => .ok (sub.put key (.tables [[]]))
    | some (.tables elements) => .ok (sub.put key (.tables (elements ++ [[]])))
    | some _ => .error (.duplicate key)

end Members

/-! ### Finished tables -/

mutual

/-- The value of a node. -/
def Node.toValue : Node → Value
  | .value v => v
  | .table _ ms => .table (membersToValues ms)
  | .tables es => .array (elementsToValues es)

/-- The values of members. -/
def membersToValues : List (String × Node) → List (String × Value)
  | [] => []
  | (k, n) :: ms => (k, n.toValue) :: membersToValues ms

/-- The values of the elements of an array of tables. -/
def elementsToValues : List (List (String × Node)) → List Value
  | [] => []
  | ms :: es => .table (membersToValues ms) :: elementsToValues es

end

end DesignAtlas.Toml
