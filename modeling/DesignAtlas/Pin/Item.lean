import DesignAtlas.Pin.Basic
import DesignAtlas.Token.Bracket

/-! # Items of a pin list

A pin list is cut into items at its commas; a directive ends the item before it and is an item of
its own. Every other item is a run of tokens, which is a declaration when it reads

  [direction] [net type | user type] [signing] range* name

and nothing else. A user type is an identifier directly followed by another one. -/

namespace DesignAtlas

/-! ### Cutting a list into items -/

/-- One item of a pin list. -/
inductive PinItem where
  | directive (d : Directive)
  | declaration (tokens : List Token)
  deriving DecidableEq, Repr

namespace PinItem

/-- The items of a run of tokens between two commas: none when the run is empty. -/
def ofRun (run : List Token) : List PinItem := if run.isEmpty then [] else [.declaration run]

/-- Adds a token in front of an unfinished run and the items behind the run. -/
def step (t : Token) (s : List Token × List PinItem) : List Token × List PinItem :=
  match t.payload with
  | .symbol .comma => ([], ofRun s.1 ++ s.2)
  | .directive d => ([], .directive d :: (ofRun s.1 ++ s.2))
  | _ => (t :: s.1, s.2)

/-- The items of a token list. -/
def ofTokens (ts : List Token) : List PinItem :=
  let s := ts.foldr step ([], [])
  ofRun s.1 ++ s.2

end PinItem

/-! ### Reading a declaration -/

/-- The words that are types wherever they stand. -/
def netTypes : List String :=
  ["wire", "reg", "logic", "tri", "wand", "wor", "triand", "trior", "tri0", "tri1", "supply0",
    "supply1", "uwire", "integer", "bit", "var"]

/-- The words that state whether numbers are signed. -/
def isSigning (w : String) : Bool := w == "signed" || w == "unsigned"

/-- The words of a type with one space between them; `none` when there are none. -/
def typeText (ws : List String) : Option String :=
  if ws.isEmpty then none else some (" ".intercalate ws)

/-- What one declaration says about a pin. -/
structure PinDecl where
  direction : Option Direction
  dataType : Option String
  size : Option String
  name : String
  deriving DecidableEq, Repr

namespace PinDecl

/-- Whether the declaration says more than the name. -/
def isQualified (d : PinDecl) : Bool := d.direction.isSome || d.dataType.isSome || d.size.isSome

/-- The declared pin. -/
def pin (d : PinDecl) (conditionals : List String) : Pin :=
  ⟨d.name, d.direction, d.dataType, d.size, conditionals⟩

/-- Cuts a direction off the front of a token list. -/
def takeDirection : List Token → Option Direction × List Token
  | [] => (none, [])
  | t :: ts =>
    match Direction.ofPayload? t.payload with
    | some d => (some d, ts)
    | none => (none, t :: ts)

/-- Whether the identifier `w` before `rest` is a type: a net type, or any word directly followed by
an identifier. -/
def isType (w : String) (rest : List Token) : Bool :=
  netTypes.contains w || (rest.head?.bind Token.identifier?).isSome

/-- Reads a run of tokens of the text as a declaration. -/
def ofTokens? (text : Text) (ts : List Token) : Option PinDecl :=
  let direction := takeDirection ts
  let type := Token.takeWord isType direction.2
  let signing := Token.takeWord (fun w _ => isSigning w) type.2
  match Token.takeRanges? 0 signing.2 with
  | some (ranges, [t]) =>
    t.identifier?.map fun name =>
      ⟨direction.1, typeText (type.1 ++ signing.1), Token.rangeText text ranges, name⟩
  | _ => none

end PinDecl

end DesignAtlas
