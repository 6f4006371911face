import DesignAtlas.Roster
import DesignAtlas.Token.Basic

/-! # Pins

A pin is a named connection of a module to the outside: its direction, its type and its size as far
as they are declared, and the conditions under which it is there. -/

namespace DesignAtlas

/-- The direction of a pin. -/
inductive Direction where
  | input
  | output
  | inout
  deriving DecidableEq, Repr

namespace Direction

/-- The keyword of a direction. -/
def word : Direction → String
  | .input => "input"
  | .output => "output"
  | .inout => "inout"

/-- The direction that a token states. -/
def ofPayload? : Payload → Option Direction
  | .keyword .input => some .input
  | .keyword .output => some .output
  | .keyword .inout => some .inout
  | _ => none

end Direction

/-- A pin of a module. -/
structure Pin where
  name : String
  direction : Option Direction
  dataType : Option String
  size : Option String
  /-- The conditional directives open at the declaration, outermost first. -/
  conditionals : List String
  deriving DecidableEq, Repr

instance : Named Pin := ⟨Pin.name⟩

namespace Pin

/-- A pin of which only the name is known. -/
def bare (name : String) (conditionals : List String) : Pin :=
  ⟨name, none, none, none, conditionals⟩

/-- A pin like `p`, under its own name and conditions. -/
def renamed (p : Pin) (name : String) (conditionals : List String) : Pin :=
  { p with name := name, conditionals := conditionals }

end Pin

end DesignAtlas
