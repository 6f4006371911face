import DesignAtlas.Text.Basic

/-! # TOML values

What a TOML document holds, and why a text is no such document. A document is a table: members
with distinct keys, in the order in which they are defined. -/

namespace DesignAtlas.Toml

/-- A value. -/
inductive Value where
  | string (s : String)
  | boolean (b : Bool)
  | integer (n : Int)
  /-- A number with a fraction or an exponent, an infinity, or no number, as it is written. -/
  | float (word : String)
  /-- A date, a time, or both, as they are written. -/
  | dateTime (word : String)
  | array (items : List Value)
  | table (members : List (String × Value))
  deriving Repr

/-- Whether a value is an array or a table without anything in it. -/
def Value.isVoid : Value → Bool
  | .array [] => true
  | .table [] => true
  | _ => false

/-- Why a text is refused. -/
inductive Error where
  | expected (what : String)
  | controlCharacter
  | duplicate (key : String)
  /-- Values or keys are nested too deeply. -/
  | tooDeep
  deriving DecidableEq, Repr

/-- The error in words. -/
def Error.message : Error → String
  | .expected what => "expected " ++ what
  | .controlCharacter => "unexpected control character"
  | .duplicate key => "duplicate key " ++ key
  | .tooDeep => "too many levels"

/-- Reading a part at the front of a text: the part and the text behind it. -/
abbrev Read (α : Type) := Except Error (α × Text)

end DesignAtlas.Toml
