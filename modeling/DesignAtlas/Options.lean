/-! # Options

The choices that adjust what is extracted from a module. -/

namespace DesignAtlas

/-- What an `else` or `elsif` does to the innermost open condition. -/
inductive ElsePolicy where
  /-- The condition that opened the block stays. -/
  | keep
  /-- The condition is replaced by its negation, or by that of the `elsif`. -/
  | negate
  deriving DecidableEq, Repr

/-- First words of statements that are never instantiations. -/
def reservedWords : List String :=
  ["if", "reg", "wire", "always", "end", "assign", "localparam", "initial", "generate", "case",
    "else", "endcase", "`assert", "(*", "\x7b"]

/-- The choices that adjust what is extracted from a module. -/
structure Options where
  elsePolicy : ElsePolicy := .keep
  /-- Whether `localparam` declarations count as parameters. -/
  captureLocalparams : Bool := false
  /-- More first words of statements that are never instantiations. -/
  extraReservedWords : List String := []
  deriving DecidableEq, Repr

/-- Whether a statement that begins with the word cannot be an instantiation. -/
def Options.isReserved (o : Options) (word : String) : Bool :=
  reservedWords.contains word || o.extraReservedWords.contains word

end DesignAtlas
