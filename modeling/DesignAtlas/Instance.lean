import DesignAtlas.Statement
import DesignAtlas.Token.Bracket
import DesignAtlas.Token.Scan

/-! # Instances

A statement is taken for the instantiation of a module when it looks like one:

  module [#(...)] instance (...)

It must have a parenthesis, at least three words, a first word that is not reserved and begins with
an identifier, and a second word that is no assignment sign. Whether the module exists is not asked
here. -/

namespace DesignAtlas

/-- A use of a module inside another one. -/
structure Instance where
  /-- The name of the module that is used. -/
  callee : String
  /-- The name that the use is given, if one was found. -/
  instanceName : Option String
  /-- The statement. -/
  statement : String
  /-- The conditional directives open at the statement, outermost first. -/
  conditionals : List String
  deriving DecidableEq, Repr

namespace Instance

/-- The identifier at the front of a word. An escaped one is the whole word without its
backslash. -/
def calleeOf? : Text → Option Text
  | [] => none
  | c :: t =>
    if c = '\x5c' then if t.isEmpty then none else some t
    else if c.isAlpha || c == '_' then some (c :: t.takeWhile isWordChar)
    else none

/-- The identifier behind an optional parameter override. -/
def nameOf? : List Token → Option String
  | ⟨.symbol .hash, _⟩ :: ⟨.symbol .openParen, _⟩ :: ts =>
    (Token.closeParen? 0 ts).bind fun e => e.rest.head?.bind Token.identifier?
  | ⟨.symbol .hash, _⟩ :: _ => none
  | ts => ts.head?.bind Token.identifier?

/-- Whether a word is an assignment sign. -/
def isAssignment (w : Text) : Bool := w == ['='] || w == ['<', '=']

/-- The instantiation that a statement looks like. -/
def ofStatement? (o : Options) (s : Statement) : Option Instance :=
  match Text.words s.text with
  | w :: v :: _ :: _ =>
    if !s.text.contains '(' || o.isReserved (String.ofList w) || isAssignment v then none
    else
      (calleeOf? w).map fun callee =>
        ⟨String.ofList callee, nameOf? (Token.scan s.text).tail, String.ofList s.text,
          s.conditionals⟩
  | _ => none

end Instance

end DesignAtlas
