import DesignAtlas.Diagnostic
import DesignAtlas.Options
import DesignAtlas.Parameter.Basic
import DesignAtlas.Pin.Item
import DesignAtlas.Token.Scan

/-! # Parameter declarations

Parameters are declared in the block of a module header and by statements of its body. Either text
is cut into segments at the commas outside all brackets. A segment declares a parameter when it
reads

  ... keyword [type] [signing] range* name = value

or, after a segment that did, `name = value`, which takes over the size or type declared last.
Each nonempty segment is accepted or rejected on its own. -/

namespace DesignAtlas.Parameter

/-! ### Cutting into segments -/

/-- The bracket depth behind a token, never below zero. -/
def nesting (depth : Nat) (t : Token) : Nat :=
  match t.payload with
  | .symbol .openParen | .symbol .openBracket | .symbol .openBrace => depth + 1
  | .symbol .closeParen | .symbol .closeBracket | .symbol .closeBrace => depth - 1
  | _ => depth

/-- The runs of tokens between the commas at depth zero, empty runs included. -/
def runs (depth : Nat) : List Token → List (List Token)
  | [] => [[]]
  | t :: ts =>
    if t.isSymbol .comma && depth == 0 then [] :: runs depth ts
    else consHead t (runs (nesting depth t) ts)

/-- The segments of a token list. -/
def segments (ts : List Token) : List (List Token) := (runs 0 ts).filter fun r => !r.isEmpty

/-! ### Reading a segment -/

/-- Whether a token announces a parameter. -/
def isKeyword (o : Options) (t : Token) : Bool :=
  match t.payload with
  | .keyword .parameter => true
  | .keyword .localparam => o.captureLocalparams
  | _ => false

/-- The tokens behind the first keyword of a segment. -/
def afterKeyword? (o : Options) (segment : List Token) : Option (List Token) :=
  match segment.dropWhile fun t => !isKeyword o t with
  | [] => none
  | _ :: ts => some ts

/-- Reads `name = value`, the value being all that follows. -/
def binding? (text : Text) (sizeOrType : Option String) : List Token → Option Parameter
  | n :: e :: v :: vs =>
    if e.isSymbol .equals then
      n.identifier?.map fun name =>
        ⟨name, sizeOrType, String.ofList (Text.collapse (Token.sourceOf text (v :: vs)))⟩
    else none
  | _ => none

/-- Whether an identifier before `rest` is a type: it is when an identifier or a range follows. -/
def isType (rest : List Token) : Bool :=
  rest.head?.any fun t => t.identifier?.isSome || t.isSymbol .openBracket

/-- Reads the declaration behind the keyword. A size hides the type. -/
def declarator? (text : Text) (ts : List Token) : Option Parameter :=
  let type := Token.takeWord (fun _ rest => isType rest) ts
  let signing := Token.takeWord (fun w _ => isSigning w && !type.1.contains w) type.2
  match Token.takeRanges? 0 signing.2 with
  | none => none
  | some (ranges, rest) =>
    binding? text ((Token.rangeText text ranges).or (typeText (type.1 ++ signing.1))) rest

/-- Reads a segment; `inherited` is the size or type of the parameter before it, if there is one. -/
def ofSegment? (text : Text) (o : Options) (inherited : Option (Option String))
    (segment : List Token) : Option Parameter :=
  match afterKeyword? o segment with
  | some ts => declarator? text ts
  | none => inherited.bind fun shape => binding? text shape segment

/-- The outcome of every segment in order: a parameter, or the source text that is none. -/
def outcomes (text : Text) (o : Options) : Option (Option String) → List (List Token) →
    List (Except String Parameter)
  | _, [] => []
  | inherited, s :: ss =>
    match ofSegment? text o inherited s with
    | some p => .ok p :: outcomes text o (some p.sizeOrType) ss
    | none =>
      .error (String.ofList (Text.collapse (Token.sourceOf text s))) ::
        outcomes text o inherited ss

/-! ### Blocks and statements -/

/-- The parameters among some outcomes. -/
def accepted (rs : List (Except String Parameter)) : List Parameter :=
  rs.filterMap fun r => r.toOption

/-- The rejected texts among some outcomes. -/
def rejected (rs : List (Except String Parameter)) : List String :=
  rs.filterMap fun r =>
    match r with
    | .ok _ => none
    | .error e => some e

/-- What a text declares. -/
structure Declared where
  parameters : List Parameter
  /-- The segments that declare nothing. -/
  rejected : List String
  deriving DecidableEq, Repr

/-- What the segments of a text declare. -/
def declaredBy (o : Options) (text : Text) (ss : List (List Token)) : Declared :=
  let rs := outcomes text o none ss
  ⟨accepted rs, rejected rs⟩

/-- What a parameter block declares. -/
def ofBlock (o : Options) (text : Text) : Declared :=
  declaredBy o text (segments (Token.scan text))

/-- The diagnostics of a parameter block: one for every rejected segment. -/
def blockDiagnostics (module : String) (d : Declared) : List Diagnostic :=
  d.rejected.map fun t => ⟨.unrecognizedParameter, module, t⟩

/-- What a statement declares; `none` when its first segment has no keyword. -/
def ofStatement? (o : Options) (text : Text) : Option Declared :=
  match segments (Token.scan text) with
  | [] => none
  | s :: ss => if (afterKeyword? o s).isSome then some (declaredBy o text (s :: ss)) else none

end DesignAtlas.Parameter
