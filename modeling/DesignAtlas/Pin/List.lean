import DesignAtlas.Condition
import DesignAtlas.Diagnostic
import DesignAtlas.Pin.Item
import DesignAtlas.Token.Scan

/-! # Pin lists

The pin list of a module header declares its pins in order. A declaration that is only a name takes
direction, type and size from the nearest declaration before it that states one of them. Items that
are no declaration are reported. A declaration in the module's body states the pins that the header
only names: it changes those pins at their place and adds none. -/

namespace DesignAtlas

/-! ### The list in the header -/

/-- A pin list read so far. -/
structure PinList where
  stack : ConditionStack
  /-- The last declared pin with more than a name. -/
  pattern : Option Pin
  pins : Roster Pin
  diagnostics : List Diagnostic
  deriving DecidableEq, Repr

namespace PinList

/-- The pin declared by `d`, which takes from the pattern what it leaves out when it is only a
name. -/
def pinOf (pattern : Option Pin) (conditionals : List String) (d : PinDecl) : Pin :=
  if d.isQualified then d.pin conditionals
  else
    match pattern with
    | some p => p.renamed d.name conditionals
    | none => Pin.bare d.name conditionals

/-- Applies a directive. -/
def stepDirective (module : String) (s : PinList) (d : Directive) : PinList :=
  { s with
    stack := s.stack.advance d
    diagnostics :=
      if s.stack.rejects d then s.diagnostics ++ [⟨.unbalancedEndif, module, "`" ++ d.name⟩]
      else s.diagnostics }

/-- Adds a declared pin. -/
def stepDecl (s : PinList) (d : PinDecl) : PinList :=
  let pin := pinOf s.pattern s.stack.snapshot d
  { s with
    pattern := if d.isQualified then some pin else s.pattern
    pins := s.pins.put pin }

/-- Reports a run of tokens that is no declaration. -/
def stepUnknown (module : String) (text : Text) (s : PinList) (ts : List Token) : PinList :=
  let source := String.ofList (Text.collapse (Token.sourceOf text ts))
  { s with diagnostics := s.diagnostics ++ [⟨.unrecognizedPin, module, source⟩] }

/-- Reads one more item. -/
def step (module : String) (text : Text) (s : PinList) : PinItem → PinList
  | .directive d => s.stepDirective module d
  | .declaration ts =>
    match PinDecl.ofTokens? text ts with
    | some d => s.stepDecl d
    | none => s.stepUnknown module text ts

/-- Reads the pin list of a module. -/
def ofText (module : String) (o : Options) (text : Text) : PinList :=
  (PinItem.ofTokens (Token.scan text)).foldl (step module text)
    ⟨ConditionStack.empty o.elsePolicy, none, Roster.empty, []⟩

end PinList

/-! ### Declarations in the body -/

namespace PinDecl

/-- The pins that the items of a body declaration state. A name before any qualified declaration
states nothing. -/
def pinsOf (text : Text) (conditionals : List String) : Option Pin → List PinItem → List Pin
  | _, [] => []
  | pattern, .directive _ :: items => pinsOf text conditionals pattern items
  | pattern, .declaration ts :: items =>
    match ofTokens? text ts with
    | none => pinsOf text conditionals pattern items
    | some d =>
      if d.isQualified then
        d.pin conditionals :: pinsOf text conditionals (some (d.pin conditionals)) items
      else
        match pattern with
        | some p => p.renamed d.name conditionals :: pinsOf text conditionals pattern items
        | none => pinsOf text conditionals pattern items

/-- Whether the first item is a declaration that begins with a direction. -/
def beginsWithDirection : List PinItem → Bool
  | .declaration (t :: _) :: _ => (Direction.ofPayload? t.payload).isSome
  | _ => false

/-- The pins after a statement of the body that declares some of them; `none` when the statement is
no such declaration. -/
def refine? (pins : Roster Pin) (statement : Text) (conditionals : List String) :
    Option (Roster Pin) :=
  let items := PinItem.ofTokens (Token.scan statement)
  if beginsWithDirection items then
    some ((pinsOf statement conditionals none items).foldl Roster.replace pins)
  else none

end PinDecl

end DesignAtlas
