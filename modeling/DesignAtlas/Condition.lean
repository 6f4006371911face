import DesignAtlas.Token.Basic
import DesignAtlas.Options
import DesignAtlas.Log

/-! # Conditional regions

Conditional directives open and close nested regions. A stack holds the conditions of the regions
that are open, and its snapshot lists them from the outside in. A directive that closes a region
when none is open is an error. -/

namespace DesignAtlas

/-- The directives that state a condition. -/
inductive ConditionKind where
  | ifdef
  | ifndef
  | elsif
  deriving DecidableEq, Repr

/-- The name of the directive. -/
def ConditionKind.word : ConditionKind → String
  | .ifdef => "ifdef"
  | .ifndef => "ifndef"
  | .elsif => "elsif"

/-- The condition of an open region. -/
structure Condition where
  kind : ConditionKind
  argument : String
  deriving DecidableEq, Repr

namespace Condition

/-- The condition as the directive that states it. -/
def display (c : Condition) : String := Directive.display ⟨c.kind.word, c.argument⟩

/-- The condition of the `else` branch; that of an `elsif` is left as it is. -/
def negate (c : Condition) : Condition :=
  match c.kind with
  | .ifdef => { c with kind := .ifndef }
  | .ifndef => { c with kind := .ifdef }
  | .elsif => c

end Condition

/-- Why a directive cannot be applied. -/
inductive ConditionError where
  /-- An `endif` with no open region. -/
  | unbalancedEndif
  deriving DecidableEq, Repr

/-- The error in words. -/
def ConditionError.message : ConditionError → String
  | .unbalancedEndif => "`endif without matching `ifdef/`ifndef"

/-- The conditions of the open regions, innermost first. -/
structure ConditionStack where
  policy : ElsePolicy
  regions : List Condition
  deriving DecidableEq, Repr

namespace ConditionStack

/-- The stack outside all regions. -/
def empty (policy : ElsePolicy) : ConditionStack := ⟨policy, []⟩

/-- The open conditions, outermost first, each as its directive. -/
def snapshot (s : ConditionStack) : List String := s.regions.reverse.map Condition.display

/-- The number of open regions. -/
def depth (s : ConditionStack) : Nat := s.regions.length

/-- Opens a region. -/
def push (s : ConditionStack) (c : Condition) : ConditionStack :=
  { s with regions := c :: s.regions }

/-- Changes the innermost condition, if the policy lets an `else` change it and there is one. -/
def amend (s : ConditionStack) (f : Condition → Condition) : ConditionStack :=
  match s.policy, s.regions with
  | .negate, c :: cs => { s with regions := f c :: cs }
  | _, _ => s

/-- Takes the innermost condition away and returns it, if there is one. -/
def pop (s : ConditionStack) : Option Condition × ConditionStack :=
  (s.regions.head?, { s with regions := s.regions.tail })

/-- Applies a directive: whether it can be applied, and the stack behind it. One that neither opens
nor closes nor divides a region changes nothing. -/
def apply (s : ConditionStack) (d : Directive) : Except ConditionError Unit × ConditionStack :=
  if d.name = "ifdef" then (.ok (), s.push ⟨.ifdef, d.argument⟩)
  else if d.name = "ifndef" then (.ok (), s.push ⟨.ifndef, d.argument⟩)
  else if d.name = "endif" then
    (s.pop.1.elim (.error .unbalancedEndif) fun _ => .ok (), s.pop.2)
  else if d.name = "else" then (.ok (), s.amend Condition.negate)
  else if d.name = "elsif" then (.ok (), s.amend fun _ => ⟨.elsif, d.argument⟩)
  else (.ok (), s)

/-- The stack behind a directive, whether or not it can be applied. -/
def advance (s : ConditionStack) (d : Directive) : ConditionStack := (s.apply d).2

/-- Whether the directive cannot be applied. -/
def rejects (s : ConditionStack) (d : Directive) : Bool :=
  match (s.apply d).1 with
  | .ok _ => false
  | .error _ => true

/-- What applying the directive has to say: one line when it concerns no region. -/
def remarks (d : Directive) : List LogLine :=
  if ["ifdef", "ifndef", "endif", "else", "elsif"].contains d.name then []
  else [⟨.debug, "ConditionalStack: ignoring directive `" ++ d.name⟩]

/-- The directives of a sequence that cannot be applied when their turn comes. -/
def rejected (s : ConditionStack) : List Directive → List Directive
  | [] => []
  | d :: ds =>
    if s.rejects d then d :: (s.advance d).rejected ds else (s.advance d).rejected ds

end ConditionStack

end DesignAtlas
