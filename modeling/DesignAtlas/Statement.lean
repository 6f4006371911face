import DesignAtlas.Condition
import DesignAtlas.Diagnostic
import DesignAtlas.Token.Lexeme

/-! # Statements of a module body

A body is read line by line. The first directive of a line cuts it: what stands before is code, and
the directive takes effect behind the line. The code is cut into statements at its semicolons, and
what follows the last one is a statement too. A statement carries the conditions that are open where
it begins, and tells whether it stands in a task or function. -/

namespace DesignAtlas

/-! ### Directives of a line -/

/-- The characters of a directive's name in a body. -/
def isDirectiveChar (c : Char) : Bool := c.isAlphanum || c == '_'

/-- The directive written behind a backtick, if it is one. -/
def Directive.ofText? (t : Text) : Option Directive :=
  let name := String.ofList (t.takeWhile isDirectiveChar)
  let after := Text.trim (t.dropWhile isDirectiveChar)
  match Directive.extent? name with
  | none => none
  | some .bare => some ⟨name, ""⟩
  | some .word => some ⟨name, String.ofList ((Text.words after).head?.getD [])⟩
  | some .line => some ⟨name, String.ofList after⟩

/-- Cuts a line before its first directive. A backtick that begins no directive is code. -/
def Directive.cut : Text → Text × Option Directive
  | [] => ([], none)
  | c :: t =>
    if c = '\x60' then
      match Directive.ofText? t with
      | some d => ([], some d)
      | none => (c :: (Directive.cut t).1, (Directive.cut t).2)
    else (c :: (Directive.cut t).1, (Directive.cut t).2)

/-! ### Cutting a body into fragments -/

/-- What a body is read as: characters of code, and directives. -/
inductive Piece where
  | char (c : Char)
  | directive (d : Directive)
  deriving DecidableEq, Repr

namespace Piece

/-- The pieces of a line: its code, its newline, its directive. -/
def ofLine (line : Text) : List Piece :=
  (Directive.cut line).1.map .char ++ .char '\n' ::
    ((Directive.cut line).2.map Piece.directive).toList

/-- The pieces of a body. -/
def ofBody (body : Text) : List Piece := (Text.lines body).flatMap ofLine

/-- The directive that a piece is. -/
def directive? : Piece → Option Directive
  | .directive d => some d
  | .char _ => none

end Piece

/-- The code between two semicolons, and the conditions open where it begins. -/
structure Fragment where
  text : Text
  conditionals : List String
  deriving DecidableEq, Repr

namespace Fragment

/-- Cuts pieces into fragments. `begun` holds the conditions of the fragment under way once it has
a character that is not blank, and `read` its characters in reverse. -/
def ofPieces (stack : ConditionStack) (begun : Option (List String)) (read : Text) :
    List Piece → List Fragment
  | [] => [⟨read.reverse, begun.getD stack.snapshot⟩]
  | .directive d :: ps => ofPieces (stack.advance d) begun read ps
  | .char c :: ps =>
    if c = ';' then ⟨read.reverse, begun.getD stack.snapshot⟩ :: ofPieces stack none [] ps
    else if begun.isNone && !isBlank c then
      ofPieces stack (some stack.snapshot) (c :: read) ps
    else ofPieces stack begun (c :: read) ps

end Fragment

/-! ### Tasks and functions -/

/-- A statement of a module body. -/
structure Statement where
  text : Text
  /-- The conditional directives open where the statement begins, outermost first. -/
  conditionals : List String
  /-- Whether the statement begins a task or function or stands in one. -/
  inSubprogram : Bool
  deriving DecidableEq, Repr

namespace Statement

/-- The first word of a text that begins with one. -/
def firstWord (t : Text) : String := String.ofList (t.takeWhile fun c => !isBlank c)

/-- The text behind an optional colon and label. -/
def dropLabel : Text → Text
  | ':' :: t => Text.trimStart ((Text.trimStart t).dropWhile isWordChar)
  | t => t

/-- The text behind a word that ends a task or function, and behind its label. -/
def afterEnd? (t : Text) : Option Text :=
  if firstWord t = "endtask" ∨ firstWord t = "endfunction" then
    some (dropLabel (Text.trimStart (t.dropWhile fun c => !isBlank c)))
  else none

theorem length_dropLabel_le (t : Text) : (dropLabel t).length ≤ t.length := by
  unfold dropLabel
  split
  · rename_i t
    have h1 := Text.length_trimStart_le ((Text.trimStart t).dropWhile isWordChar)
    have h2 := (List.dropWhile_sublist isWordChar (l := Text.trimStart t)).length_le
    have h3 := Text.length_trimStart_le t
    simp only [List.length_cons]
    omega
  · exact Nat.le_refl _

theorem length_afterEnd?_lt {t r : Text} (h : afterEnd? t = some r) : r.length < t.length := by
  unfold afterEnd? at h
  split at h
  · rename_i hw
    obtain rfl := Option.some.inj h
    have h1 := length_dropLabel_le (Text.trimStart (t.dropWhile fun c => !isBlank c))
    have h2 := Text.length_trimStart_le (t.dropWhile fun c => !isBlank c)
    have h3 := congrArg List.length
      (List.takeWhile_append_dropWhile (p := fun c => !isBlank c) (l := t))
    have h4 : 0 < (t.takeWhile fun c => !isBlank c).length := by
      apply List.length_pos_iff.mpr
      intro hnil
      simp [firstWord, hnil] at hw
    simp only [List.length_append] at h3
    omega
  · cases h

/-- Cuts off the words at the front that end tasks or functions; the result is their number and the
text behind them. -/
def dropEnds (t : Text) : Nat × Text :=
  match _h : afterEnd? t with
  | none => (0, t)
  | some r => ((dropEnds r).1 + 1, (dropEnds r).2)
  termination_by t.length
  decreasing_by all_goals exact length_afterEnd?_lt ‹_›

/-- Whether a statement begins a task or function. -/
def opensSubprogram (t : Text) : Bool := firstWord t == "task" || firstWord t == "function"

/-- The statements of some fragments, of which the first stands in `depth` tasks or functions. -/
def ofFragments (depth : Nat) : List Fragment → List Statement
  | [] => []
  | f :: fs =>
    let ends := dropEnds (Text.trim f.text)
    let inner := depth - ends.1
    let opens := opensSubprogram ends.2
    ⟨ends.2, f.conditionals, opens || decide (0 < inner)⟩ ::
      ofFragments (if opens then inner + 1 else inner) fs

/-- The statements of a module body. -/
def ofBody (o : Options) (body : Text) : List Statement :=
  ofFragments 0 (Fragment.ofPieces (ConditionStack.empty o.elsePolicy) none [] (Piece.ofBody body))

/-- The diagnostics of a module body: one for each directive that closes no region. -/
def bodyDiagnostics (module : String) (o : Options) (body : Text) : List Diagnostic :=
  let directives := (Piece.ofBody body).filterMap Piece.directive?
  ((ConditionStack.empty o.elsePolicy).rejected directives).map fun d =>
    ⟨.unbalancedEndif, module, "`" ++ d.name⟩

end Statement

end DesignAtlas
