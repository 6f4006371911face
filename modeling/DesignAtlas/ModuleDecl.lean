import DesignAtlas.Log
import DesignAtlas.Token.Bracket
import DesignAtlas.Token.Scan

/-! # Module declarations

A module declaration is the run of tokens

  module name [#( ... )] [( ... )] ; ... endmodule

in which the parentheses balance and the body ends at the first `endmodule`. Every module keyword
outside a declaration is an attempt at one; when an attempt fails, reading goes on behind the tokens
that it took. A declaration is kept as the spans of its parts. -/

namespace DesignAtlas

/-- A module declaration, by the spans of its parts. -/
structure ModuleDecl where
  name : String
  nameSpan : Span
  /-- Between the parentheses of the parameter block. -/
  parameterSpan : Option Span
  /-- Between the parentheses of the pin list. -/
  pinSpan : Option Span
  /-- From the semicolon of the header to `endmodule`. -/
  bodySpan : Span
  deriving DecidableEq, Repr

/-- Why an attempt at a declaration fails. -/
inductive DeclError where
  | nameExpected (found : Payload)
  | endOfInput
  | parenExpected (module : String)
  | parametersOpen (module : String)
  | pinsOpen (module : String)
  | semicolonExpected (module : String)
  | endExpected (module : String)
  deriving DecidableEq, Repr

/-- The error in words. -/
def DeclError.message : DeclError → String
  | .nameExpected found => "expected module name, got '" ++ found.display ++ "'"
  | .endOfInput => "unexpected end of input, expected module name"
  | .parenExpected m => "expected '(' after '#' in module " ++ m
  | .parametersOpen m => "unterminated parameter block in module " ++ m
  | .pinsOpen m => "unterminated port list in module " ++ m
  | .semicolonExpected m => "expected ';' after header of module " ++ m
  | .endExpected m => "missing endmodule for module " ++ m

namespace ModuleDecl

/-- The text of the parameter block, if there is one. -/
def parameterBlock? (source : Text) (d : ModuleDecl) : Option Text :=
  d.parameterSpan.map fun s => s.slice source

/-- The text of the pin list, empty when there is none. -/
def pinList (source : Text) (d : ModuleDecl) : Text :=
  match d.pinSpan with
  | some s => s.slice source
  | none => []

/-- The text of the body. -/
def body (source : Text) (d : ModuleDecl) : Text := d.bodySpan.slice source

/-! ### Reading one declaration -/

/-- The outcome of an attempt and the tokens behind those that it took. -/
abbrev Outcome := Except DeclError ModuleDecl × List Token

/-- Reads the semicolon, the body and the end of the declaration. -/
def readBody (name : String) (nameSpan : Span) (parameterSpan pinSpan : Option Span) :
    List Token → Outcome
  | ⟨.symbol .semicolon, semi⟩ :: ts =>
    match ts.dropWhile fun t => t.payload != .keyword .endmodule with
    | [] => (.error (.endExpected name), [])
    | e :: rest =>
      (.ok ⟨name, nameSpan, parameterSpan, pinSpan, ⟨semi.limit, e.span.start⟩⟩, rest)
  | ts => (.error (.semicolonExpected name), ts)

/-- Reads the pin list and what follows it. -/
def readPins (name : String) (nameSpan : Span) (parameterSpan : Option Span) :
    List Token → Outcome
  | ⟨.symbol .openParen, s⟩ :: ts =>
    match Token.closeParen? 0 ts with
    | none => (.error (.pinsOpen name), [])
    | some e =>
      readBody name nameSpan parameterSpan (some ⟨s.limit, e.close.span.start⟩) e.rest
  | ts => readBody name nameSpan parameterSpan none ts

/-- Reads the parameter block and what follows it. -/
def readParameters (name : String) (nameSpan : Span) : List Token → Outcome
  | ⟨.symbol .hash, _⟩ :: ⟨.symbol .openParen, s⟩ :: ts =>
    match Token.closeParen? 0 ts with
    | none => (.error (.parametersOpen name), [])
    | some e => readPins name nameSpan (some ⟨s.limit, e.close.span.start⟩) e.rest
  | ⟨.symbol .hash, _⟩ :: ts => (.error (.parenExpected name), ts)
  | ts => readPins name nameSpan none ts

/-- Reads a declaration behind its keyword. -/
def read : List Token → Outcome
  | [] => (.error .endOfInput, [])
  | ⟨.identifier name, s⟩ :: ts => readParameters name s ts
  | t :: ts => (.error (.nameExpected t.payload), ts)

theorem length_readBody_le (name : String) (s : Span) (a b : Option Span) (ts : List Token) :
    (readBody name s a b ts).2.length ≤ ts.length := by
  unfold readBody
  split
  · rename_i semi ts
    split
    · simp
    · rename_i e rest h
      have := (List.dropWhile_sublist
        (fun t => t.payload != .keyword .endmodule) (l := ts)).length_le
      rw [h] at this
      simp only [List.length_cons] at this ⊢
      omega
  · exact Nat.le_refl _

theorem length_readPins_le (name : String) (s : Span) (a : Option Span) (ts : List Token) :
    (readPins name s a ts).2.length ≤ ts.length := by
  unfold readPins
  split
  · split
    · simp
    · rename_i e h
      have h1 := Token.length_rest_closeParen? h
      refine Nat.le_trans (length_readBody_le ..) ?_
      simp only [List.length_cons]
      omega
  · exact length_readBody_le ..

theorem length_readParameters_le (name : String) (s : Span) (ts : List Token) :
    (readParameters name s ts).2.length ≤ ts.length := by
  unfold readParameters
  split
  · split
    · simp
    · rename_i e h
      have h1 := Token.length_rest_closeParen? h
      refine Nat.le_trans (length_readPins_le ..) ?_
      simp only [List.length_cons]
      omega
  · simp
  · exact length_readPins_le ..

theorem length_read_le (ts : List Token) : (read ts).2.length ≤ ts.length := by
  unfold read
  split
  · simp
  · refine Nat.le_trans (length_readParameters_le ..) ?_
    simp
  · simp

/-! ### Reading all declarations -/

/-- An attempt at a declaration: where its keyword stands and what came of it. -/
structure Attempt where
  keyword : Span
  result : Except DeclError ModuleDecl

/-- Whether a token announces a module declaration. -/
def isModuleKeyword (t : Token) : Bool :=
  t.payload == .keyword .module || t.payload == .keyword .macromodule

/-- The attempts in a token list, in order. -/
def attempts : List Token → List Attempt
  | [] => []
  | t :: ts =>
    if isModuleKeyword t then ⟨t.span, (read ts).1⟩ :: attempts (read ts).2 else attempts ts
  termination_by ts => ts.length
  decreasing_by
    · have := length_read_le ts
      simp only [List.length_cons]
      omega
    · simp

/-- The attempts in a source text. -/
def attemptsIn (source : Text) : List Attempt := attempts (Token.scan source)

/-- The declarations among some attempts. -/
def succeeded (as : List Attempt) : List ModuleDecl := as.filterMap fun a => a.result.toOption

/-- The declarations in a source text, in order. -/
def ofSource (source : Text) : List ModuleDecl := succeeded (attemptsIn source)

/-- What an attempt has to say about its failure. -/
def Attempt.remarks (a : Attempt) : List LogLine :=
  match a.result with
  | .ok _ => []
  | .error e =>
    let skipped : LogLine :=
      ⟨.debug, "extract_modules: skipping module header @ " ++ a.keyword.describe ++ ": " ++
        e.message⟩
    match e with
    | .endExpected m => [⟨.warn, "module " ++ m ++ " has no endmodule; dropping it"⟩, skipped]
    | _ => [skipped]

end ModuleDecl

end DesignAtlas
