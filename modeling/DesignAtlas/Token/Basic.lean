import DesignAtlas.Position

/-! # Tokens

The tokens of hardware source text. A token has a payload, which says what it is, and the span of
text that it covers. The display of a payload is its spelling without the freedom of layout: a
directive is written with one space before its argument, an escaped identifier without its
backslash. -/

namespace DesignAtlas

/-! ### Words with a meaning -/

/-- The words that are never identifiers. -/
inductive Keyword where
  | module
  | macromodule
  | endmodule
  | input
  | output
  | inout
  | parameter
  | localparam
  deriving DecidableEq, Repr

/-- The spelling of a keyword. -/
def Keyword.word : Keyword → String
  | .module => "module"
  | .macromodule => "macromodule"
  | .endmodule => "endmodule"
  | .input => "input"
  | .output => "output"
  | .inout => "inout"
  | .parameter => "parameter"
  | .localparam => "localparam"

/-- All keywords. -/
def Keyword.all : List Keyword :=
  [.module, .macromodule, .endmodule, .input, .output, .inout, .parameter, .localparam]

/-- The keyword spelled by a word. -/
def Keyword.ofWord? (w : String) : Option Keyword := Keyword.all.find? fun k => k.word == w

/-- How much text a compiler directive owns after its name. -/
inductive Extent where
  /-- Nothing. -/
  | bare
  /-- One word. -/
  | word
  /-- The rest of the line. -/
  | line
  deriving DecidableEq, Repr

/-- A compiler directive: its name, without the backtick, and its argument, which is empty when
there is none. -/
structure Directive where
  name : String
  argument : String
  deriving DecidableEq, Repr

/-- How much text the directive called `name` owns; `none` if no directive has that name. -/
def Directive.extent? (name : String) : Option Extent :=
  if ["ifdef", "ifndef", "elsif", "undef"].contains name then some .word
  else if ["define", "include", "timescale", "default_nettype", "pragma"].contains name then
    some .line
  else if ["else", "endif", "resetall", "celldefine", "endcelldefine"].contains name then some .bare
  else none

/-- The directive as it is written, with its backtick. -/
def Directive.display (d : Directive) : String :=
  if d.argument = "" then "`" ++ d.name else "`" ++ d.name ++ " " ++ d.argument

/-! ### Symbols -/

/-- The characters that are tokens of their own with a meaning. -/
inductive Symbol where
  | openParen
  | closeParen
  | openBracket
  | closeBracket
  | openBrace
  | closeBrace
  | hash
  | comma
  | semicolon
  | equals
  | colon
  | dot
  deriving DecidableEq, Repr

/-- The character of a symbol. -/
def Symbol.char : Symbol → Char
  | .openParen => '('
  | .closeParen => ')'
  | .openBracket => '['
  | .closeBracket => ']'
  | .openBrace => '\x7b'
  | .closeBrace => '\x7d'
  | .hash => '#'
  | .comma => ','
  | .semicolon => ';'
  | .equals => '='
  | .colon => ':'
  | .dot => '.'

/-- All symbols. -/
def Symbol.all : List Symbol :=
  [.openParen, .closeParen, .openBracket, .closeBracket, .openBrace, .closeBrace, .hash, .comma,
    .semicolon, .equals, .colon, .dot]

/-- The symbol written by a character. -/
def Symbol.ofChar? (c : Char) : Option Symbol := Symbol.all.find? fun s => s.char == c

/-! ### Payloads and tokens -/

/-- What a token is. -/
inductive Payload where
  | identifier (name : String)
  | keyword (k : Keyword)
  | directive (d : Directive)
  /-- A use of a text macro, such as a backtick followed by `WIDTH`. -/
  | macroUse (name : String)
  | number (text : String)
  /-- A string literal, by the characters between its quotes. -/
  | string (content : String)
  | symbol (s : Symbol)
  /-- Any other character. -/
  | other (c : Char)
  deriving DecidableEq, Repr

namespace Payload

/-- The payload of an identifier or keyword with the given spelling. -/
def ofWord (w : String) : Payload :=
  match Keyword.ofWord? w with
  | some k => .keyword k
  | none => .identifier w

/-- The payload of a character that stands for itself. -/
def ofChar (c : Char) : Payload :=
  match Symbol.ofChar? c with
  | some s => .symbol s
  | none => .other c

/-- The name that an identifier carries. -/
def identifier? : Payload → Option String
  | .identifier name => some name
  | _ => none

/-- The text of a payload. -/
def display : Payload → String
  | .identifier name => name
  | .keyword k => k.word
  | .directive d => d.display
  | .macroUse name => "`" ++ name
  | .number text => text
  | .string content => "\"" ++ content ++ "\""
  | .symbol s => String.singleton s.char
  | .other c => String.singleton c

end Payload

/-- A token: what it is and where it stands. -/
structure Token where
  payload : Payload
  span : Span
  deriving DecidableEq, Repr

namespace Token

/-- The name that the token carries if it is an identifier. -/
def identifier? (t : Token) : Option String := t.payload.identifier?

/-- Whether the token is the given symbol. -/
def isSymbol (s : Symbol) (t : Token) : Bool := t.payload == .symbol s

/-- Cuts an identifier off the front of a token list if the test accepts its name and the tokens
behind it. -/
def takeWord (accept : String → List Token → Bool) : List Token → List String × List Token
  | [] => ([], [])
  | t :: ts =>
    match t.identifier? with
    | some w => if accept w ts then ([w], ts) else ([], t :: ts)
    | none => ([], t :: ts)

/-- The span from the first token of a run to its last; `none` for the empty run. -/
def spanOf? (ts : List Token) : Option Span :=
  match ts.head?, ts.getLast? with
  | some first, some last => some ⟨first.span.start, last.span.limit⟩
  | _, _ => none

/-- The source text of a run of tokens, from the start of the first to the limit of the last. -/
def sourceOf (text : Text) (ts : List Token) : Text :=
  match spanOf? ts with
  | some s => s.slice text
  | none => []

end Token

end DesignAtlas
