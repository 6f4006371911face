import DesignAtlas.Text.Basic

/-! # Comments

A line comment runs from `//` to the end of its line, a block comment from `/*` to the next `*/`
or to the end of the text. Inside a string literal, which a quote opens and a quote or a newline
closes, nothing begins a comment. Stripping reads the text once, one character at a time, and keeps
every newline, so the lines of the result stand where they stood. -/

namespace DesignAtlas.Comment

/-- Where the reading stands between two characters. -/
inductive Mode where
  /-- Outside strings and comments. -/
  | code
  /-- After a slash that may yet begin a comment; it has not been written. -/
  | slash
  /-- In a line comment. -/
  | line
  /-- In a block comment; the flag tells whether its last character was a star. -/
  | block (star : Bool)
  /-- In a string literal. -/
  | string
  /-- In a string literal, after a backslash. -/
  | escape
  deriving DecidableEq, Repr

/-- Reading one character outside strings and comments: the next mode and what is written. -/
def codeStep (c : Char) : Mode × Text :=
  if c = '\x22' then (.string, [c])
  else if c = '/' then (.slash, [])
  else (.code, [c])

/-- Reading one character: the next mode and what is written. -/
def modeStep : Mode → Char → Mode × Text
  | .code, c => codeStep c
  | .slash, c =>
    if c = '/' then (.line, [])
    else if c = '*' then (.block false, [])
    else ((codeStep c).1, '/' :: (codeStep c).2)
  | .line, c => if c = '\n' then (.code, [c]) else (.line, [])
  | .block star, c =>
    if c = '\n' then (.block false, [c])
    else if star && c == '/' then (.code, [])
    else (.block (c == '*'), [])
  | .string, c =>
    if c = '\x5c' then (.escape, [c])
    else if c = '\x22' ∨ c = '\n' then (.code, [c])
    else (.string, [c])
  | .escape, c => (.string, [c])

/-- What is left to write when the text ends: a slash that began no comment. -/
def Mode.pending : Mode → Text
  | .slash => ['/']
  | _ => []

/-- A reading under way: its mode and, in reverse, all that has been written. -/
structure Reading where
  mode : Mode
  written : Text
  deriving DecidableEq, Repr

/-- Reads one more character. -/
def Reading.step (r : Reading) (c : Char) : Reading :=
  ⟨(modeStep r.mode c).1, (modeStep r.mode c).2.reverse ++ r.written⟩

/-- What has been written when the text ends here. -/
def Reading.finish (r : Reading) : Text := r.written.reverse ++ r.mode.pending

/-- The text without its comments. -/
def strip (t : Text) : Text := (t.foldl Reading.step ⟨.code, []⟩).finish

end DesignAtlas.Comment
