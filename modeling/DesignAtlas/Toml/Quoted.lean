import DesignAtlas.Toml.Number
import DesignAtlas.Toml.Value

/-! # TOML strings

Basic strings stand in double quotes and have escapes; literal strings stand in single quotes and
have none. Either kind has a form in three quotes that may go over several lines: a newline right
behind the opening quotes does not count, one or two quotes are part of the string, and up to two
quotes in front of the closing three are part of it as well. In the basic form a backslash at the
end of a line takes away all blanks and newlines behind it. -/

namespace DesignAtlas.Toml

/-! ### Escapes -/

/-- The character that a letter stands for behind a backslash. -/
def escapeOf? (c : Char) : Option Char :=
  if c = '\x22' ∨ c = '\x5c' then some c
  else if c = 'b' then some (Char.ofNat 8)
  else if c = 't' then some '\t'
  else if c = 'n' then some '\n'
  else if c = 'f' then some (Char.ofNat 12)
  else if c = 'r' then some '\r'
  else none

/-- The character with a code point written in hexadecimal. -/
def charOfHex? (digits : Text) : Option Char :=
  if !digits.all (isDigitIn 16) then none
  else if h : (natOfDigits 16 digits).isValidChar then
    some (Char.ofNatAux (natOfDigits 16 digits) h)
  else none

/-- Whether the rest of the line is blank, and a line follows. -/
def endsLine (t : Text) : Bool := (t.dropWhile fun c => c == ' ' || c == '\t').head? == some '\n'

/-! ### The end of a string in three quotes -/

/-- Behind three closing quotes: those of the next two that are quotes too, which belong to the
string, and the rest. -/
def lateQuotes (quote : Char) (t : Text) : Text × Text :=
  ((t.take 2).takeWhile (· == quote), t.drop ((t.take 2).takeWhile (· == quote)).length)

/-- The text without a newline at its front. -/
def dropNewline : Text → Text
  | '\n' :: t => t
  | t => t

/-! ### Reading -/

/-- Puts a character in front of what is read, or tells what is missing. -/
def Read.cons (what : String) (c : Option Char) (r : Read Text) : Read Text :=
  match c with
  | some c => r.map fun r => (c :: r.1, r.2)
  | none => .error (.expected what)

/-- Reads a basic string behind its opening quotes. When `long`, it stands in three quotes and may
hold newlines; when `skipping`, blanks and newlines are dropped until something else comes. -/
def readBasic (long skipping : Bool) : Text → Read Text
  | [] => .error (.expected "a closing quote")
  | c :: t =>
    if skipping && (c == ' ' || c == '\t' || c == '\n') then readBasic long true t
    else if c = '\x22' then
      if !long then .ok ([], t)
      else
        match t with
        | '\x22' :: '\x22' :: rest => .ok (lateQuotes '\x22' rest)
        | t => (readBasic long false t).cons "a quote" (some c)
    else if c = '\n' ∧ !long then .error (.expected "a closing quote")
    else if c = '\x5c' then
      if long && endsLine t then readBasic long true t
      else
        match t with
        | 'u' :: d₁ :: d₂ :: d₃ :: d₄ :: t =>
          (readBasic long false t).cons "four hexadecimal digits" (charOfHex? [d₁, d₂, d₃, d₄])
        | 'U' :: d₁ :: d₂ :: d₃ :: d₄ :: d₅ :: d₆ :: d₇ :: d₈ :: t =>
          (readBasic long false t).cons "eight hexadecimal digits"
            (charOfHex? [d₁, d₂, d₃, d₄, d₅, d₆, d₇, d₈])
        | d :: t => (readBasic long false t).cons "an escape" (escapeOf? d)
        | [] => .error (.expected "an escape")
    else (readBasic long false t).cons "a character" (some c)

/-- Reads a literal string behind its opening quotes, as `long` as it may be. -/
def readLiteral (long : Bool) : Text → Read Text
  | [] => .error (.expected "a closing quote")
  | c :: t =>
    if c = '\x27' then
      if !long then .ok ([], t)
      else
        match t with
        | '\x27' :: '\x27' :: rest => .ok (lateQuotes '\x27' rest)
        | t => (readLiteral long t).cons "a quote" (some c)
    else if c = '\n' ∧ !long then .error (.expected "a closing quote")
    else (readLiteral long t).cons "a character" (some c)

/-- What is read, as a string. -/
def Read.toText (r : Read Text) : Read String := r.map fun r => (String.ofList r.1, r.2)

/-- Reads a string on one line, if one begins here. -/
def readShort? : Text → Option (Read String)
  | '\x22' :: t => some (readBasic false false t).toText
  | '\x27' :: t => some (readLiteral false t).toText
  | _ => none

/-- Reads a string of any form, if one begins here. -/
def readString? : Text → Option (Read String)
  | '\x22' :: '\x22' :: '\x22' :: t => some (readBasic true false (dropNewline t)).toText
  | '\x27' :: '\x27' :: '\x27' :: t => some (readLiteral true (dropNewline t)).toText
  | t => readShort? t

end DesignAtlas.Toml
