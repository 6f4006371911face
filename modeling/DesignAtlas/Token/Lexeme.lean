import DesignAtlas.Token.Basic

/-! # Lexemes

Recognising one token at the front of a text. A lexeme is what has been recognised, the characters
it covers and the text behind it. Recognition never fails: a character that begins nothing else is
a token by itself. Nothing is lost (`text_append_rest_recognise`) and at least one character is
covered (`text_recognise_ne_nil`). -/

namespace DesignAtlas

/-! ### Character classes -/

/-- Characters that may begin a word. -/
def isWordStart (c : Char) : Bool := c.isAlpha || c == '_' || c == '$'

/-- Characters of a word. -/
def isWordChar (c : Char) : Bool := c.isAlphanum || c == '_' || c == '$'

/-- Characters of a number, its base and its unknown digits included. -/
def isNumberChar (c : Char) : Bool :=
  c.isAlphanum || c == '_' || c == '\x27' || c == '.' || c == '?'

/-- Blanks that do not end a line. -/
def isInlineBlank (c : Char) : Bool := isBlank c && c != '\n'

/-- A token recognised at the front of a text. -/
structure Lexeme where
  payload : Payload
  /-- The characters that the token covers. -/
  text : Text
  /-- The text behind the token. -/
  rest : Text
  deriving DecidableEq, Repr

namespace Lexeme

/-! ### One recogniser for each kind -/

/-- A directive or macro use, by the text after its backtick. -/
def directive (t : Text) : Lexeme :=
  let name := t.takeWhile isWordChar
  let after := t.dropWhile isWordChar
  match Directive.extent? (String.ofList name) with
  | none => ⟨.macroUse (String.ofList name), '\x60' :: name, after⟩
  | some .bare => ⟨.directive ⟨String.ofList name, ""⟩, '\x60' :: name, after⟩
  | some .word =>
    let gap := after.takeWhile isInlineBlank
    let behind := after.dropWhile isInlineBlank
    let argument := behind.takeWhile isWordChar
    ⟨.directive ⟨String.ofList name, String.ofList argument⟩, '\x60' :: name ++ gap ++ argument,
      behind.dropWhile isWordChar⟩
  | some .line =>
    let line := after.takeWhile (· != '\n')
    ⟨.directive ⟨String.ofList name, String.ofList (Text.collapse line)⟩, '\x60' :: name ++ line,
      after.dropWhile (· != '\n')⟩

/-- A word that begins with `c`. -/
def word (c : Char) (t : Text) : Lexeme :=
  let w := c :: t.takeWhile isWordChar
  ⟨.ofWord (String.ofList w), w, t.dropWhile isWordChar⟩

/-- An escaped identifier, by the text after its backslash: it runs to the next blank and covers
that blank. -/
def escaped (t : Text) : Lexeme :=
  let name := t.takeWhile fun c => !isBlank c
  let after := t.dropWhile fun c => !isBlank c
  ⟨.ofWord (String.ofList name), '\x5c' :: name ++ after.take 1, after.drop 1⟩

/-- A number that begins with `c`. -/
def number (c : Char) (t : Text) : Lexeme :=
  let w := c :: t.takeWhile isNumberChar
  ⟨.number (String.ofList w), w, t.dropWhile isNumberChar⟩

/-- The content of a string literal and the text from its closing quote on. A backslash keeps the
character behind it. -/
def splitString : Text → Text × Text
  | [] => ([], [])
  | [c] => if c = '\x22' then ([], [c]) else ([c], [])
  | c :: d :: t =>
    if c = '\x22' then ([], c :: d :: t)
    else if c = '\x5c' then (c :: d :: (splitString t).1, (splitString t).2)
    else (c :: (splitString (d :: t)).1, (splitString (d :: t)).2)

/-- A string literal, by the text after its opening quote; without a closing quote it runs to the
end of the text. -/
def string (t : Text) : Lexeme :=
  let parts := splitString t
  ⟨.string (String.ofList parts.1), '\x22' :: parts.1 ++ parts.2.take 1, parts.2.drop 1⟩

/-- A character that is a token by itself. -/
def single (c : Char) (t : Text) : Lexeme := ⟨.ofChar c, [c], t⟩

/-- Whether `c`, followed by `t`, begins a number: a digit does, and an apostrophe that stands
directly before a word character. -/
def beginsNumber (c : Char) (t : Text) : Bool :=
  c.isDigit || (c == '\x27' && t.head?.any isWordChar)

/-- The token at the front of the text `c :: t`, where `c` is not blank. -/
def recognise (c : Char) (t : Text) : Lexeme :=
  if c = '\x60' then directive t
  else if isWordStart c then word c t
  else if c = '\x5c' then escaped t
  else if beginsNumber c t then number c t
  else if c = '\x22' then string t
  else single c t

/-! ### Nothing is lost -/

theorem splitString_append (t : Text) : (splitString t).1 ++ (splitString t).2 = t := by
  fun_induction splitString t <;> simp_all

theorem text_append_rest_directive (t : Text) :
    (directive t).text ++ (directive t).rest = '\x60' :: t := by
  unfold directive
  simp only
  split <;> simp

theorem text_append_rest_escaped (t : Text) :
    (escaped t).text ++ (escaped t).rest = '\x5c' :: t := by
  unfold escaped
  rw [List.append_assoc, List.take_append_drop, List.cons_append, List.takeWhile_append_dropWhile]

theorem text_append_rest_string (t : Text) :
    (string t).text ++ (string t).rest = '\x22' :: t := by
  unfold string
  rw [List.append_assoc, List.take_append_drop, List.cons_append, splitString_append]

theorem text_append_rest_recognise (c : Char) (t : Text) :
    (recognise c t).text ++ (recognise c t).rest = c :: t := by
  unfold recognise
  split
  · rename_i h; rw [text_append_rest_directive, h]
  · split
    · simp [word]
    · split
      · rename_i h; rw [text_append_rest_escaped, h]
      · split
        · simp [number]
        · split
          · rename_i h; rw [text_append_rest_string, h]
          · simp [single]

theorem text_recognise_ne_nil (c : Char) (t : Text) : (recognise c t).text ≠ [] := by
  unfold recognise
  split
  · unfold directive
    simp only
    split <;> simp
  · split
    · simp [word]
    · split
      · simp [escaped]
      · split
        · simp [number]
        · split <;> simp [string, single]

/-- The text behind a token is no longer than the text behind the token's first character. -/
theorem length_rest_recognise (c : Char) (t : Text) : (recognise c t).rest.length ≤ t.length := by
  have h := congrArg List.length (text_append_rest_recognise c t)
  have h' := List.length_pos_iff.mpr (text_recognise_ne_nil c t)
  simp only [List.length_append, List.length_cons] at h
  omega

end Lexeme

end DesignAtlas
