import DesignAtlas.Toml.Moment
import DesignAtlas.Toml.Quoted
import DesignAtlas.Toml.Table

/-! # TOML documents

Reading a document, line by line: comments, headers of tables and of elements of arrays of tables,
and keys with their values. Lines end in `\n` or `\r\n`. Values nest less than eighty deep, and a
key has less than eighty parts. Loops that read an unknown number of parts take the length of the
text as a bound; each part has at least one character. -/

namespace DesignAtlas.Toml

/-- The number of levels that is too much, for values and for keys. -/
def levelLimit : Nat := 80

/-! ### Blanks and lines -/

/-- The text with every line ended by a newline alone. -/
def unixLines : Text → Text
  | [] => []
  | [c] => [c]
  | c :: d :: t =>
    if c = '\r' ∧ d = '\n' then '\n' :: unixLines t else c :: unixLines (d :: t)

/-- Control characters, none of which may stand in a text. -/
def isControl (c : Char) : Bool :=
  (decide (c.toNat < 32) && c != '\t' && c != '\n') || c.toNat == 127

/-- Skips spaces and tabs. -/
def skipBlanks (t : Text) : Text := t.dropWhile fun c => c == ' ' || c == '\t'

/-- Skips blanks, newlines and comments. -/
def skipLines (inComment : Bool) : Text → Text
  | [] => []
  | c :: t =>
    if c = '\n' then skipLines false t
    else if inComment || c == '#' then skipLines true t
    else if c = ' ' ∨ c = '\t' then skipLines false t
    else c :: t

/-- Reads the end of a line, a comment before it included. -/
def readLineEnd (t : Text) : Except Error Text :=
  match skipBlanks t with
  | [] => .ok []
  | '\n' :: t => .ok t
  | '#' :: t => .ok (t.dropWhile (· != '\n'))
  | _ => .error (.expected "the end of the line")

/-! ### Keys -/

/-- Characters of a key without quotes. -/
def isKeyChar (c : Char) : Bool := c.isAlphanum || c == '_' || c == '-'

/-- Reads one key. -/
def readKey (t : Text) : Read String :=
  match readShort? t with
  | some r => r
  | none =>
    if (t.takeWhile isKeyChar).isEmpty then .error (.expected "a key")
    else .ok (String.ofList (t.takeWhile isKeyChar), t.dropWhile isKeyChar)

/-- Reads keys with dots between them, at most `bound` of them. -/
def readKeys (bound : Nat) (t : Text) : Read (List String) :=
  match bound with
  | 0 => .error .tooDeep
  | bound + 1 =>
    match readKey (skipBlanks t) with
    | .error e => .error e
    | .ok (k, t) =>
      match skipBlanks t with
      | '.' :: t => (readKeys bound t).map fun r => (k :: r.1, r.2)
      | t => .ok ([k], t)

/-- A dotted key: the path that leads to a table, and the last part. -/
structure Key where
  path : List String
  last : String
  deriving DecidableEq, Repr

/-- Reads a dotted key and the blanks around its parts. -/
def readDotted (t : Text) : Read Key :=
  match readKeys (levelLimit - 1) t with
  | .error e => .error e
  | .ok (ks, t) =>
    match ks.getLast? with
    | some k => .ok (⟨ks.dropLast, k⟩, t)
    | none => .error (.expected "a key")

/-! ### Values -/

/-- Characters of a value without quotes. -/
def isWordChar (c : Char) : Bool := isKeyChar c || c == '+' || c == '.' || c == ':'

/-- The value of a word without quotes. -/
def Value.ofWord? (w : Text) : Option Value :=
  if w = "true".toList then some (.boolean true)
  else if w = "false".toList then some (.boolean false)
  else if isMoment w then some (.dateTime (String.ofList w))
  else if isFloat w then some (.float (String.ofList w))
  else ((intOfText? w).filter fitsWord).map .integer

/-- Reads a value without quotes. A date may go on with a time behind one space. -/
def readWord (t : Text) : Read Value :=
  let w := t.takeWhile isWordChar
  let rest := t.dropWhile isWordChar
  match Value.ofWord? w, rest with
  | none, _ => .error (.expected "a value")
  | some v, ' ' :: more =>
    let clock := more.takeWhile isWordChar
    if isDate w && isClock clock then
      .ok (.dateTime (String.ofList (w ++ ' ' :: clock)), more.dropWhile isWordChar)
    else .ok (v, rest)
  | some v, rest => .ok (v, rest)

/-- Reads the elements of an array and its closing bracket, with the given reader of one element. -/
def readItems (readOne : Text → Read Value) (bound : Nat) (t : Text) : Read (List Value) :=
  match bound with
  | 0 => .error (.expected "a closing bracket")
  | bound + 1 =>
    match skipLines false t with
    | ']' :: t => .ok ([], t)
    | t =>
      match readOne t with
      | .error e => .error e
      | .ok (v, t) =>
        match skipLines false t with
        | ',' :: t => (readItems readOne bound t).map fun r => (v :: r.1, r.2)
        | ']' :: t => .ok ([v], t)
        | _ => .error (.expected "a comma or a closing bracket")

/-- Reads a key and its value, with the given reader of a value. -/
def readMember (readOne : Text → Read Value) (t : Text) : Read (Key × Value) :=
  match readDotted t with
  | .error e => .error e
  | .ok (key, '=' :: t) =>
    match readOne (skipBlanks t) with
    | .error e => .error e
    | .ok (v, t) => .ok ((key, v), t)
  | .ok _ => .error (.expected "an equals sign")

/-- Reads the members of a table on one line and its closing brace, into those that are there. -/
def readMembers (readOne : Text → Read Value) (bound : Nat) (ms : Members) (t : Text) :
    Read Members :=
  match bound with
  | 0 => .error (.expected "a closing brace")
  | bound + 1 =>
    match readMember readOne t with
    | .error e => .error e
    | .ok ((key, v), t) =>
      match ms.define key.path key.last v with
      | .error e => .error e
      | .ok ms =>
        match skipBlanks t with
        | ',' :: t => readMembers readOne bound ms t
        | '\x7d' :: t => .ok (ms, t)
        | _ => .error (.expected "a comma or a closing brace")

/-- Reads a table on one line behind its opening brace. -/
def readInline (readOne : Text → Read Value) (t : Text) : Read Value :=
  match skipBlanks t with
  | '\x7d' :: t => .ok (.table [], t)
  | t =>
    (readMembers readOne (t.length + 1) [] t).map fun r => (.table (membersToValues r.1), r.2)

/-- Reads a value with at most so many arrays and tables inside each other. -/
def readValue (levels : Nat) (t : Text) : Read Value :=
  match readString? t with
  | some r => r.map fun r => (.string r.1, r.2)
  | none =>
    match levels, t with
    | 0, '[' :: _ => .error .tooDeep
    | 0, '\x7b' :: _ => .error .tooDeep
    | levels + 1, '[' :: t =>
      (readItems (readValue levels) (t.length + 1) t).map fun r => (.array r.1, r.2)
    | levels + 1, '\x7b' :: t => readInline (readValue levels) t
    | _, t => readWord t

/-! ### Lines -/

/-- Reads the closing brackets of a header and the end of its line. -/
def readHeaderEnd (brackets : Nat) (t : Text) : Except Error Text :=
  if t.take brackets = List.replicate brackets ']' then readLineEnd (t.drop brackets)
  else .error (.expected "a closing bracket")

/-- Reads a header with so many brackets behind the opening ones. -/
def readHeader (brackets : Nat) (t : Text) : Read Key :=
  match readDotted t with
  | .error e => .error e
  | .ok (key, t) => (readHeaderEnd brackets t).map fun t => (key, t)

/-- Reads a key with its value and the end of the line. -/
def readBinding (t : Text) : Read (Key × Value) :=
  match readMember (readValue (levelLimit - 1)) t with
  | .error e => .error e
  | .ok (b, t) => (readLineEnd t).map fun t => (b, t)

/-- Reads the lines of a document, at most `bound` of them, below the header that leads to
`here`. -/
def readLines (bound : Nat) (ms : Members) (here : List String) (t : Text) :
    Except Error Members :=
  match bound with
  | 0 => .ok ms
  | bound + 1 =>
    match skipLines false t with
    | [] => .ok ms
    | '[' :: '[' :: t => do
      let (key, t) ← readHeader 2 t
      readLines bound (← ms.addElement key.path key.last) (key.path ++ [key.last]) t
    | '[' :: t => do
      let (key, t) ← readHeader 1 t
      readLines bound (← ms.addTable key.path key.last) (key.path ++ [key.last]) t
    | t => do
      let ((key, v), t) ← readBinding t
      readLines bound (← ms.changeAt here (Members.define key.path key.last v)) here t

/-- The text without a byte order mark at its front. -/
def dropMark : Text → Text
  | [] => []
  | c :: t => if c.toNat = 0xfeff then t else c :: t

/-- Reads a document: the members of its table. -/
def read (t : Text) : Except Error (List (String × Value)) :=
  let t := unixLines (dropMark t)
  if t.any isControl then .error .controlCharacter
  else (readLines (t.length + 1) [] [] t).map membersToValues

end DesignAtlas.Toml
