import DesignAtlas.Proofs.Checked.Access
import DesignAtlas.Token.Scan
import Mathlib.Tactic.Common

/-! # Scanning through checked accesses

The scanner holds a place of the text and looks at the character there by slicing the text from the
place's offset on. It is faultless because every place that it reaches is reached over characters:
what has not been read stands there (`Ahead`), and passing a beginning of it keeps this so
(`Ahead.advance`). Each pop of a token that begins with its first character is the recogniser of the
same name, and all the tokens of a text are found without a fault (`scan_eq`). -/

namespace DesignAtlas.Checked

/-- The place `p` of the text is in front of `rest`, which runs to the end of the text. -/
def Ahead (text : Text) (p : Position) (rest : Text) : Prop :=
  ∃ read, text = read ++ rest ∧ p.offset = read.byteLength

theorem ahead_start (text : Text) : Ahead text .start text := ⟨[], rfl, rfl⟩

theorem Ahead.advance {text rest : Text} {p : Position} {t : Text}
    (h : Ahead text p (t ++ rest)) : Ahead text (p.advance t) rest := by
  obtain ⟨read, rfl, hp⟩ := h
  exact ⟨read ++ t, by simp, by simp [hp]⟩

theorem Ahead.step {text rest : Text} {p : Position} {c : Char} (h : Ahead text p (c :: rest)) :
    Ahead text (p.step c) rest := Ahead.advance (t := [c]) h

theorem Ahead.offset_add {text rest : Text} {p : Position} (h : Ahead text p rest) :
    p.offset + rest.byteLength = text.byteLength := by
  obtain ⟨read, rfl, hp⟩ := h
  rw [hp, Text.byteLength_append]

/-! ### Characters -/

/-- The character at a place. -/
def peekChar (text : Text) (p : Position) : Except Fault (Option Char) := do
  return (← sliceFrom text p.offset).head?

/-- The character behind the one at a place. -/
def peekSecond (text : Text) (p : Position) : Except Fault (Option Char) := do
  return (← sliceFrom text p.offset)[1]?

theorem Ahead.sliceFrom_eq {text rest : Text} {p : Position} (h : Ahead text p rest) :
    sliceFrom text p.offset = .ok rest := by
  obtain ⟨read, rfl, hp⟩ := h
  rw [hp, sliceFrom_append]

theorem peekChar_eq {text rest : Text} {p : Position} (h : Ahead text p rest) :
    peekChar text p = .ok rest.head? := by
  unfold peekChar
  rw [h.sliceFrom_eq]
  rfl

theorem peekSecond_eq {text rest : Text} {p : Position} (h : Ahead text p rest) :
    peekSecond text p = .ok rest[1]? := by
  unfold peekSecond
  rw [h.sliceFrom_eq]
  rfl

/-- A place where the text may be looked at is a place that reading may reach. -/
theorem exists_ahead {text : Text} {p : Position} {o : Option Char} (h : peekChar text p = .ok o) :
    ∃ rest, Ahead text p rest ∧ rest.head? = o := by
  obtain ⟨rest, hs, ho⟩ := exists_of_bind_eq_ok h
  exact ⟨rest, exists_append_of_sliceFrom hs, Except.ok.inj ho⟩

theorem offset_lt_of_peekChar {text : Text} {p : Position} {c : Char}
    (h : peekChar text p = .ok (some c)) : p.offset < text.byteLength := by
  obtain ⟨rest, ha, hc⟩ := exists_ahead h
  have hne : rest ≠ [] := by
    rintro rfl
    cases hc
  have := Text.byteLength_pos hne
  have := ha.offset_add
  omega

/-- The characters from a place on that satisfy `accept`, and the place behind them. -/
def popWhile (accept : Char → Bool) (text : Text) (p : Position) :
    Except Fault (Text × Position) :=
  match _h : peekChar text p with
  | .error e => .error e
  | .ok none => .ok ([], p)
  | .ok (some c) =>
    if accept c then do
      let (t, limit) ← popWhile accept text (p.step c)
      return (c :: t, limit)
    else .ok ([], p)
  termination_by text.byteLength - p.offset
  decreasing_by
    have := offset_lt_of_peekChar ‹_›
    have := c.utf8Size_pos
    rw [Position.offset_step]
    omega

theorem popWhile_eq (accept : Char → Bool) {text : Text} : ∀ {rest : Text} {p : Position},
    Ahead text p rest → popWhile accept text p =
      .ok (rest.takeWhile accept, p.advance (rest.takeWhile accept))
  | [], p, h => by
    have hp := peekChar_eq h
    rw [popWhile]
    split <;> simp_all
  | c :: rest, p, h => by
    have hp : peekChar text p = .ok (some c) := peekChar_eq h
    have ih := popWhile_eq accept h.step
    rw [popWhile]
    split <;> rename_i h' <;> rw [hp] at h' <;> cases h'
    split
    · rename_i hc
      rw [ih, List.takeWhile_cons_of_pos hc]
      rfl
    · rename_i hc
      rw [List.takeWhile_cons_of_neg hc]
      rfl

/-- The content of a string literal from behind its opening quote, and the place behind its closing
quote or at the end of the text. -/
def popString (text : Text) (p : Position) : Except Fault (Text × Position) :=
  match _h : peekChar text p with
  | .error e => .error e
  | .ok none => .ok ([], p)
  | .ok (some c) =>
    if c = '\x22' then .ok ([], p.step c)
    else if c = '\x5c' then
      match _h' : peekChar text (p.step c) with
      | .error e => .error e
      | .ok none => .ok ([c], p.step c)
      | .ok (some d) => do
        let (t, limit) ← popString text ((p.step c).step d)
        return (c :: d :: t, limit)
    else do
      let (t, limit) ← popString text (p.step c)
      return (c :: t, limit)
  termination_by text.byteLength - p.offset
  decreasing_by
    all_goals
      have := offset_lt_of_peekChar ‹peekChar text p = _›
      have := c.utf8Size_pos
      simp only [Position.offset_step]
      omega

section PopString

variable {text rest : Text} {p : Position} {c d : Char}

theorem popString_nil (h : Ahead text p []) : popString text p = .ok ([], p) := by
  have hp := peekChar_eq h
  rw [popString]
  split <;> simp_all

theorem popString_quote (h : Ahead text p ('\x22' :: rest)) :
    popString text p = .ok ([], p.step '\x22') := by
  have hp := peekChar_eq h
  rw [popString]
  split <;> simp_all

theorem popString_escape (h : Ahead text p ('\x5c' :: d :: rest)) :
    popString text p = (do
      let (t, limit) ← popString text ((p.step '\x5c').step d)
      return ('\x5c' :: d :: t, limit)) := by
  have hp := peekChar_eq h
  have hs := peekChar_eq h.step
  rw [popString]
  split <;> rename_i h' <;> rw [hp] at h' <;> cases h'
  rw [if_neg (by decide), if_pos rfl]
  split <;> rename_i h' <;> rw [hs] at h' <;> cases h'
  rfl

theorem popString_escape_nil (h : Ahead text p ['\x5c']) :
    popString text p = .ok (['\x5c'], p.step '\x5c') := by
  have hp := peekChar_eq h
  have hs := peekChar_eq h.step
  rw [popString]
  split <;> rename_i h' <;> rw [hp] at h' <;> cases h'
  rw [if_neg (by decide), if_pos rfl]
  split <;> rename_i h' <;> rw [hs] at h' <;> cases h'

theorem popString_cons (h : Ahead text p (c :: rest)) (hq : c ≠ '\x22') (he : c ≠ '\x5c') :
    popString text p = (do
      let (t, limit) ← popString text (p.step c)
      return (c :: t, limit)) := by
  have hp := peekChar_eq h
  rw [popString]
  split <;> rename_i h' <;> rw [hp] at h' <;> cases h'
  rw [if_neg hq, if_neg he]

end PopString

theorem popString_eq {text : Text} : ∀ {rest : Text} {p : Position}, Ahead text p rest →
    popString text p = .ok ((Lexeme.splitString rest).1,
      p.advance ((Lexeme.splitString rest).1 ++ (Lexeme.splitString rest).2.take 1))
  | [], p, h => popString_nil h
  | [c], p, h => by
    unfold Lexeme.splitString
    by_cases hq : c = '\x22'
    · subst hq
      exact popString_quote h
    rw [if_neg hq]
    by_cases he : c = '\x5c'
    · subst he
      exact popString_escape_nil h
    · rw [popString_cons h hq he, popString_nil h.step]
      rfl
  | c :: d :: rest, p, h => by
    unfold Lexeme.splitString
    by_cases hq : c = '\x22'
    · subst hq
      exact popString_quote h
    rw [if_neg hq]
    by_cases he : c = '\x5c'
    · subst he
      rw [popString_escape h, popString_eq h.step.step]
      rfl
    · rw [popString_cons h hq he, popString_eq h.step, if_neg he]
      rfl

/-! ### Tokens -/

/-- A directive or macro use, from behind its backtick. -/
def directive (text : Text) (p : Position) : Except Fault (Payload × Position) := do
  let (name, after) ← popWhile isWordChar text p
  match Directive.extent? (String.ofList name) with
  | none => return (.macroUse (String.ofList name), after)
  | some .bare => return (.directive ⟨String.ofList name, ""⟩, after)
  | some .word =>
    let (_, behind) ← popWhile isInlineBlank text after
    let (argument, limit) ← popWhile isWordChar text behind
    return (.directive ⟨String.ofList name, String.ofList argument⟩, limit)
  | some .line =>
    let (line, limit) ← popWhile (· != '\n') text after
    return (.directive ⟨String.ofList name, String.ofList (Text.collapse line)⟩, limit)

/-- A word, from its first character on. -/
def word (text : Text) (p : Position) : Except Fault (Payload × Position) := do
  let (w, limit) ← popWhile isWordChar text p
  return (.ofWord (String.ofList w), limit)

/-- An escaped identifier, from behind its backslash; the blank that ends it is read too. -/
def escaped (text : Text) (p : Position) : Except Fault (Payload × Position) := do
  let (name, limit) ← popWhile (fun c => !isBlank c) text p
  match ← peekChar text limit with
  | some c => return (.ofWord (String.ofList name), limit.step c)
  | none => return (.ofWord (String.ofList name), limit)

/-- A number, from its first character on. -/
def number (text : Text) (p : Position) : Except Fault (Payload × Position) := do
  let (w, limit) ← popWhile isNumberChar text p
  return (.number (String.ofList w), limit)

/-- A string literal, from behind its opening quote. -/
def string (text : Text) (p : Position) : Except Fault (Payload × Position) := do
  let (content, limit) ← popString text p
  return (.string (String.ofList content), limit)

/-- Whether the character `c` at `p` begins a number. -/
def beginsNumber (text : Text) (p : Position) (c : Char) : Except Fault Bool :=
  if c.isDigit then return true
  else if c == '\x27' then return (← peekSecond text p).any isWordChar
  else return false

/-- The token that begins with the character `c` at `p`: what it is and the place behind it. -/
def recognise (text : Text) (p : Position) (c : Char) : Except Fault (Payload × Position) :=
  if c = '\x60' then directive text (p.step c)
  else if isWordStart c then word text p
  else if c = '\x5c' then escaped text (p.step c)
  else do
    if ← beginsNumber text p c then number text p
    else if c = '\x22' then string text (p.step c)
    else return (.ofChar c, p.step c)

/-- The first token from a place on. -/
def next (text : Text) (p : Position) : Except Fault (Option Token) := do
  let (_, start) ← popWhile isBlank text p
  match ← peekChar text start with
  | none => return none
  | some c =>
    let (payload, limit) ← recognise text start c
    return some ⟨payload, ⟨start, limit⟩⟩

section Recognise

variable {text rest : Text} {p : Position}

/-- The unread text, behind the characters of a class. -/
theorem Ahead.dropWhile (h : Ahead text p rest) (accept : Char → Bool) :
    Ahead text (p.advance (rest.takeWhile accept)) (rest.dropWhile accept) := by
  rw [← List.takeWhile_append_dropWhile (p := accept) (l := rest)] at h
  exact h.advance

theorem directive_eq (h : Ahead text p ('\x60' :: rest)) :
    directive text (p.step '\x60') =
      .ok ((Lexeme.directive rest).payload, p.advance (Lexeme.directive rest).text) := by
  have hname := h.step.dropWhile isWordChar
  have hgap := hname.dropWhile isInlineBlank
  unfold directive Lexeme.directive
  simp only [popWhile_eq isWordChar h.step, popWhile_eq isInlineBlank hname,
    popWhile_eq isWordChar hgap, popWhile_eq (· != '\n') hname, ok_bind]
  rcases Directive.extent? (String.ofList (rest.takeWhile isWordChar)) with _ | (_ | _ | _)
  all_goals simp [pure, Except.pure]

theorem word_eq {c : Char} (h : Ahead text p (c :: rest)) (hc : isWordStart c = true) :
    word text p = .ok ((Lexeme.word c rest).payload, p.advance (Lexeme.word c rest).text) := by
  have hw : isWordChar c = true := by
    simp only [isWordStart, Bool.or_eq_true] at hc
    simp only [isWordChar, Char.isAlphanum, Bool.or_eq_true]
    tauto
  unfold word Lexeme.word
  rw [popWhile_eq isWordChar h, List.takeWhile_cons_of_pos hw]
  rfl

theorem escaped_eq (h : Ahead text p ('\x5c' :: rest)) :
    escaped text (p.step '\x5c') =
      .ok ((Lexeme.escaped rest).payload, p.advance (Lexeme.escaped rest).text) := by
  have hname := h.step.dropWhile fun c => !isBlank c
  unfold escaped Lexeme.escaped
  simp only [popWhile_eq (fun c => !isBlank c) h.step, peekChar_eq hname, ok_bind]
  cases rest.dropWhile fun c => !isBlank c <;> simp [pure, Except.pure]

theorem number_eq {c : Char} (h : Ahead text p (c :: rest)) (hc : isNumberChar c = true) :
    number text p =
      .ok ((Lexeme.number c rest).payload, p.advance (Lexeme.number c rest).text) := by
  unfold number Lexeme.number
  rw [popWhile_eq isNumberChar h, List.takeWhile_cons_of_pos hc]
  rfl

theorem string_eq (h : Ahead text p ('\x22' :: rest)) :
    string text (p.step '\x22') =
      .ok ((Lexeme.string rest).payload, p.advance (Lexeme.string rest).text) := by
  unfold string Lexeme.string
  rw [popString_eq h.step]
  rfl

theorem beginsNumber_eq {c : Char} (h : Ahead text p (c :: rest)) :
    beginsNumber text p c = .ok (Lexeme.beginsNumber c rest) := by
  unfold beginsNumber Lexeme.beginsNumber
  rw [peekSecond_eq h]
  cases c.isDigit with
  | true => rfl
  | false =>
    cases c == '\x27' with
    | true => cases rest <;> rfl
    | false => rfl

theorem isNumberChar_of_beginsNumber {c : Char} (h : Lexeme.beginsNumber c rest = true) :
    isNumberChar c = true := by
  simp only [Lexeme.beginsNumber, Bool.or_eq_true, Bool.and_eq_true] at h
  simp only [isNumberChar, Char.isAlphanum, Bool.or_eq_true]
  tauto

theorem recognise_eq {c : Char} (h : Ahead text p (c :: rest)) :
    recognise text p c =
      .ok ((Lexeme.recognise c rest).payload, p.advance (Lexeme.recognise c rest).text) := by
  unfold recognise Lexeme.recognise
  by_cases hd : c = '\x60'
  · subst hd; exact directive_eq h
  rw [if_neg hd, if_neg hd]
  by_cases hw : isWordStart c = true
  · rw [if_pos hw, if_pos hw]; exact word_eq h hw
  rw [if_neg hw, if_neg hw]
  by_cases he : c = '\x5c'
  · subst he; exact escaped_eq h
  rw [if_neg he, if_neg he, beginsNumber_eq h, ok_bind]
  by_cases hn : Lexeme.beginsNumber c rest = true
  · rw [if_pos hn, if_pos hn]; exact number_eq h (isNumberChar_of_beginsNumber hn)
  rw [if_neg hn, if_neg hn]
  by_cases hs : c = '\x22'
  · subst hs; exact string_eq h
  · rw [if_neg hs, if_neg hs]; rfl

end Recognise

/-! ### All tokens -/

section Scan

variable {text rest : Text} {p : Position}

theorem next_eq (h : Ahead text p rest) :
    next text p = .ok ((Token.next? p rest).map Prod.fst) := by
  have hstart := h.dropWhile isBlank
  unfold next Token.next?
  simp only [popWhile_eq isBlank h, peekChar_eq hstart, ok_bind]
  cases hd : rest.dropWhile isBlank with
  | nil => rfl
  | cons c cs =>
    rw [hd] at hstart
    simp only [List.head?_cons, recognise_eq hstart, ok_bind]
    rfl

theorem Ahead.next {tok : Token} {behind : Text} (h : Ahead text p rest)
    (hn : Token.next? p rest = some (tok, behind)) : Ahead text tok.span.limit behind := by
  have hstart := h.dropWhile isBlank
  unfold Token.next? at hn
  split at hn
  · cases hn
  · rename_i c cs hcons
    rw [hcons, ← Lexeme.text_append_rest_recognise c cs] at hstart
    cases hn
    exact hstart.advance

/-- A place from which a token may be read is a place that reading may reach. -/
theorem exists_ahead_of_next {o : Option Token} (h : next text p = .ok o) :
    ∃ rest, Ahead text p rest := by
  obtain ⟨_, hw, -⟩ := exists_of_bind_eq_ok h
  cases hp : peekChar text p with
  | ok c =>
    obtain ⟨rest, ha, -⟩ := exists_ahead hp
    exact ⟨rest, ha⟩
  | error e =>
    rw [popWhile] at hw
    split at hw <;> simp_all

theorem offset_lt_of_next? {tok : Token} {behind : Text}
    (h : Token.next? p rest = some (tok, behind)) : p.offset < tok.span.limit.offset := by
  unfold Token.next? at h
  split at h
  · cases h
  · rename_i c cs _
    cases h
    have := Text.byteLength_pos (Lexeme.text_recognise_ne_nil c cs)
    simp only [Position.offset_advance]
    omega

theorem remaining_next_lt {tok : Token} (h : next text p = .ok (some tok)) :
    text.byteLength - tok.span.limit.offset < text.byteLength - p.offset := by
  obtain ⟨rest, ha⟩ := exists_ahead_of_next h
  rw [next_eq ha, Except.ok.injEq] at h
  obtain ⟨⟨tok, behind⟩, hn, rfl⟩ := Option.map_eq_some_iff.mp h
  have := (ha.next hn).offset_add
  have := offset_lt_of_next? hn
  simp only
  omega

/-- The tokens from a place on. -/
def scanFrom (text : Text) (p : Position) : Except Fault (List Token) :=
  match _h : next text p with
  | .error e => .error e
  | .ok none => .ok []
  | .ok (some tok) => do
    let ts ← scanFrom text tok.span.limit
    return tok :: ts
  termination_by text.byteLength - p.offset
  decreasing_by exact remaining_next_lt ‹_›

end Scan

theorem scanFrom_eq {text rest : Text} {p : Position} (h : Ahead text p rest) :
    scanFrom text p = .ok (Token.scanFrom p rest) := by
  have hc := next_eq h
  rw [scanFrom]
  rcases hn : Token.next? p rest with _ | ⟨tok, behind⟩ <;> rw [hn] at hc
  · rw [Token.scanFrom_of_next?_none hn]
    split <;> simp_all
  · rw [Token.scanFrom_of_next?_some hn]
    split <;> rename_i h' <;> rw [hc] at h' <;> cases h'
    rw [scanFrom_eq (h.next hn)]
    rfl
  termination_by rest.length
  decreasing_by exact Token.length_next?_lt hn

/-- The tokens of a text. -/
def scan (text : Text) : Except Fault (List Token) := scanFrom text .start

/-- **Scanning is faultless.** -/
theorem scan_eq (text : Text) : scan text = .ok (Token.scan text) := scanFrom_eq (ahead_start text)

end DesignAtlas.Checked
