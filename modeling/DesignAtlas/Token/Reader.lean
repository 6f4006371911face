import DesignAtlas.Token.Scan

/-! # Reading tokens one at a time

A reader stands in a text and hands out its characters and tokens. It may look at one token before
taking it; its position is then already behind that token. -/

namespace DesignAtlas

/-- A place in a text, with the token looked at but not yet taken. -/
structure Reader where
  position : Position
  /-- The text that has not been read. -/
  rest : Text
  lookahead : Option Token
  deriving DecidableEq, Repr

namespace Reader

/-- A reader at the beginning of a text. -/
def ofText (t : Text) : Reader := ⟨Position.start, t, none⟩

/-! ### Characters -/

/-- The next character. -/
def peekChar? (r : Reader) : Option Char := r.rest.head?

/-- Takes the next character. -/
def popChar (r : Reader) : Option Char × Reader :=
  match r.rest with
  | [] => (none, r)
  | c :: t => (some c, { r with position := r.position.step c, rest := t })

/-! ### Tokens -/

/-- Scans the next token of the text, whatever has been looked at. The blanks before it are read
even when no token follows. -/
def next (r : Reader) : Option Token × Reader :=
  match Token.next? r.position r.rest with
  | none => (none, { r with position := r.position.advance r.rest, rest := [] })
  | some (tok, rest) => (some tok, { r with position := tok.span.limit, rest := rest })

/-- Looks at the next token. -/
def peek (r : Reader) : Option Token × Reader :=
  match r.lookahead with
  | some tok => (some tok, r)
  | none => (r.next.1, { r.next.2 with lookahead := r.next.1 })

/-- Takes the next token. -/
def pop (r : Reader) : Option Token × Reader :=
  match r.lookahead with
  | some tok => (some tok, { r with lookahead := none })
  | none => r.next

/-- Takes the next token if its payload is `want`; otherwise only looks at it. -/
def tryPop (want : Payload) (r : Reader) : Option Token × Reader :=
  match r.peek.1 with
  | some tok => if tok.payload = want then r.peek.2.pop else (none, r.peek.2)
  | none => (none, r.peek.2)

/-- A bound on the tokens still to be handed out. -/
def remaining (r : Reader) : Nat := r.rest.length + if r.lookahead.isSome then 1 else 0

theorem remaining_pop_lt {r s : Reader} {tok : Token} (h : r.pop = (some tok, s)) :
    s.remaining < r.remaining := by
  unfold pop at h
  split at h
  · rename_i t hl
    simp only [Prod.mk.injEq] at h
    obtain ⟨-, rfl⟩ := h
    simp [remaining, hl]
  · rename_i hl
    unfold next at h
    split at h
    · simp at h
    · rename_i t rest hn
      simp only [Prod.mk.injEq] at h
      obtain ⟨-, rfl⟩ := h
      simpa [remaining, hl] using Token.length_next?_lt hn

/-- Takes all the tokens that are left. -/
def collect (r : Reader) : List Token :=
  match _h : r.pop with
  | (none, _) => []
  | (some tok, s) => tok :: s.collect
  termination_by r.remaining
  decreasing_by exact remaining_pop_lt ‹_›

/-- Takes tokens up to the parenthesis that closes `depth + 1` open ones, and returns it. When there
is none, all tokens are taken. -/
def popClosing (depth : Nat) (r : Reader) : Option Token × Reader :=
  match _h : r.pop with
  | (none, s) => (none, s)
  | (some tok, s) =>
    if tok.isSymbol .closeParen then
      match depth with
      | 0 => (some tok, s)
      | d + 1 => popClosing d s
    else if tok.isSymbol .openParen then popClosing (depth + 1) s
    else popClosing depth s
  termination_by r.remaining
  decreasing_by all_goals exact remaining_pop_lt ‹_›

/-- Takes tokens up to the parenthesis that closes `opening`, and returns the span between the two
and the span of the closing one. -/
def popBalanced (opening : Token) (r : Reader) : Option (Span × Span) × Reader :=
  match r.popClosing 0 with
  | (some tok, s) => (some (⟨opening.span.limit, tok.span.start⟩, tok.span), s)
  | (none, s) => (none, s)

end Reader

end DesignAtlas
