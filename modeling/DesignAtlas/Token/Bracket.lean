import DesignAtlas.Token.Basic

/-! # Brackets in token lists

Finding the parenthesis that closes an open one, and reading the bracketed ranges at the front of a
token list. Depths only go down from a positive depth. -/

namespace DesignAtlas.Token

/-- A token list cut at a closing parenthesis. -/
structure Enclosed where
  /-- The tokens before the closing parenthesis. -/
  inner : List Token
  close : Token
  /-- The tokens behind it. -/
  rest : List Token
  deriving DecidableEq, Repr

/-- Puts one more token in front of the enclosed ones. -/
def Enclosed.cons (t : Token) (e : Enclosed) : Enclosed := { e with inner := t :: e.inner }

/-- Cuts a token list at the parenthesis that closes `depth + 1` open ones. -/
def closeParen? (depth : Nat) : List Token → Option Enclosed
  | [] => none
  | t :: ts =>
    if t.isSymbol .closeParen then
      match depth with
      | 0 => some ⟨[], t, ts⟩
      | d + 1 => (closeParen? d ts).map (.cons t)
    else if t.isSymbol .openParen then (closeParen? (depth + 1) ts).map (.cons t)
    else (closeParen? depth ts).map (.cons t)

/-- Cutting at a closing parenthesis loses nothing. -/
theorem closeParen?_append {depth : Nat} {ts : List Token} {e : Enclosed}
    (h : closeParen? depth ts = some e) : e.inner ++ e.close :: e.rest = ts := by
  induction ts generalizing depth e with
  | nil => simp [closeParen?] at h
  | cons t ts ih =>
    have aux : ∀ {d : Nat}, (closeParen? d ts).map (.cons t) = some e →
        e.inner ++ e.close :: e.rest = t :: ts := by
      intro d hd
      obtain ⟨e', he', rfl⟩ := Option.map_eq_some_iff.mp hd
      simp only [Enclosed.cons, List.cons_append, ih he']
    unfold closeParen? at h
    split at h
    · split at h
      · obtain rfl := Option.some.inj h
        rfl
      · exact aux h
    · split at h <;> exact aux h

theorem length_rest_closeParen? {depth : Nat} {ts : List Token} {e : Enclosed}
    (h : closeParen? depth ts = some e) : e.rest.length < ts.length := by
  have := congrArg List.length (closeParen?_append h)
  simp only [List.length_append, List.length_cons] at this
  omega

/-- Cuts off the bracketed ranges at the front of a token list, of which `depth` brackets are
already open; only square brackets count. It is `none` when a range is not closed. -/
def takeRanges? (depth : Nat) : List Token → Option (List Token × List Token)
  | [] => if depth = 0 then some ([], []) else none
  | t :: ts =>
    if t.isSymbol .openBracket then
      (takeRanges? (depth + 1) ts).map fun r => (t :: r.1, r.2)
    else
      match depth with
      | 0 => some ([], t :: ts)
      | d + 1 =>
        (takeRanges? (if t.isSymbol .closeBracket then d else d + 1) ts).map
          fun r => (t :: r.1, r.2)

/-- Cutting off ranges loses nothing. -/
theorem takeRanges?_append {depth : Nat} {ts ranges rest : List Token}
    (h : takeRanges? depth ts = some (ranges, rest)) : ranges ++ rest = ts := by
  induction ts generalizing depth ranges with
  | nil =>
    unfold takeRanges? at h
    split at h
    · cases h; rfl
    · cases h
  | cons t ts ih =>
    have aux : ∀ {d : Nat}, (takeRanges? d ts).map (fun r => (t :: r.1, r.2)) =
        some (ranges, rest) → ranges ++ rest = t :: ts := by
      intro d hd
      obtain ⟨⟨a, b⟩, hab, heq⟩ := Option.map_eq_some_iff.mp hd
      cases heq
      simp only [List.cons_append, ih hab]
    unfold takeRanges? at h
    split at h
    · exact aux h
    · split at h
      · cases h; rfl
      · exact aux h

/-- The text of some ranges, without blanks; `none` when there is no range. -/
def rangeText (text : Text) (ranges : List Token) : Option String :=
  if ranges.isEmpty then none else some (String.ofList (Text.squeeze (sourceOf text ranges)))

end DesignAtlas.Token
