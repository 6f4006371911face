import DesignAtlas.Token.Lexeme

/-! # The tokens of a text

Blanks separate tokens and belong to none, except for the blank that ends an escaped identifier.
Scanning a text gives all its tokens in order, each with its span. -/

namespace DesignAtlas.Token

/-- The first token of a text that stands at position `p`, and the text behind the token; `none`
when only blanks are left. -/
def next? (p : Position) (t : Text) : Option (Token × Text) :=
  match t.dropWhile isBlank with
  | [] => none
  | c :: cs =>
    let l := Lexeme.recognise c cs
    let start := p.advance (t.takeWhile isBlank)
    some (⟨l.payload, ⟨start, start.advance l.text⟩⟩, l.rest)

theorem length_next?_lt {p : Position} {t rest : Text} {tok : Token}
    (h : next? p t = some (tok, rest)) : rest.length < t.length := by
  unfold next? at h
  split at h
  · cases h
  · rename_i c cs hd
    simp only [Option.some.injEq, Prod.mk.injEq] at h
    obtain ⟨-, rfl⟩ := h
    have h1 := Lexeme.length_rest_recognise c cs
    have h2 : (c :: cs).length ≤ t.length := hd ▸ (List.dropWhile_sublist _).length_le
    simp only [List.length_cons] at h2
    omega

/-- The tokens of a text that stands at position `p`. -/
def scanFrom (p : Position) (t : Text) : List Token :=
  match _h : next? p t with
  | none => []
  | some (tok, rest) => tok :: scanFrom tok.span.limit rest
  termination_by t.length
  decreasing_by exact length_next?_lt ‹_›

theorem scanFrom_of_next?_none {p : Position} {t : Text} (h : next? p t = none) :
    scanFrom p t = [] := by
  rw [scanFrom]
  split <;> simp_all

theorem scanFrom_of_next?_some {p : Position} {t rest : Text} {tok : Token}
    (h : next? p t = some (tok, rest)) : scanFrom p t = tok :: scanFrom tok.span.limit rest := by
  rw [scanFrom]
  split <;> simp_all

/-- The tokens of a text. -/
def scan (t : Text) : List Token := scanFrom Position.start t

end DesignAtlas.Token
