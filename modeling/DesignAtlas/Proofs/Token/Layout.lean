import DesignAtlas.Token.Scan
import Mathlib.Data.List.TakeWhile
import Mathlib.Tactic.Common

/-! # The layout of a text

A text is laid out as glyphs, which are tokens with the blanks before each, and blanks behind the
last of them. A glyph knows its characters but not its place, so it says what scanning finds
wherever the text stands: `place p gs` are the tokens of the glyphs `gs` written from the position
`p` on.

* `scanFrom_spell`: glyphs that read as they are written (`ReadAll`) are found by scanning, whatever
  follows them.
* `exists_layout`: every text is laid out in this way. -/

namespace DesignAtlas

/-- A token as it stands in a text: the blanks before it, what it is and its characters. -/
structure Glyph where
  gap : Text
  payload : Payload
  text : Text
  deriving DecidableEq, Repr

namespace Glyph

/-- The glyph as it is written. -/
def spelling (g : Glyph) : Text := g.gap ++ g.text

/-- Glyphs as they are written. -/
def spell (gs : List Glyph) : Text := gs.flatMap spelling

/-- The token of a glyph that is written at `p`. -/
def token (p : Position) (g : Glyph) : Token :=
  ⟨g.payload, ⟨p.advance g.gap, p.advance g.spelling⟩⟩

@[simp] theorem start_token (p : Position) (g : Glyph) :
    (g.token p).span.start = p.advance g.gap := rfl

@[simp] theorem limit_token (p : Position) (g : Glyph) :
    (g.token p).span.limit = p.advance g.spelling := rfl

/-- The tokens of glyphs that are written from `p` on. -/
def place (p : Position) : List Glyph → List Token
  | [] => []
  | g :: gs => g.token p :: place (p.advance g.spelling) gs

/-- The glyph is read as it is written when `rest` follows it. -/
structure Reads (g : Glyph) (rest : Text) : Prop where
  blank : ∀ c ∈ g.gap, isBlank c = true
  lexeme : ∃ c cs, g.text = c :: cs ∧ isBlank c = false ∧
    Lexeme.recognise c (cs ++ rest) = ⟨g.payload, g.text, rest⟩

/-- The glyphs are read as they are written when `rest` follows them. -/
def ReadAll : List Glyph → Text → Prop
  | [], _ => True
  | g :: gs, rest => g.Reads (spell gs ++ rest) ∧ ReadAll gs rest

@[simp] theorem spell_nil : spell [] = [] := rfl

@[simp] theorem spell_cons (g : Glyph) (gs : List Glyph) :
    spell (g :: gs) = g.spelling ++ spell gs := by simp [spell]

@[simp] theorem spell_append (gs hs : List Glyph) : spell (gs ++ hs) = spell gs ++ spell hs := by
  simp [spell]

@[simp] theorem place_nil (p : Position) : place p [] = [] := rfl

@[simp] theorem place_cons (p : Position) (g : Glyph) (gs : List Glyph) :
    place p (g :: gs) = g.token p :: place (p.advance g.spelling) gs := rfl

theorem place_append : ∀ (p : Position) (gs hs : List Glyph),
    place p (gs ++ hs) = place p gs ++ place (p.advance (spell gs)) hs
  | p, [], hs => by simp
  | p, g :: gs, hs => by
    rw [List.cons_append, place_cons, place_cons, place_append _ gs hs, spell_cons,
      Position.advance_append, List.cons_append]

theorem readAll_append : ∀ {gs hs : List Glyph} {rest : Text},
    ReadAll (gs ++ hs) rest ↔ ReadAll gs (spell hs ++ rest) ∧ ReadAll hs rest
  | [], hs, rest => by simp [ReadAll]
  | g :: gs, hs, rest => by
    rw [List.cons_append, ReadAll, ReadAll, readAll_append, spell_append,
      List.append_assoc, and_assoc]

theorem mem_place {t : Token} : ∀ {p : Position} {gs : List Glyph},
    t ∈ place p gs → ∃ g ∈ gs, t.payload = g.payload
  | p, g :: gs, h => by
    rw [place_cons] at h
    rcases List.mem_cons.mp h with rfl | h
    · exact ⟨g, by simp, rfl⟩
    · obtain ⟨g', hg', he⟩ := mem_place h
      exact ⟨g', by simp [hg'], he⟩

theorem exists_reads_of_mem {gs : List Glyph} {g : Glyph} {rest : Text} (h : ReadAll gs rest)
    (hg : g ∈ gs) : ∃ u, g.Reads u := by
  obtain ⟨xs, ys, rfl⟩ := List.append_of_mem hg
  exact ⟨_, (readAll_append.mp h).2.1⟩

/-! ### Scanning what is written -/

theorem next?_blanks {p : Position} {b rest : Text} (hb : ∀ c ∈ b, isBlank c = true) :
    Token.next? p (b ++ rest) = Token.next? (p.advance b) rest := by
  unfold Token.next?
  rw [List.dropWhile_append_of_pos hb, List.takeWhile_append_of_pos hb]
  simp only [Position.advance_append]

theorem scanFrom_congr {p q : Position} {t u : Text} (h : Token.next? p t = Token.next? q u) :
    Token.scanFrom p t = Token.scanFrom q u := by
  rcases hn : Token.next? q u with _ | ⟨tok, rest⟩
  · rw [Token.scanFrom_of_next?_none hn, Token.scanFrom_of_next?_none (h.trans hn)]
  · rw [Token.scanFrom_of_next?_some hn, Token.scanFrom_of_next?_some (h.trans hn)]

/-- Blanks move the tokens behind them. -/
theorem scanFrom_blanks {p : Position} {b rest : Text} (hb : ∀ c ∈ b, isBlank c = true) :
    Token.scanFrom p (b ++ rest) = Token.scanFrom (p.advance b) rest :=
  scanFrom_congr (next?_blanks hb)

theorem next?_blank {p : Position} {b : Text} (hb : ∀ c ∈ b, isBlank c = true) :
    Token.next? p b = none := by
  unfold Token.next?
  rw [List.dropWhile_eq_nil_iff.mpr hb]

theorem scanFrom_blank {p : Position} {b : Text} (hb : ∀ c ∈ b, isBlank c = true) :
    Token.scanFrom p b = [] := Token.scanFrom_of_next?_none (next?_blank hb)

theorem next?_of_reads {g : Glyph} {rest : Text} (h : g.Reads rest) (p : Position) :
    Token.next? p (g.spelling ++ rest) = some (g.token p, rest) := by
  obtain ⟨c, cs, ht, hc, hr⟩ := h.lexeme
  have hne : ¬ isBlank c = true := by rw [hc]; simp
  unfold spelling
  rw [List.append_assoc, next?_blanks h.blank, ht, List.cons_append]
  unfold Token.next?
  rw [List.dropWhile_cons_of_neg hne, List.takeWhile_cons_of_neg hne]
  simp only [hr, Position.advance_nil, token, spelling, Position.advance_append]

/-- **Scanning finds glyphs that read as they are written.** -/
theorem scanFrom_spell : ∀ {gs : List Glyph} {rest : Text}, ReadAll gs rest → ∀ p : Position,
    Token.scanFrom p (spell gs ++ rest) =
      place p gs ++ Token.scanFrom (p.advance (spell gs)) rest
  | [], rest, _, p => by simp
  | g :: gs, rest, h, p => by
    have hn := next?_of_reads h.1 p
    rw [spell_cons, List.append_assoc, Token.scanFrom_of_next?_some hn]
    have ih := scanFrom_spell h.2 (p.advance g.spelling)
    simp only [token, ih, place_cons, Position.advance_append, List.cons_append]

theorem scanFrom_spell_blank {gs : List Glyph} {tail : Text} (h : ReadAll gs tail)
    (hb : ∀ c ∈ tail, isBlank c = true) (p : Position) :
    Token.scanFrom p (spell gs ++ tail) = place p gs := by
  rw [scanFrom_spell h, scanFrom_blank hb, List.append_nil]

/-! ### Every text is laid out -/

/-- The first glyph of a text that is not blank. -/
theorem exists_glyph {t : Text} (h : ¬ ∀ c ∈ t, isBlank c = true) :
    ∃ (g : Glyph) (rest : Text), t = g.spelling ++ rest ∧ g.Reads rest := by
  rcases hd : t.dropWhile isBlank with _ | ⟨c, cs⟩
  · exact absurd (List.dropWhile_eq_nil_iff.mp hd) h
  have hc : isBlank c = false := by
    have := List.head_dropWhile_not isBlank (l := t) (by rw [hd]; simp)
    simpa only [hd, List.head_cons] using this
  have hl := Lexeme.text_append_rest_recognise c cs
  rcases ht : (Lexeme.recognise c cs).text with _ | ⟨c', cs'⟩
  · exact absurd ht (Lexeme.text_recognise_ne_nil c cs)
  rw [ht, List.cons_append, List.cons.injEq] at hl
  obtain ⟨rfl, hcs⟩ := hl
  refine ⟨⟨t.takeWhile isBlank, (Lexeme.recognise c' cs).payload, c' :: cs'⟩,
    (Lexeme.recognise c' cs).rest, ?_, fun _ hx => List.mem_takeWhile_imp hx,
    c', cs', rfl, hc, ?_⟩
  · conv_lhs => rw [← List.takeWhile_append_dropWhile (p := isBlank) (l := t), hd, ← hcs]
    simp [spelling]
  · rw [hcs, ← ht]

/-- **Every text is made of glyphs and blanks behind them.** -/
theorem exists_layout (t : Text) :
    ∃ (gs : List Glyph) (tail : Text), t = spell gs ++ tail ∧ (∀ c ∈ tail, isBlank c = true) ∧
      ReadAll gs tail := by
  -- by the length of the text: what follows the first glyph is shorter
  induction hn : t.length using Nat.strong_induction_on generalizing t with
  | _ n ih =>
    by_cases hb : ∀ c ∈ t, isBlank c = true
    · exact ⟨[], t, rfl, hb, trivial⟩
    obtain ⟨g, rest, rfl, hg⟩ := exists_glyph hb
    obtain ⟨c, cs, ht, -, -⟩ := hg.lexeme
    have hlt : rest.length < n := by
      rw [← hn]; simp only [spelling, ht, List.length_append, List.length_cons]; omega
    obtain ⟨gs, tail, rfl, htail, hgs⟩ := ih rest.length hlt rest rfl
    exact ⟨g :: gs, tail, by simp, htail, hg, hgs⟩

end Glyph

end DesignAtlas
