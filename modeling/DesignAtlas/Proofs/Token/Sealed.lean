import DesignAtlas.Proofs.Checked.Bracket
import DesignAtlas.Proofs.Token.Slice

/-! # Sealed texts

A text is sealed when its tokens are the same whatever follows it (`Text.Sealed`): a text that ends
with a symbol is (`sealed_of_symbol`), and so is a word with a blank behind it. Sealed texts written
one after the other have the tokens of each, one after the other (`Sealed.append`), so what is
printed from sealed parts is read part by part. -/

namespace DesignAtlas

open Glyph (place spell ReadAll)

/-- The tokens of the text do not depend on what follows it. -/
def Text.Sealed (t : Text) : Prop :=
  ∀ (p : Position) (u : Text),
    Token.scanFrom p (t ++ u) = Token.scanFrom p t ++ Token.scanFrom (p.advance t) u

/-! ### Tokens at a place -/

namespace Token

/-- The tokens of a text written at `p` are its tokens moved there. -/
theorem scanFrom_eq_relocate (p : Position) (t : Text) :
    scanFrom p t = (scan t).map (relocate (Position.behind p)) := by
  obtain ⟨gs, tail, rfl, htail, hgs⟩ := Glyph.exists_layout t
  rw [scan, Glyph.scanFrom_spell_blank hgs htail, Glyph.scanFrom_spell_blank hgs htail,
    Glyph.place_eq_relocate]

/-- The source text of all tokens of a part is the part but for blanks around it. -/
theorem exists_blanks_sourceOf (a t u : Text) :
    ∃ b c : Text, (∀ x ∈ b, isBlank x = true) ∧ (∀ x ∈ c, isBlank x = true) ∧
      t = b ++ sourceOf (a ++ t ++ u) (scanFrom (Position.start.advance a) t) ++ c := by
  obtain ⟨gs, tail, rfl, htail, hgs⟩ := Glyph.exists_layout t
  rw [Glyph.scanFrom_spell_blank hgs htail]
  cases gs with
  | nil => exact ⟨tail, [], htail, blank_nil, by simp [sourceOf, spanOf?]⟩
  | cons g gs =>
    have htext : a ++ (spell (g :: gs) ++ tail) ++ u = a ++ spell (g :: gs) ++ (tail ++ u) := by
      simp
    refine ⟨g.gap, tail, hgs.1.blank, htail, ?_⟩
    rw [htext, Glyph.sourceOf_place, Glyph.spell_cons, Glyph.spelling]
    simp

theorem scan_eq_nil_iff {t : Text} : scan t = [] ↔ ∀ c ∈ t, isBlank c = true := by
  constructor
  · intro h
    obtain ⟨b, c, hb, hc, ht⟩ := exists_blanks_sourceOf [] t []
    rw [Position.advance_nil, ← scan, h] at ht
    intro x hx
    rw [ht] at hx
    rcases List.mem_append.mp hx with hx | hx
    · exact hb x (by simpa [sourceOf, spanOf?] using hx)
    · exact hc x hx
  · exact fun h => Glyph.scanFrom_blank h

/-- **The source text of all tokens of a part** is the part, up to blanks. -/
theorem squeeze_sourceOf_scanFrom (a t u : Text) :
    Text.squeeze (sourceOf (a ++ t ++ u) (scanFrom (Position.start.advance a) t)) =
      Text.squeeze t := by
  have hblank : ∀ {b : Text}, (∀ c ∈ b, isBlank c = true) → Text.squeeze b = [] := by
    intro b hb
    rw [Text.squeeze, List.filter_eq_nil_iff]
    intro c hc
    simp [hb c hc]
  obtain ⟨b, c, hb, hc, ht⟩ := exists_blanks_sourceOf a t u
  have hfront := hblank hb
  have hback := hblank hc
  conv_rhs => rw [ht]
  simp only [Text.squeeze, List.filter_append] at hfront hback ⊢
  rw [hfront, hback, List.nil_append, List.append_nil]

/-- **The words of all tokens of a part** are the words of the part. -/
theorem collapse_sourceOf_scanFrom (a t u : Text) :
    Text.collapse (sourceOf (a ++ t ++ u) (scanFrom (Position.start.advance a) t)) =
      Text.collapse t := by
  obtain ⟨b, c, hb, hc, ht⟩ := exists_blanks_sourceOf a t u
  conv_rhs => rw [ht]
  unfold Text.collapse
  rw [Text.words_append_blanks hc, Text.words_blanks_append hb]

/-- **The source text of a run is the same** wherever the text of its tokens stands. -/
theorem sourceOf_relocate (a : Text) {t : Text} {ts : List Token} (h : ts <:+: scan t) (u : Text) :
    sourceOf (a ++ t ++ u) (ts.map (relocate (Position.behind (Position.start.advance a)))) =
      sourceOf t ts := by
  obtain ⟨pre, gs, post, rfl, rfl, -⟩ := exists_layout_of_infix h
  rw [← Glyph.place_relocate _ (Position.counted_start.advance pre), ← Position.advance_eq_behind,
    ← Position.advance_append]
  cases gs with
  | nil => rfl
  | cons g gs =>
    have htext : a ++ (pre ++ spell (g :: gs) ++ post) ++ u =
        a ++ pre ++ spell (g :: gs) ++ (post ++ u) := by simp
    rw [htext, Glyph.sourceOf_place, Glyph.sourceOf_place]

/-! #### Payloads -/

theorem map_payload_scanFrom (p : Position) (t : Text) :
    (scanFrom p t).map payload = (scan t).map payload := by
  rw [scanFrom_eq_relocate, List.map_map]
  rfl

/-- Blanks in front of a text are of none of its tokens. -/
theorem map_payload_blanks {g : Text} (hg : ∀ c ∈ g, isBlank c = true) (t : Text) :
    (scan (g ++ t)).map payload = (scan t).map payload := by
  rw [scan, Glyph.scanFrom_blanks hg, map_payload_scanFrom]

theorem map_payload_space (t : Text) :
    (scan (' ' :: t)).map payload = (scan t).map payload :=
  map_payload_blanks blank_space t

theorem map_payload_trimStart (t : Text) :
    (scan t.trimStart).map payload = (scan t).map payload := by
  conv_rhs => rw [← List.takeWhile_append_dropWhile (p := isBlank) (l := t)]
  rw [map_payload_blanks fun c hc => List.mem_takeWhile_imp hc]
  rfl

/-- The first token of a text and the others. -/
theorem map_payload_recognise {g : Text} {c : Char} (hg : ∀ c ∈ g, isBlank c = true)
    (hc : isBlank c = false) (t : Text) : (scan (g ++ c :: t)).map payload =
      (Lexeme.recognise c t).payload :: (scan (Lexeme.recognise c t).rest).map payload := by
  rw [map_payload_blanks hg]
  obtain ⟨tok, hpayload, hnext⟩ : ∃ tok : Token, tok.payload = (Lexeme.recognise c t).payload ∧
      next? Position.start (c :: t) = some (tok, (Lexeme.recognise c t).rest) := by
    unfold next?
    rw [List.dropWhile_cons_of_neg (by simp [hc])]
    exact ⟨_, rfl, rfl⟩
  rw [scan, scanFrom_of_next?_some hnext, List.map_cons, map_payload_scanFrom, hpayload]

theorem map_payload_spell {gs : List Glyph} {u : Text} (h : ReadAll gs u) :
    (scan (spell gs ++ u)).map payload = gs.map Glyph.payload ++ (scan u).map payload := by
  rw [scan, Glyph.scanFrom_spell h, List.map_append, Glyph.map_payload_place, map_payload_scanFrom]

end Token

/-! ### Sealing -/

namespace Text

/-- **Sealed texts one after the other** make a sealed text. -/
theorem Sealed.append {t u : Text} (ht : t.Sealed) (hu : u.Sealed) : Sealed (t ++ u) := by
  intro p v
  rw [List.append_assoc, ht p (u ++ v), ht p u, hu, Position.advance_append, List.append_assoc]

theorem sealed_blank {b : Text} (hb : ∀ c ∈ b, isBlank c = true) : Sealed b := fun p u => by
  rw [Glyph.scanFrom_blanks hb, Glyph.scanFrom_blank hb, List.nil_append]

theorem sealed_flatten : ∀ {ts : List Text}, (∀ t ∈ ts, Sealed t) → Sealed ts.flatten
  | [], _ => sealed_blank blank_nil
  | t :: ts, h => (h t (by simp)).append (sealed_flatten fun u hu => h u (by simp [hu]))

/-- Glyphs that are read before anything are sealed, and so are the blanks behind them. -/
theorem sealed_of_readAll {gs : List Glyph} {tail : Text} (htail : ∀ c ∈ tail, isBlank c = true)
    (h : ∀ u, ReadAll gs (tail ++ u)) : Sealed (spell gs ++ tail) := by
  have hnil : ReadAll gs tail := by simpa using h []
  intro p u
  rw [List.append_assoc, Glyph.scanFrom_spell (h u), Glyph.scanFrom_blanks htail,
    Glyph.scanFrom_spell_blank hnil htail, Position.advance_append]

/-- **A symbol at the end seals a text.** -/
theorem sealed_of_symbol {t : Text} {s : Symbol}
    (h : (Token.scan t).getLast?.any (Token.isSymbol s) = true) : t.Sealed := by
  obtain ⟨gs, tail, rfl, htail, hgs⟩ := Glyph.exists_layout t
  rw [Token.scan, Glyph.scanFrom_spell_blank hgs htail] at h
  refine sealed_of_readAll htail fun u => ?_
  rcases List.eq_nil_or_concat gs with rfl | ⟨init, g, rfl⟩
  · trivial
  rw [List.concat_eq_append] at h hgs ⊢
  -- the last glyph is the symbol, and a symbol is read before anything
  have hpayload : g.payload = .symbol s := by
    rw [Glyph.place_append, List.getLast?_append_of_ne_nil _ (by simp)] at h
    simpa [Token.isSymbol, Glyph.token] using h
  obtain ⟨hinit, hg, -⟩ := Glyph.readAll_append.mp hgs
  have hsymbol : g = s.glyph g.gap := by
    have htext := hg.symbol_text hpayload
    cases g
    simp only at hpayload htext
    rw [hpayload, htext]
    rfl
  have hne : g.spelling ++ tail ≠ [] := by
    obtain ⟨c, cs, ht, -, -⟩ := hg.lexeme
    simp [Glyph.spelling, ht]
  refine Glyph.readAll_append.mpr ⟨?_, ?_, trivial⟩
  · have := Glyph.readAll_append_right (by simpa using hinit) hne u
    simpa using this
  · rw [hsymbol]
    exact s.reads hg.blank _

end Text

/-! ### A newline at the end -/

/-- Every string literal of the text has its end. -/
def Text.Terminated (t : Text) : Prop :=
  ∀ tok ∈ Token.scan t, tok.payload.isOpen (tok.span.slice t) = false

instance (t : Text) : Decidable t.Terminated :=
  inferInstanceAs (Decidable (∀ tok ∈ Token.scan t, _ = false))

namespace Text

variable {t : Text}

theorem exists_layout_newline (h : t.Terminated) : ∃ (gs : List Glyph) (tail : Text),
    t ++ ['\n'] = spell gs ++ tail ∧ (∀ c ∈ tail, isBlank c = true) ∧
      (∀ u, ReadAll gs (tail ++ u)) ∧
      gs.map Glyph.payload = (Token.scan t).map Token.payload := by
  obtain ⟨gs, tail, rfl, htail, hgs⟩ := Glyph.exists_layout t
  have hscan : Token.scan (spell gs ++ tail) = place Position.start gs :=
    Glyph.scanFrom_spell_blank hgs htail _
  rw [hscan, Glyph.map_payload_place]
  rcases List.eq_nil_or_concat gs with rfl | ⟨init, g, rfl⟩
  · refine ⟨[], tail ++ ['\n'], by simp, fun c hc => ?_, fun _ => trivial, rfl⟩
    rcases List.mem_append.mp hc with hc | hc
    · exact htail c hc
    · exact blank_newline c hc
  rw [List.concat_eq_append] at *
  have hopen : g.payload.isOpen g.text = false := by
    have hslice := Span.slice_append (spell init ++ g.gap) g.text tail
    have htext : spell init ++ g.gap ++ g.text ++ tail = spell (init ++ [g]) ++ tail := by
      simp [Glyph.spelling]
    have := h (g.token (Position.start.advance (spell init))) (by
      rw [hscan, Glyph.place_append]
      simp)
    rw [htext] at hslice
    rwa [Glyph.token, ← Position.advance_append, ← Position.advance_append, Glyph.spelling,
      ← List.append_assoc, hslice] at this
  obtain ⟨g', tail', hall, htail', hpayload, hgap, htext⟩ :=
    Glyph.exists_readAll_newline hgs htail hopen
  refine ⟨init ++ [g'], tail', ?_, htail', hall, by simp [hpayload]⟩
  simp [Glyph.spelling, hgap, htext]

/-- **A newline seals a text** in which every string literal has its end. -/
theorem sealed_newline (h : t.Terminated) : Sealed (t ++ ['\n']) := by
  obtain ⟨gs, tail, ht, htail, hall, -⟩ := exists_layout_newline h
  rw [ht]
  exact sealed_of_readAll htail hall

theorem map_payload_scan_newline (h : t.Terminated) :
    (Token.scan (t ++ ['\n'])).map Token.payload = (Token.scan t).map Token.payload := by
  obtain ⟨gs, tail, ht, htail, hall, hpayload⟩ := exists_layout_newline h
  have hnil : ReadAll gs tail := by simpa using hall []
  rw [ht, Token.scan, Glyph.scanFrom_spell_blank hnil htail, Glyph.map_payload_place, hpayload]

end Text

/-! ### Words with something behind them -/

section Blank

variable {b : Char} (hb : isBlank b = true)
include hb

theorem Word.readAll_blank (w : Word) (u : Text) : ReadAll [w.glyph []] ([b] ++ u) :=
  ⟨w.reads blank_nil (by simpa using isWordChar_of_isBlank hb), trivial⟩

/-- A blank seals a word. -/
theorem Word.sealed (w : Word) : Text.Sealed (w.text ++ [b]) := by
  have := Text.sealed_of_readAll (by simpa using hb) (w.readAll_blank hb)
  simpa using this

theorem Word.scanFrom_eq (w : Word) (p : Position) :
    Token.scanFrom p (w.text ++ [b]) = [(w.glyph []).token p] := by
  have := Glyph.scanFrom_spell_blank (w.readAll_blank hb []) (by simpa using hb) p
  simpa using this

end Blank

end DesignAtlas
