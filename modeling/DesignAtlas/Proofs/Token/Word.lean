import DesignAtlas.Proofs.Token.Layout

/-! # Plain words, numerals and symbols

Texts of which each is one token, whatever stands before them. A word or a numeral reads as it is
written when what follows does not continue it (`Word.reads`, `Numeral.reads`), and a symbol reads
as it is written in any case (`Symbol.reads`). -/

namespace DesignAtlas

/-! ### Characters -/

/-- A visible ASCII character is not blank. -/
theorem isBlank_of_visible {c : Char} (h : 0x21 ≤ c.toNat ∧ c.toNat ≤ 0x7e) :
    isBlank c = false := by
  simp only [isBlank, blankRanges, List.any_cons, List.any_nil, Bool.or_false,
    Bool.or_eq_false_iff, Bool.and_eq_false_iff, decide_eq_false_iff_not]
  omega

theorem isAlpha_iff {c : Char} :
    c.isAlpha = true ↔ 65 ≤ c.toNat ∧ c.toNat ≤ 90 ∨ 97 ≤ c.toNat ∧ c.toNat ≤ 122 := by
  have h : c.isAlpha = (decide (65 ≤ c.toNat ∧ c.toNat ≤ 90) ||
      decide (97 ≤ c.toNat) && decide (c.toNat ≤ 122)) := rfl
  rw [h, Bool.or_eq_true, Bool.and_eq_true, decide_eq_true_eq, decide_eq_true_eq,
    decide_eq_true_eq]

theorem isDigit_iff {c : Char} : c.isDigit = true ↔ 48 ≤ c.toNat ∧ c.toNat ≤ 57 := by
  have h : c.isDigit = (decide (48 ≤ c.toNat) && decide (c.toNat ≤ 57)) := rfl
  rw [h, Bool.and_eq_true, decide_eq_true_eq, decide_eq_true_eq]

theorem visible_of_isAlphanum {c : Char} (h : c.isAlphanum = true) :
    0x21 ≤ c.toNat ∧ c.toNat ≤ 0x7e := by
  rw [Char.isAlphanum, Bool.or_eq_true, isAlpha_iff, isDigit_iff] at h
  omega

theorem isBlank_of_isWordChar {c : Char} (h : isWordChar c = true) : isBlank c = false := by
  simp only [isWordChar, Bool.or_eq_true, beq_iff_eq] at h
  rcases h with (h | rfl) | rfl
  · exact isBlank_of_visible (visible_of_isAlphanum h)
  · decide
  · decide

theorem isBlank_of_isNumberChar {c : Char} (h : isNumberChar c = true) : isBlank c = false := by
  simp only [isNumberChar, Bool.or_eq_true, beq_iff_eq] at h
  rcases h with (((h | rfl) | rfl) | rfl) | rfl
  · exact isBlank_of_visible (visible_of_isAlphanum h)
  all_goals decide

theorem isBlank_of_isInlineBlank {c : Char} (h : isInlineBlank c = true) : isBlank c = true := by
  rw [isInlineBlank, Bool.and_eq_true] at h
  exact h.1

theorem isWordChar_of_isWordStart {c : Char} (h : isWordStart c = true) : isWordChar c = true := by
  simp only [isWordStart, isWordChar, Char.isAlphanum, Bool.or_eq_true] at h ⊢
  tauto

theorem isWordChar_of_isBlank {c : Char} (h : isBlank c = true) : isWordChar c = false := by
  by_contra hw
  rw [Bool.not_eq_false] at hw
  rw [isBlank_of_isWordChar hw] at h
  cases h

theorem blank_nil : ∀ c ∈ ([] : Text), isBlank c = true := by simp

theorem blank_space : ∀ c ∈ [' '], isBlank c = true := by
  simp [isBlank_space]

theorem blank_newline : ∀ c ∈ ['\n'], isBlank c = true := by
  simp [isBlank_newline]

/-- A run of accepted characters ends before the first one that is not. -/
theorem Text.span_exact {p : Char → Bool} {t rest : Text} (ht : ∀ c ∈ t, p c = true)
    (hrest : ∀ c ∈ rest.head?, p c = false) :
    (t ++ rest).takeWhile p = t ∧ (t ++ rest).dropWhile p = rest := by
  rw [List.takeWhile_append_of_pos ht, List.dropWhile_append_of_pos ht]
  cases rest with
  | nil => simp
  | cons c rest =>
    have hc : ¬ p c = true := by rw [hrest c rfl]; exact Bool.false_ne_true
    rw [List.takeWhile_cons_of_neg hc, List.dropWhile_cons_of_neg hc, List.append_nil]
    exact ⟨rfl, rfl⟩

/-! ### Words -/

/-- Whether a text is an ASCII letter or an underscore, followed by letters, digits and
underscores. -/
def Text.isPlainWord : Text → Bool
  | [] => false
  | c :: t => (c.isAlpha || c == '_') && t.all fun d => d.isAlphanum || d == '_'

/-- A plain word. -/
structure Word where
  text : Text
  plain : text.isPlainWord = true
  deriving DecidableEq, Repr

namespace Word

/-- The word as a name. -/
def name (w : Word) : String := String.ofList w.text

/-- The word is no keyword. -/
def IsIdentifier (w : Word) : Prop := Keyword.ofWord? w.name = none

instance (w : Word) : Decidable w.IsIdentifier :=
  inferInstanceAs (Decidable (Keyword.ofWord? w.name = none))

theorem exists_cons (w : Word) : ∃ c t, w.text = c :: t ∧ (c.isAlpha = true ∨ c = '_') ∧
    ∀ d ∈ t, isWordChar d = true := by
  obtain ⟨text, plain⟩ := w
  rcases text with _ | ⟨c, t⟩
  · cases plain
  · simp only [Text.isPlainWord, Bool.and_eq_true, Bool.or_eq_true, beq_iff_eq,
      List.all_eq_true] at plain
    refine ⟨c, t, rfl, plain.1, fun d hd => ?_⟩
    rcases plain.2 d hd with h | rfl
    · simp [isWordChar, h]
    · rfl

theorem text_ne_nil (w : Word) : w.text ≠ [] := by
  obtain ⟨c, t, h, -⟩ := w.exists_cons
  rw [h]
  exact List.cons_ne_nil c t

theorem isWordChar_of_mem {w : Word} {c : Char} (h : c ∈ w.text) : isWordChar c = true := by
  obtain ⟨d, t, hw, hd, ht⟩ := w.exists_cons
  rw [hw] at h
  rcases List.mem_cons.mp h with rfl | h
  · rcases hd with hd | rfl
    · simp [isWordChar, Char.isAlphanum, hd]
    · rfl
  · exact ht c h

theorem isBlank_of_mem {w : Word} {c : Char} (h : c ∈ w.text) : isBlank c = false :=
  isBlank_of_isWordChar (isWordChar_of_mem h)

/-- The word as a glyph. -/
def glyph (gap : Text) (w : Word) : Glyph := ⟨gap, .ofWord w.name, w.text⟩

@[simp] theorem spelling_glyph (gap : Text) (w : Word) :
    (w.glyph gap).spelling = gap ++ w.text := rfl

theorem payload_glyph {w : Word} (h : w.IsIdentifier) (gap : Text) :
    (w.glyph gap).payload = .identifier w.name := by
  unfold IsIdentifier at h
  simp only [glyph, Payload.ofWord, h]

theorem identifier?_token {w : Word} (h : w.IsIdentifier) (gap : Text) (q : Position) :
    ((w.glyph gap).token q).identifier? = some w.name := by
  rw [Token.identifier?, Glyph.token, payload_glyph h]
  rfl

/-- **A word is read as it is written** unless the text behind it goes on with the word. -/
theorem reads (w : Word) {gap rest : Text} (hgap : ∀ c ∈ gap, isBlank c = true)
    (hrest : ∀ c ∈ rest.head?, isWordChar c = false) : (w.glyph gap).Reads rest := by
  obtain ⟨c, t, hw, hc, ht⟩ := w.exists_cons
  have hblank : isBlank c = false := isBlank_of_mem (w := w) (by simp [hw])
  have hstart : isWordStart c = true := by
    rcases hc with hc | rfl
    · simp [isWordStart, hc]
    · rfl
  have hbacktick : c ≠ '\x60' := by
    rintro rfl
    cases hstart
  obtain ⟨htake, hdrop⟩ := Text.span_exact ht hrest
  refine ⟨hgap, c, t, hw, hblank, ?_⟩
  simp only [Lexeme.recognise, if_neg hbacktick, if_pos hstart, Lexeme.word, htake, hdrop, glyph,
    name, hw]

end Word

/-- The keyword as a glyph. -/
def Keyword.glyph (gap : Text) (k : Keyword) : Glyph := ⟨gap, .keyword k, k.word.toList⟩

@[simp] theorem Keyword.gap_glyph (gap : Text) (k : Keyword) : (k.glyph gap).gap = gap := rfl

@[simp] theorem Keyword.payload_token (gap : Text) (k : Keyword) (q : Position) :
    ((k.glyph gap).token q).payload = .keyword k := rfl

@[simp] theorem Keyword.spelling_glyph (gap : Text) (k : Keyword) :
    (k.glyph gap).spelling = gap ++ k.word.toList := rfl

theorem Keyword.reads (k : Keyword) {gap rest : Text} (hgap : ∀ c ∈ gap, isBlank c = true)
    (hrest : ∀ c ∈ rest.head?, isWordChar c = false) : (k.glyph gap).Reads rest := by
  have hw : Text.isPlainWord k.word.toList = true := by cases k <;> decide
  have hk : Payload.ofWord (String.ofList k.word.toList) = .keyword k := by
    cases k <;> decide
  have h := (Word.mk k.word.toList hw).reads hgap hrest
  rw [Word.glyph, Word.name, hk] at h
  exact h

/-! ### Symbols and numerals -/

/-- The symbol as a glyph. -/
def Symbol.glyph (gap : Text) (s : Symbol) : Glyph := ⟨gap, .symbol s, [s.char]⟩

@[simp] theorem Symbol.gap_glyph (gap : Text) (s : Symbol) : (s.glyph gap).gap = gap := rfl

@[simp] theorem Symbol.payload_token (gap : Text) (s : Symbol) (q : Position) :
    ((s.glyph gap).token q).payload = .symbol s := rfl

@[simp] theorem Symbol.text_glyph (gap : Text) (s : Symbol) : (s.glyph gap).text = [s.char] := rfl

@[simp] theorem Symbol.spelling_glyph (gap : Text) (s : Symbol) :
    (s.glyph gap).spelling = gap ++ [s.char] := rfl

/-- **A symbol is read as it is written,** whatever follows it. -/
theorem Symbol.reads (s : Symbol) {gap : Text} (hgap : ∀ c ∈ gap, isBlank c = true)
    (rest : Text) : (s.glyph gap).Reads rest := by
  refine ⟨hgap, s.char, [], rfl, ?_, ?_⟩
  · cases s <;> decide
  · cases s <;> rfl

/-- Whether a text is a decimal number. -/
def Text.isDecimal (t : Text) : Bool := !t.isEmpty && t.all Char.isDigit

/-- A decimal number, by its digits. -/
structure Numeral where
  text : Text
  decimal : text.isDecimal = true
  deriving DecidableEq, Repr

namespace Numeral

theorem exists_cons (n : Numeral) : ∃ c t, n.text = c :: t ∧ c.isDigit = true ∧
    ∀ d ∈ t, d.isDigit = true := by
  obtain ⟨text, decimal⟩ := n
  rcases text with _ | ⟨c, t⟩
  · cases decimal
  · simp only [Text.isDecimal, Bool.and_eq_true, List.all_cons, List.all_eq_true] at decimal
    exact ⟨c, t, rfl, decimal.2.1, decimal.2.2⟩

theorem text_ne_nil (n : Numeral) : n.text ≠ [] := by
  obtain ⟨c, t, h, -⟩ := n.exists_cons
  rw [h]
  exact List.cons_ne_nil c t

theorem isDigit_of_mem {n : Numeral} {c : Char} (h : c ∈ n.text) : c.isDigit = true := by
  obtain ⟨d, t, hn, hd, ht⟩ := n.exists_cons
  rw [hn] at h
  rcases List.mem_cons.mp h with rfl | h
  · exact hd
  · exact ht c h

theorem isWordChar_of_mem {n : Numeral} {c : Char} (h : c ∈ n.text) : isWordChar c = true := by
  simp [isWordChar, Char.isAlphanum, isDigit_of_mem h]

theorem isBlank_of_mem {n : Numeral} {c : Char} (h : c ∈ n.text) : isBlank c = false :=
  isBlank_of_isWordChar (isWordChar_of_mem h)

/-- The numeral as a glyph. -/
def glyph (gap : Text) (n : Numeral) : Glyph := ⟨gap, .number (String.ofList n.text), n.text⟩

@[simp] theorem spelling_glyph (gap : Text) (n : Numeral) :
    (n.glyph gap).spelling = gap ++ n.text := rfl

/-- **A numeral is read as it is written** unless the text behind it goes on with the number. -/
theorem reads (n : Numeral) {gap rest : Text} (hgap : ∀ c ∈ gap, isBlank c = true)
    (hrest : ∀ c ∈ rest.head?, isNumberChar c = false) : (n.glyph gap).Reads rest := by
  obtain ⟨c, t, hn, hc, ht⟩ := n.exists_cons
  have hblank : isBlank c = false := isBlank_of_mem (n := n) (by simp [hn])
  have hword : isWordStart c = false := by
    have ha : c.isAlpha = false := by
      have hr := isDigit_iff.mp hc
      rw [← Bool.not_eq_true, isAlpha_iff]
      omega
    have hu : c ≠ '_' := by rintro rfl; cases hc
    have hd : c ≠ '$' := by rintro rfl; cases hc
    simp only [isWordStart, Bool.or_eq_false_iff, beq_eq_false_iff_ne]
    exact ⟨⟨ha, hu⟩, hd⟩
  have hbacktick : c ≠ '\x60' := by rintro rfl; cases hc
  have hbackslash : c ≠ '\x5c' := by rintro rfl; cases hc
  have hbegins : ∀ u : Text, Lexeme.beginsNumber c u = true := fun u => by
    simp [Lexeme.beginsNumber, hc]
  have hnum : ∀ d ∈ t, isNumberChar d = true := fun d hd => by
    simp [isNumberChar, Char.isAlphanum, ht d hd]
  obtain ⟨htake, hdrop⟩ := Text.span_exact hnum hrest
  refine ⟨hgap, c, t, hn, hblank, ?_⟩
  simp only [Lexeme.recognise, if_neg hbacktick, hword, if_neg Bool.false_ne_true,
    if_neg hbackslash, hbegins, if_true, Lexeme.number, htake, hdrop, glyph, hn]

end Numeral

end DesignAtlas
