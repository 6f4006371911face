import DesignAtlas.Proofs.Text.Pieces
import DesignAtlas.Proofs.Token.Layout

/-! # What may follow a token

Recognising a token looks no further than the first character behind it. So a token with something
behind it stays the same when more text is added at the end (`recognise_append`), and so do glyphs
(`readAll_append_right`). A token at the very end of a text stays the same when a newline follows,
except that an escaped word then covers the newline (`Reads.newline`); only a string literal without
an end goes on.

A word is spelled by its characters, as they are or behind a backslash (`Reads.exists_spells`). So
they are the last ones of a text that ends with the word, but for blanks (`exists_last_word`). -/

namespace DesignAtlas

namespace Payload

/-- The word that an identifier or keyword is spelled by. -/
def word? : Payload → Option String
  | .identifier name => some name
  | .keyword k => some k.word
  | _ => none

theorem toList_of_ofWord {t : Text} {w : String}
    (h : (ofWord (String.ofList t)).word? = some w) : t = w.toList := by
  unfold ofWord at h
  split at h
  · rename_i k hk
    have hw := List.find?_some hk
    rw [word?, Option.some.injEq] at h
    rw [← h, eq_of_beq hw, String.toList_ofList]
  · rw [word?, Option.some.injEq] at h
    rw [← h, String.toList_ofList]

theorem display_ofWord (w : String) : (ofWord w).display = w := by
  unfold ofWord
  cases h : Keyword.ofWord? w with
  | none => rfl
  | some k =>
    have := List.find?_some h
    simpa [display] using this

theorem display_ofChar (c : Char) : (ofChar c).display = String.singleton c := by
  unfold ofChar
  cases h : Symbol.ofChar? c with
  | none => rfl
  | some s =>
    have := List.find?_some h
    simp only [beq_iff_eq] at this
    rw [display, this]

/-- Whether it is a string literal that ends without a quote, covering `text`. -/
def isOpen (text : Text) : Payload → Bool
  | .string content => text == '\x22' :: content.toList
  | _ => false

theorem ofWord_ne_symbol (w : String) (s : Symbol) : ofWord w ≠ .symbol s := by
  unfold ofWord
  split <;> simp

end Payload

namespace Lexeme

/-- The lexeme with more text behind it. -/
def extend (l : Lexeme) (u : Text) : Lexeme := { l with rest := l.rest ++ u }

theorem takeWhile_append_of_ne {p : Char → Bool} {t : Text} (h : t.dropWhile p ≠ []) (u : Text) :
    (t ++ u).takeWhile p = t.takeWhile p := by
  have hlen : (t.takeWhile p).length ≠ t.length := by
    intro he
    have := congrArg List.length (List.takeWhile_append_dropWhile (p := p) (l := t))
    rw [List.length_append] at this
    exact h (List.length_eq_zero_iff.mp (by omega))
  rw [List.takeWhile_append, if_neg hlen]

theorem dropWhile_append_of_ne {p : Char → Bool} {t : Text} (h : t.dropWhile p ≠ []) (u : Text) :
    (t ++ u).dropWhile p = t.dropWhile p ++ u := by
  rw [List.dropWhile_append, if_neg (by simpa using h)]

theorem ne_nil_of_dropWhile {p : Char → Bool} {t : Text} (h : t.dropWhile p ≠ []) : t ≠ [] := by
  rintro rfl; simp at h

/-! ### One recogniser after the other -/

theorem directive_append {t : Text} (h : (directive t).rest ≠ []) (u : Text) :
    directive (t ++ u) = (directive t).extend u := by
  have hafter : t.dropWhile isWordChar ≠ [] := by
    unfold directive at h
    simp only at h
    split at h
    · exact h
    · exact h
    · exact ne_nil_of_dropWhile (ne_nil_of_dropWhile h)
    · exact ne_nil_of_dropWhile h
  unfold directive at h ⊢
  rw [takeWhile_append_of_ne hafter, dropWhile_append_of_ne hafter]
  simp only at h ⊢
  split at h
  · rfl
  · rfl
  · have hbehind := ne_nil_of_dropWhile h
    rw [takeWhile_append_of_ne hbehind, dropWhile_append_of_ne hbehind,
      takeWhile_append_of_ne h, dropWhile_append_of_ne h]
    rfl
  · rw [takeWhile_append_of_ne h, dropWhile_append_of_ne h]
    rfl

theorem word_append {c : Char} {t : Text} (h : (word c t).rest ≠ []) (u : Text) :
    word c (t ++ u) = (word c t).extend u := by
  unfold word at h ⊢
  rw [takeWhile_append_of_ne h, dropWhile_append_of_ne h]
  rfl

theorem escaped_append {t : Text} (h : (escaped t).rest ≠ []) (u : Text) :
    escaped (t ++ u) = (escaped t).extend u := by
  unfold escaped at h ⊢
  simp only at h ⊢
  have hafter : t.dropWhile (fun c => !isBlank c) ≠ [] := fun he => h (by rw [he]; rfl)
  rw [takeWhile_append_of_ne hafter, dropWhile_append_of_ne hafter]
  obtain ⟨b, after, hb⟩ := List.exists_cons_of_ne_nil hafter
  rw [hb]
  rfl

theorem number_append {c : Char} {t : Text} (h : (number c t).rest ≠ []) (u : Text) :
    number c (t ++ u) = (number c t).extend u := by
  unfold number at h ⊢
  rw [takeWhile_append_of_ne h, dropWhile_append_of_ne h]
  rfl

theorem splitString_append_right {t : Text} (h : (splitString t).2 ≠ []) (u : Text) :
    splitString (t ++ u) = ((splitString t).1, (splitString t).2 ++ u) := by
  fun_induction splitString t with
  | case1 => exact absurd rfl h
  | case2 => cases u <;> simp [splitString]
  | case3 c hc => exact absurd rfl h
  | case4 d t => simp [splitString]
  | case5 d t hc ih =>
    have ih := ih h
    simp only [List.cons_append, splitString, hc, ↓reduceIte, ih]
  | case6 c d t hc hc' ih =>
    have ih := ih h
    rw [List.cons_append, List.cons_append, splitString, if_neg hc, if_neg hc', ← List.cons_append,
      ih]

theorem string_append {t : Text} (h : (string t).rest ≠ []) (u : Text) :
    string (t ++ u) = (string t).extend u := by
  unfold string at h ⊢
  simp only at h ⊢
  have hclose : (splitString t).2 ≠ [] := fun he => h (by rw [he]; rfl)
  rw [splitString_append_right hclose]
  obtain ⟨b, after, hb⟩ := List.exists_cons_of_ne_nil hclose
  rw [hb]
  rfl

/-- **A token with something behind it is the same in a longer text.** -/
theorem recognise_append {c : Char} {t : Text} (h : (recognise c t).rest ≠ []) (u : Text) :
    recognise c (t ++ u) = (recognise c t).extend u := by
  obtain ⟨d, t', rfl⟩ : ∃ d t', t = d :: t' := by
    apply List.exists_cons_of_ne_nil
    rintro rfl
    exact h (List.length_eq_zero_iff.mp (Nat.le_zero.mp (length_rest_recognise c [])))
  have hnum : beginsNumber c (d :: t' ++ u) = beginsNumber c (d :: t') := rfl
  unfold recognise at h ⊢
  rw [hnum]
  split_ifs at h ⊢ with h1 h2 h3 h4 h5
  · exact directive_append h u
  · exact word_append h u
  · exact escaped_append h u
  · exact number_append h u
  · exact string_append h u
  · rfl

/-! ### A newline behind a token -/

theorem span_newline {p : Char → Bool} (hp : p '\n' = false) (t u : Text) :
    (t ++ '\n' :: u).takeWhile p = t.takeWhile p ∧
      (t ++ '\n' :: u).dropWhile p = t.dropWhile p ++ '\n' :: u :=
  ⟨Text.takeWhile_append_cons hp u t, Text.dropWhile_append_cons hp u t⟩

theorem recognise_backslash (t : Text) : recognise '\x5c' t = escaped t := rfl

theorem recognise_quote (t : Text) : recognise '\x22' t = string t := rfl

theorem directive_newline (t u : Text) :
    directive (t ++ '\n' :: u) = (directive t).extend ('\n' :: u) := by
  have hword := span_newline (p := isWordChar) (by decide)
  have hgap := span_newline (p := isInlineBlank) (by decide)
  have hline := span_newline (p := (· != '\n')) (by decide)
  unfold directive
  simp only [hword]
  split <;> simp only [hgap, hword, hline, extend]

/-- **A newline ends every token** but escaped words and string literals. -/
theorem recognise_newline {c : Char} (hb : c ≠ '\x5c') (hq : c ≠ '\x22') (t u : Text) :
    recognise c (t ++ '\n' :: u) = (recognise c t).extend ('\n' :: u) := by
  have hword := span_newline (p := isWordChar) (by decide) t u
  have hnumber := span_newline (p := isNumberChar) (by decide) t u
  have hbegins : beginsNumber c (t ++ '\n' :: u) = beginsNumber c t := by
    cases t with
    | nil => simp [beginsNumber, show isWordChar '\n' = false by decide]
    | cons d t => rfl
  unfold recognise
  rw [hbegins]
  split_ifs
  · exact directive_newline t u
  · simp only [word, hword, extend]
  · simp only [number, hnumber, extend]
  · rfl

/-- Only words and escaped words are identifiers or keywords, and what begins a word does not depend
on what follows. -/
theorem recognise_of_word {c : Char} {t : Text} {w : String}
    (h : (recognise c t).payload.word? = some w) :
    (isWordStart c = true ∧ ∀ u, recognise c u = word c u) ∨
      c = '\x5c' ∧ ∀ u, recognise c u = escaped u := by
  unfold recognise at h
  split_ifs at h with h1 h2 h3 h4 h5
  · unfold directive at h
    simp only at h
    split at h <;> cases h
  · exact Or.inl ⟨h2, fun u => by unfold recognise; rw [if_neg h1, if_pos h2]⟩
  · exact Or.inr ⟨h3, fun u => by unfold recognise; rw [if_neg h1, if_neg h2, if_pos h3]⟩
  · cases h
  · cases h
  · unfold single Payload.ofChar at h
    simp only at h
    split at h <;> cases h

theorem recognise_of_symbol {c : Char} {t : Text} {s : Symbol}
    (h : (recognise c t).payload = .symbol s) : (recognise c t).text = [s.char] := by
  unfold recognise at h ⊢
  split_ifs at h ⊢ with h1 h2 h3 h4 h5
  · unfold directive at h
    simp only at h
    split at h <;> cases h
  · exact absurd h (Payload.ofWord_ne_symbol _ s)
  · exact absurd h (Payload.ofWord_ne_symbol _ s)
  · cases h
  · cases h
  · unfold single Payload.ofChar at h
    simp only at h
    split at h
    · rename_i s' hs'
      obtain rfl : s' = s := by simpa using h
      have hc := List.find?_some hs'
      rw [eq_of_beq hc]
      rfl
    · cases h

end Lexeme

namespace Glyph

theorem Reads.append_right {g : Glyph} {rest : Text} (h : g.Reads rest) (hne : rest ≠ [])
    (u : Text) : g.Reads (rest ++ u) := by
  obtain ⟨c, cs, ht, hc, hr⟩ := h.lexeme
  refine ⟨h.blank, c, cs, ht, hc, ?_⟩
  rw [← List.append_assoc, Lexeme.recognise_append (by rw [hr]; exact hne), hr]
  rfl

/-- **Glyphs with something behind them are the same in a longer text.** -/
theorem readAll_append_right : ∀ {gs : List Glyph} {rest : Text}, ReadAll gs rest → rest ≠ [] →
    ∀ u : Text, ReadAll gs (rest ++ u)
  | [], _, _, _, _ => trivial
  | g :: gs, rest, h, hne, u => by
    refine ⟨?_, readAll_append_right h.2 hne u⟩
    rw [← List.append_assoc]
    exact h.1.append_right (by simp [hne]) u

end Glyph

/-! ### Identifiers and keywords -/

/-- The text spells the word: with characters of words as it is, or with any visible characters
behind a backslash. -/
inductive Text.Spells : Text → String → Prop where
  | simple {c : Char} {t : Text} (start : isWordStart c = true)
    (word : ∀ d ∈ t, isWordChar d = true) : Spells (c :: t) (String.ofList (c :: t))
  | escaped {t : Text} (solid : ∀ d ∈ t, isBlank d = false) :
    Spells ('\x5c' :: t) (String.ofList t)

theorem Text.Spells.exists_append {t : Text} {w : String} (h : t.Spells w) :
    ∃ pre : Text, t = pre ++ w.toList := by
  cases h with
  | simple => exact ⟨[], by rw [String.toList_ofList, List.nil_append]⟩
  | escaped => exact ⟨['\x5c'], by rw [String.toList_ofList, List.singleton_append]⟩

namespace Glyph

/-- **An identifier or keyword is spelled by its characters** up to the blank that ends an escaped
one. -/
theorem Reads.exists_spells {g : Glyph} {w : String} {rest : Text} (h : g.Reads rest)
    (hw : g.payload.word? = some w) : ∃ t b : Text, t.Spells w ∧ (∀ c ∈ b, isBlank c = true) ∧
      g.text = t ++ b := by
  obtain ⟨c, cs, ht, hc, hr⟩ := h.lexeme
  have hp : (Lexeme.recognise c (cs ++ rest)).payload.word? = some w := by rw [hr, ← hw]
  have htext : (Lexeme.recognise c (cs ++ rest)).text = g.text := by rw [hr]
  rcases Lexeme.recognise_of_word hp with ⟨hstart, hword⟩ | ⟨rfl, he⟩
  · rw [hword] at hp htext
    obtain rfl : String.ofList (c :: (cs ++ rest).takeWhile isWordChar) = w := by
      rw [Payload.toList_of_ofWord hp, String.ofList_toList]
    refine ⟨_, [], .simple hstart fun d hd => List.mem_takeWhile_imp hd, by simp, ?_⟩
    rw [← htext, List.append_nil]
    rfl
  · rw [he] at hp htext
    obtain rfl : String.ofList ((cs ++ rest).takeWhile fun c => !isBlank c) = w := by
      rw [Payload.toList_of_ofWord hp, String.ofList_toList]
    refine ⟨_, ((cs ++ rest).dropWhile fun c => !isBlank c).take 1,
      .escaped fun d hd => by simpa using List.mem_takeWhile_imp hd, fun b hb => ?_, htext.symm⟩
    rcases hd : (cs ++ rest).dropWhile (fun c => !isBlank c) with _ | ⟨d, after⟩
    · rw [hd] at hb; cases hb
    · have := List.head_dropWhile_not (fun c => !isBlank c) (l := cs ++ rest) (by rw [hd]; simp)
      rw [hd, List.take_succ_cons, List.take_zero, List.mem_singleton] at hb
      simpa [hd, hb] using this

/-- **A token at the end of a text, before a newline.** It is the same token, or it is escaped and
covers the newline, unless it is a string literal without an end. -/
theorem Reads.newline {g : Glyph} (h : g.Reads []) (hg : g.payload.isOpen g.text = false) :
    (∀ u, g.Reads ('\n' :: u)) ∨
      ∀ u, (Glyph.mk g.gap g.payload (g.text ++ ['\n'])).Reads u := by
  obtain ⟨c, cs, ht, hc, hr⟩ := h.lexeme
  rw [List.append_nil] at hr
  by_cases hb : c = '\x5c'
  · subst hb
    rw [Lexeme.recognise_backslash] at hr
    rcases hd : cs.dropWhile (fun c => !isBlank c) with _ | ⟨b, after⟩
    · right
      refine fun u => ⟨h.blank, '\x5c', cs ++ ['\n'], by simp [ht], hc, ?_⟩
      have htake := List.takeWhile_eq_self_iff.mpr (List.dropWhile_eq_nil_iff.mp hd)
      obtain ⟨h1, h2⟩ := Lexeme.span_newline (p := fun c => !isBlank c) (by decide) cs u
      rw [Lexeme.recognise_backslash, List.append_assoc, List.singleton_append]
      simp only [Lexeme.escaped, htake, Lexeme.mk.injEq] at hr
      simp only [Lexeme.escaped, h1, h2, hd, htake, hr.1, ht]
      rfl
    · left
      refine fun u => ⟨h.blank, '\x5c', cs, ht, hc, ?_⟩
      have hne : cs.dropWhile (fun c => !isBlank c) ≠ [] := by rw [hd]; simp
      simp only [Lexeme.escaped, hd, Lexeme.mk.injEq] at hr
      obtain ⟨hpay, htext, rfl⟩ := hr
      rw [Lexeme.recognise_backslash]
      simp only [Lexeme.escaped, Lexeme.takeWhile_append_of_ne hne,
        Lexeme.dropWhile_append_of_ne hne, hd, hpay, ← htext]
      rfl
  left
  refine fun u => ⟨h.blank, c, cs, ht, hc, ?_⟩
  by_cases hq : c = '\x22'
  · subst hq
    rw [Lexeme.recognise_quote] at hr ⊢
    simp only [Lexeme.string, Lexeme.mk.injEq] at hr
    obtain ⟨hpay, htext, hrest⟩ := hr
    -- the closing quote is the last character, so nothing of what follows is looked at
    have hclose : (Lexeme.splitString cs).2 ≠ [] := by
      intro hnil
      rw [hnil, List.take_nil, List.append_nil] at htext
      simp [← hpay, ← htext, Payload.isOpen] at hg
    obtain ⟨q, after, hq⟩ := List.exists_cons_of_ne_nil hclose
    rw [hq] at htext hrest
    simp only [List.drop_succ_cons, List.drop_zero] at hrest
    subst hrest
    simp only [Lexeme.string, Lexeme.splitString_append_right hclose, hq, hpay, ← htext]
    rfl
  · rw [Lexeme.recognise_newline hb hq, hr]
    rfl

theorem Reads.symbol_text {g : Glyph} {s : Symbol} {rest : Text} (h : g.Reads rest)
    (hs : g.payload = .symbol s) : g.text = [s.char] := by
  obtain ⟨c, cs, ht, hc, hr⟩ := h.lexeme
  have hp : (Lexeme.recognise c (cs ++ rest)).payload = .symbol s := by rw [hr, ← hs]
  have htext : (Lexeme.recognise c (cs ++ rest)).text = g.text := by rw [hr]
  rw [← htext, Lexeme.recognise_of_symbol hp]

end Glyph

namespace Token

/-! ### The last token of a text -/

theorem exists_last_glyph {t : Text} {tok : Token} (h : (scan t).getLast? = some tok) :
    ∃ (pre : Text) (g : Glyph) (b : Text), t = pre ++ g.text ++ b ∧
      (∀ c ∈ b, isBlank c = true) ∧ g.Reads b ∧ g.payload = tok.payload := by
  obtain ⟨gs, tail, rfl, hb, hr⟩ := Glyph.exists_layout t
  rw [scan, Glyph.scanFrom_spell_blank hr hb] at h
  rcases List.eq_nil_or_concat gs with rfl | ⟨gs, g, rfl⟩
  · cases h
  rw [List.concat_eq_append] at *
  rw [Glyph.place_append] at h
  obtain rfl : g.token _ = tok := by simpa using h
  exact ⟨Glyph.spell gs ++ g.gap, g, tail, by simp [Glyph.spelling], hb,
    (Glyph.readAll_append.mp hr).2.1, rfl⟩

/-- **A text that ends with a word** ends with its characters and blanks behind them. -/
theorem exists_last_word {t : Text} {tok : Token} {w : String}
    (h : (scan t).getLast? = some tok) (hw : tok.payload.word? = some w) :
    ∃ pre b : Text, t = pre ++ w.toList ++ b ∧ ∀ c ∈ b, isBlank c = true := by
  obtain ⟨pre, g, tail, rfl, hb, hr, hp⟩ := exists_last_glyph h
  obtain ⟨u, b, hspells, hbb, htext⟩ := hr.exists_spells (by rw [hp]; exact hw)
  obtain ⟨front, rfl⟩ := hspells.exists_append
  exact ⟨pre ++ front, b ++ tail, by simp [htext], List.forall_mem_append.mpr ⟨hbb, hb⟩⟩

end Token

end DesignAtlas
