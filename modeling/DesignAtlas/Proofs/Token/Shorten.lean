import DesignAtlas.Proofs.Token.Follow
import DesignAtlas.Proofs.Token.Word

/-! # What a token needs behind it

A token is the same in a text that ends behind it as in a longer one (`Reads.shorten`): each
recogniser stops at a character that it does not take, and the end of the text stops it too. There is
one exception. An apostrophe begins a number when a word character follows, and a dollar sign is a
word character but none of a number; the number is then the apostrophe alone
(`Payload.bareApostrophe`), and without the dollar sign behind it the apostrophe is no number. -/

namespace DesignAtlas

/-- The number that an apostrophe before a dollar sign is. -/
def Payload.bareApostrophe : Payload := .number "\x27"

/-- The payloads do not end with the number that is an apostrophe alone. -/
def Payload.Settled (ps : List Payload) : Prop := ps.getLast? ≠ some Payload.bareApostrophe

instance (ps : List Payload) : Decidable (Payload.Settled ps) :=
  inferInstanceAs (Decidable (_ ≠ _))

theorem Payload.ofWord_ne_number (w n : String) : Payload.ofWord w ≠ .number n := by
  unfold ofWord
  split <;> simp

namespace Lexeme

/-! ### One recogniser after the other -/

/-- A run of accepted characters ends where it ended when less text is behind it. -/
theorem cut_prefix {p : Char → Bool} {t r : Text} (hr : r <+: t.dropWhile p) :
    (t.takeWhile p ++ r).takeWhile p = t.takeWhile p ∧
      (t.takeWhile p ++ r).dropWhile p = r := by
  refine Text.span_exact (fun c hc => List.mem_takeWhile_imp hc) fun c hc => ?_
  obtain ⟨u, hu⟩ := hr
  have hnot := List.head?_dropWhile_not p t
  rw [← hu, List.head?_append, show r.head? = some c from hc] at hnot
  exact hnot

section Shorten

variable {c : Char} {t cs rest r : Text} {p : Payload}

theorem directive_shorten (h : directive t = ⟨p, '\x60' :: cs, rest⟩) (hr : r <+: rest) :
    directive (cs ++ r) = ⟨p, '\x60' :: cs, r⟩ := by
  unfold directive at h ⊢
  simp only at h ⊢
  split at h <;> rename_i hext <;>
    simp only [Lexeme.mk.injEq, List.cons_append, List.cons.injEq, true_and] at h <;>
    obtain ⟨rfl, rfl, rfl⟩ := h
  · obtain ⟨h1, h2⟩ := cut_prefix hr
    simp only [h1, h2, hext]
  · obtain ⟨h1, h2⟩ := cut_prefix hr
    simp only [h1, h2, hext]
  · have hbehind := List.prefix_append_right_inj (((t.dropWhile isWordChar).dropWhile
      isInlineBlank).takeWhile isWordChar) |>.mpr hr
    rw [List.takeWhile_append_dropWhile] at hbehind
    have hafter := List.prefix_append_right_inj ((t.dropWhile isWordChar).takeWhile
      isInlineBlank) |>.mpr hbehind
    rw [List.takeWhile_append_dropWhile] at hafter
    obtain ⟨h1, h2⟩ := cut_prefix hafter
    obtain ⟨h3, h4⟩ := cut_prefix hbehind
    obtain ⟨h5, h6⟩ := cut_prefix hr
    simp only [List.append_assoc, h1, h2, hext, h3, h4, h5, h6, List.cons_append]
  · have hafter := List.prefix_append_right_inj ((t.dropWhile isWordChar).takeWhile
      (· != '\n')) |>.mpr hr
    rw [List.takeWhile_append_dropWhile] at hafter
    obtain ⟨h1, h2⟩ := cut_prefix hafter
    obtain ⟨h3, h4⟩ := cut_prefix hr
    simp only [List.append_assoc, h1, h2, hext, h3, h4, List.cons_append]

theorem word_shorten (h : word c t = ⟨p, c :: cs, rest⟩) (hr : r <+: rest) :
    word c (cs ++ r) = ⟨p, c :: cs, r⟩ := by
  simp only [word, Lexeme.mk.injEq, List.cons.injEq, true_and] at h
  obtain ⟨rfl, rfl, rfl⟩ := h
  obtain ⟨h1, h2⟩ := cut_prefix hr
  simp only [word, h1, h2]

theorem escaped_shorten (h : escaped t = ⟨p, '\x5c' :: cs, rest⟩) (hr : r <+: rest) :
    escaped (cs ++ r) = ⟨p, '\x5c' :: cs, r⟩ := by
  simp only [escaped, Lexeme.mk.injEq, List.cons_append, List.cons.injEq, true_and] at h
  obtain ⟨rfl, rfl, rfl⟩ := h
  have hafter : (t.dropWhile fun c => !isBlank c).take 1 ++ r <+:
      t.dropWhile fun c => !isBlank c := by
    have := List.prefix_append_right_inj ((t.dropWhile fun c => !isBlank c).take 1) |>.mpr hr
    rwa [List.take_append_drop] at this
  obtain ⟨h1, h2⟩ := cut_prefix hafter
  rw [List.append_assoc]
  -- the blank behind the name is taken with it; without one nothing is left
  cases hd : t.dropWhile fun c => !isBlank c with
  | nil =>
    rw [hd] at hr h1 h2
    obtain rfl : r = [] := List.prefix_nil.mp hr
    simp only [escaped, h1, h2]
    simp
  | cons b after =>
    rw [hd] at h1 h2
    simp only [escaped, h1, h2]
    simp

theorem number_shorten (h : number c t = ⟨p, c :: cs, rest⟩) (hr : r <+: rest) :
    number c (cs ++ r) = ⟨p, c :: cs, r⟩ := by
  simp only [number, Lexeme.mk.injEq, List.cons.injEq, true_and] at h
  obtain ⟨rfl, rfl, rfl⟩ := h
  obtain ⟨h1, h2⟩ := cut_prefix hr
  simp only [number, h1, h2]

/-- A string literal ends at the same quote when other text is behind it. -/
theorem splitString_shorten {q : Char} {after : Text} (h : (splitString t).2 = q :: after)
    (r : Text) : splitString ((splitString t).1 ++ q :: r) = ((splitString t).1, q :: r) := by
  fun_induction splitString t with
  | case1 => cases h
  | case2 =>
    obtain ⟨rfl, rfl⟩ := List.cons.inj h
    cases r <;> simp [splitString]
  | case3 c hc => cases h
  | case4 d t =>
    obtain ⟨rfl, rfl⟩ := List.cons.inj h
    cases r <;> simp [splitString]
  | case5 d t hc ih =>
    simp only [List.cons_append, splitString, hc, ↓reduceIte, ih h]
  | case6 c d t hc hc' ih =>
    have ih := ih h
    cases hs : (splitString (d :: t)).1 with
    | nil =>
      rw [hs] at ih
      rw [List.cons_append, List.nil_append] at *
      rw [splitString, if_neg hc, if_neg hc', ih]
    | cons e es =>
      rw [hs] at ih
      rw [List.cons_append, List.cons_append, splitString, if_neg hc, if_neg hc',
        ← List.cons_append, ih]

theorem string_shorten (h : string t = ⟨p, '\x22' :: cs, rest⟩) (hr : r <+: rest) :
    string (cs ++ r) = ⟨p, '\x22' :: cs, r⟩ := by
  have happ := splitString_append t
  simp only [string, Lexeme.mk.injEq, List.cons_append, List.cons.injEq, true_and] at h
  obtain ⟨rfl, rfl, rfl⟩ := h
  cases hd : (splitString t).2 with
  | nil =>
    rw [hd] at hr happ
    obtain rfl : r = [] := List.prefix_nil.mp hr
    rw [List.append_nil] at happ
    simp [string, happ, hd]
  | cons q after =>
    have hshort := splitString_shorten hd r
    rw [List.take_succ_cons, List.take_zero, List.append_assoc, List.singleton_append]
    simp only [string, hshort, List.cons_append]
    simp

/-- What stands at the front of the text behind an apostrophe or a digit decides whether a number
begins, unless nothing stands there. -/
theorem beginsNumber_shorten {v : Text} (hv : v ≠ []) (u : Text) :
    beginsNumber c (v ++ u) = beginsNumber c v := by
  obtain ⟨d, v, rfl⟩ := List.exists_cons_of_ne_nil hv
  rfl

theorem beginsNumber_nil : beginsNumber c [] = c.isDigit := by
  simp [beginsNumber]

/-- **A token is the same in a text that ends behind it,** unless it is a bare apostrophe and
nothing is behind it. -/
theorem recognise_shorten (h : recognise c t = ⟨p, c :: cs, rest⟩) (hr : r <+: rest)
    (hne : r ≠ [] ∨ p ≠ Payload.bareApostrophe) : recognise c (cs ++ r) = ⟨p, c :: cs, r⟩ := by
  have ht : t = cs ++ rest := by
    have := text_append_rest_recognise c t
    rw [h] at this
    simpa using this.symm
  have hnum : beginsNumber c (cs ++ r) = beginsNumber c t ∨ cs = [] ∧ r = [] := by
    by_cases hv : cs ++ r = []
    · exact Or.inr (List.append_eq_nil_iff.mp hv)
    · obtain ⟨u, rfl⟩ := hr
      rw [ht, ← List.append_assoc]
      exact Or.inl (beginsNumber_shorten hv u).symm
  unfold recognise at h ⊢
  split_ifs at h with h1 h2 h3 h4 h5
  · subst h1
    exact directive_shorten h hr
  · rw [if_neg h1, if_pos h2]
    exact word_shorten h hr
  · subst h3
    rw [if_neg h1, if_neg h2, if_pos rfl]
    exact escaped_shorten h hr
  · have hbegins : beginsNumber c (cs ++ r) = true := by
      rcases hnum with hnum | ⟨rfl, rfl⟩
      · rw [hnum, h4]
      -- a number of one character that is no digit is a bare apostrophe
      · rw [List.append_nil, beginsNumber_nil]
        by_contra hdigit
        rw [Bool.not_eq_true] at hdigit
        simp only [beginsNumber, hdigit, Bool.false_or, Bool.and_eq_true, beq_iff_eq] at h4
        obtain ⟨rfl, -⟩ := h4
        simp only [number, Lexeme.mk.injEq] at h
        obtain ⟨rfl, htext, -⟩ := h
        rw [htext] at hne
        simp [Payload.bareApostrophe] at hne
    rw [if_neg h1, if_neg h2, if_neg h3, if_pos hbegins]
    exact number_shorten h hr
  all_goals
    have hbegins : ¬ beginsNumber c (cs ++ r) = true := by
      rcases hnum with hnum | ⟨rfl, rfl⟩
      · rwa [hnum]
      · rw [List.append_nil, beginsNumber_nil]
        intro hdigit
        exact h4 (by simp [beginsNumber, hdigit])
  · subst h5
    rw [if_neg h1, if_neg h2, if_neg h3, if_neg hbegins, if_pos rfl]
    exact string_shorten h hr
  · rw [if_neg h1, if_neg h2, if_neg h3, if_neg hbegins, if_neg h5]
    simp only [single, Lexeme.mk.injEq, List.cons.injEq, true_and] at h
    obtain ⟨rfl, rfl, -⟩ := h
    rfl

theorem eq_dollar_of_isWordChar (hw : isWordChar c = true) (hn : isNumberChar c = false) :
    c = '$' := by
  simp only [isNumberChar, Bool.or_eq_false_iff] at hn
  simpa [isWordChar, hn] using hw

/-- **A bare apostrophe stands before a dollar sign.** -/
theorem recognise_bareApostrophe (h : recognise c t = ⟨Payload.bareApostrophe, c :: cs, rest⟩) :
    c = '\x27' ∧ cs = [] ∧ rest.head? = some '$' := by
  unfold recognise at h
  split_ifs at h with h1 h2 h3 h4 h5
  · unfold directive at h
    simp only at h
    split at h <;> cases h
  · exact absurd (congrArg payload h) (Payload.ofWord_ne_number _ _)
  · exact absurd (congrArg payload h) (Payload.ofWord_ne_number _ _)
  · simp only [number, Payload.bareApostrophe, Lexeme.mk.injEq, Payload.number.injEq] at h
    obtain ⟨hname, htext, hrest⟩ := h
    have hchars : c :: t.takeWhile isNumberChar = ['\x27'] := by
      rw [← String.toList_ofList (l := c :: t.takeWhile isNumberChar), hname]
      rfl
    obtain ⟨rfl, htake⟩ := List.cons.inj hchars
    rw [htake] at htext
    refine ⟨rfl, (List.cons.inj htext).2.symm, ?_⟩
    have hdrop := List.takeWhile_append_dropWhile (p := isNumberChar) (l := t)
    rw [htake, hrest, List.nil_append] at hdrop
    subst hdrop
    obtain ⟨d, hd, hword⟩ := (Option.any_eq_true _ _).mp
      (show rest.head?.any isWordChar = true by simpa [beginsNumber] using h4)
    obtain ⟨rest, rfl⟩ := List.head?_eq_some_iff.mp hd
    have hnot : isNumberChar d = false := by
      by_contra hnum
      rw [List.takeWhile_cons_of_pos (by simpa using hnum)] at htake
      cases htake
    rw [eq_dollar_of_isWordChar hword hnot]
    rfl
  · cases h
  · unfold single Payload.ofChar at h
    split at h <;> cases h

end Shorten

end Lexeme

namespace Glyph

theorem Reads.shorten {g : Glyph} {r u : Text} (h : g.Reads (r ++ u))
    (hne : r ≠ [] ∨ g.payload ≠ Payload.bareApostrophe) : g.Reads r := by
  obtain ⟨c, cs, ht, hc, hr⟩ := h.lexeme
  rw [ht] at hr
  refine ⟨h.blank, c, cs, ht, hc, ?_⟩
  rw [ht]
  exact Lexeme.recognise_shorten hr (List.prefix_append r u) hne

/-- **Glyphs are read as they are written in a text that ends behind them,** unless they end with a
bare apostrophe. -/
theorem readAll_shorten : ∀ {gs : List Glyph} {r u : Text}, ReadAll gs (r ++ u) →
    r ≠ [] ∨ Payload.Settled (gs.map Glyph.payload) → ReadAll gs r
  | [], _, _, _, _ => trivial
  | [g], r, u, h, hne => by
    refine ⟨Reads.shorten h.1 ?_, trivial⟩
    simpa [Payload.Settled, eq_comm] using hne
  | g :: g' :: gs, r, u, h, hne => by
    obtain ⟨c, cs, ht, -, -⟩ := h.2.1.lexeme
    refine ⟨?_, readAll_shorten h.2 ?_⟩
    · refine Reads.shorten (u := u) ?_ (Or.inl ?_)
      · rw [List.append_assoc]
        exact h.1
      · simp [spelling, ht]
    · simpa [Payload.Settled, List.getLast?_cons_cons] using hne

end Glyph

end DesignAtlas
