import DesignAtlas.Instance
import DesignAtlas.Proofs.Text.Pieces
import DesignAtlas.Proofs.Token.Literal

/-! # The callee of a statement with a string literal

Whether a statement is taken for an instantiation is told by its words, and words are found inside
string literals too. Contents of one shape have parentheses alike, and as many words of which the
same ones are assignment signs (`Text.SameShape`). With such a content in the place of another one,
a statement is taken for the instantiation of the same module (`Instance.callee_of_literal`): a
word with a quote is no assignment sign, and the identifier in front of it ends before the quote.
-/

namespace DesignAtlas

open Text (literal LiteralAt words)

/-! ### The words around a literal -/

namespace Text

/-- **The words around a literal** stay; the first and the last word of the literal go on with what
stands directly before and behind it. -/
theorem exists_words_around (u v : Text) : ∃ ws p q vs, (∀ c ∈ p, isBlank c = false) ∧
    (∀ c ∈ q, isBlank c = false) ∧ (∃ w, u = w ++ p ∧ words w = ws) ∧
      ∀ x, words (u ++ x ++ v) = ws ++ words (p ++ x ++ q) ++ vs := by
  obtain ⟨w, p, rfl, hp, hw⟩ := exists_solid_end u
  obtain ⟨q, y, rfl, hq, hy⟩ := exists_solid_front v
  refine ⟨words w, p, q, words y, hp, hq, ⟨w, rfl, rfl⟩, fun x => ?_⟩
  have hback : words (p ++ x ++ q ++ y) = words (p ++ x ++ q) ++ words y := by
    rcases hy with rfl | ⟨b, z, rfl, hb⟩
    · rw [List.append_nil]
      exact (List.append_nil _).symm
    · rw [words_append_blank hb, words_cons_blank hb]
  have htext : w ++ p ++ x ++ (q ++ y) = w ++ (p ++ x ++ q ++ y) := by simp
  rw [htext, hw, hback, ← List.append_assoc]

/-- **The words of a literal** between characters that are not blank: one word, or a first word with
the opening quote and a last one with the closing quote. -/
theorem words_literal (c : Text) :
    (∀ p q : Text, (∀ d ∈ p, isBlank d = false) → (∀ d ∈ q, isBlank d = false) →
      words (p ++ literal c ++ q) = [p ++ '\x22' :: (c ++ '\x22' :: q)]) ∨
    ∃ first ws last, ∀ p q : Text, (∀ d ∈ p, isBlank d = false) → (∀ d ∈ q, isBlank d = false) →
      words (p ++ literal c ++ q) = (p ++ '\x22' :: first) :: (ws ++ [last ++ '\x22' :: q]) := by
  have hquote : isBlank '\x22' = false := by decide
  have hsolid : ∀ x y : Text, (∀ d ∈ x, isBlank d = false) → (∀ d ∈ y, isBlank d = false) →
      ∀ d ∈ x ++ '\x22' :: y, isBlank d = false := fun x y hx hy =>
    List.forall_mem_append.mpr ⟨hx, List.forall_mem_cons.mpr ⟨hquote, hy⟩⟩
  obtain ⟨first, w, rfl, hfirst, hw⟩ := exists_solid_front c
  rcases hw with rfl | ⟨b, x, rfl, hb⟩
  · left
    intro p q hp hq
    have htext : p ++ literal (first ++ []) ++ q = p ++ '\x22' :: (first ++ '\x22' :: q) := by
      simp [literal]
    rw [htext, List.append_nil, words_of_solid (by simp) (hsolid p _ hp (hsolid first q hfirst hq))]
  · right
    obtain ⟨y, last, rfl, hlast, hy⟩ := exists_solid_end x
    refine ⟨first, words y, last, fun p q hp hq => ?_⟩
    have htext : p ++ literal (first ++ b :: (y ++ last)) ++ q =
        (p ++ '\x22' :: first) ++ b :: (y ++ (last ++ '\x22' :: q)) := by simp [literal]
    rw [htext, words_cons_word (by simp) (hsolid p first hp hfirst) hb, hy,
      words_of_solid (by simp) (hsolid last q hlast hq)]

end Text

namespace Instance

theorem isAssignment_quote (x y : Text) : isAssignment (x ++ '\x22' :: y) = false := by
  have hne : ∀ w : Text, '\x22' ∉ w → (x ++ '\x22' :: y == w) = false := by
    intro w hw
    rw [beq_eq_false_iff_ne]
    rintro rfl
    exact hw (by simp)
  unfold isAssignment
  rw [hne _ (by decide), hne _ (by decide)]
  rfl

/-- What stands directly around a literal changes none of its words into an assignment sign or back,
and the first one begins with what stands before the quote. -/
theorem words_around_literal (c : Text) {p q : Text} (hp : ∀ d ∈ p, isBlank d = false)
    (hq : ∀ d ∈ q, isBlank d = false) :
    (words (p ++ literal c ++ q)).map isAssignment = (words (literal c)).map isAssignment ∧
      ∃ r ws, words (p ++ literal c ++ q) = (p ++ '\x22' :: r) :: ws := by
  have hliteral : literal c = [] ++ literal c ++ [] := by rw [List.nil_append, List.append_nil]
  rcases Text.words_literal c with h | ⟨first, ws, last, h⟩
  · refine ⟨?_, _, _, h p q hp hq⟩
    rw [h p q hp hq, hliteral, h [] [] (by simp) (by simp), List.map_singleton, List.map_singleton,
      isAssignment_quote, isAssignment_quote]
  · refine ⟨?_, _, _, h p q hp hq⟩
    rw [h p q hp hq, hliteral, h [] [] (by simp) (by simp)]
    simp only [List.map_cons, List.map_append, List.map_nil, isAssignment_quote]

/-! ### The callee by the words -/

/-- The identifier in front of a word that is not reserved. -/
def calleeIn? (o : Options) (w : Text) : Option String :=
  if o.isReserved (String.ofList w) then none else (calleeOf? w).map String.ofList

/-- **The callee is told by the first word**, where there are three words, of which the second is no
assignment sign, and a parenthesis. -/
theorem callee_ofStatement? (o : Options) (s : Statement) :
    (ofStatement? o s).map callee =
      if '(' ∈ s.text ∧ 3 ≤ ((words s.text).map isAssignment).length ∧
          ((words s.text).map isAssignment)[1]? = some false then
        (words s.text).head?.bind (calleeIn? o)
      else none := by
  unfold ofStatement? calleeIn?
  match words s.text with
  | [] | [_] | [_, _] => simp
  | w :: v :: u :: us =>
    by_cases hp : '(' ∈ s.text
    · by_cases hv : isAssignment v = true
      · simp [hv]
      · by_cases hr : o.isReserved (String.ofList w) = true
        · simp [hv, hr]
        · simp [hp, hv, hr, Function.comp_def]
    · simp [hp]

/-- No reserved word holds a quote, if none of those added does. -/
theorem quote_not_mem_of_isReserved {o : Options}
    (ho : ∀ w ∈ o.extraReservedWords, '\x22' ∉ w.toList) {w : String} (h : o.isReserved w = true) :
    '\x22' ∉ w.toList := by
  have hwords : ∀ w ∈ reservedWords, '\x22' ∉ w.toList := by decide
  unfold Options.isReserved at h
  rw [Bool.or_eq_true, List.contains_iff_mem, List.contains_iff_mem] at h
  exact h.elim (hwords w) (ho w)

/-- The identifier in front of a word ends before a quote. -/
theorem calleeIn?_quote {o : Options} (ho : ∀ w ∈ o.extraReservedWords, '\x22' ∉ w.toList)
    {p : Text} (hp : p.head? ≠ some '\x5c') (r r' : Text) :
    calleeIn? o (p ++ '\x22' :: r') = calleeIn? o (p ++ '\x22' :: r) := by
  have hfree : ∀ r : Text, o.isReserved (String.ofList (p ++ '\x22' :: r)) = false := by
    intro r
    rw [← Bool.not_eq_true]
    intro h
    exact quote_not_mem_of_isReserved ho h (by simp)
  have hcallee : calleeOf? (p ++ '\x22' :: r') = calleeOf? (p ++ '\x22' :: r) := by
    cases p with
    | nil => rfl
    | cons d p =>
      have hd : d ≠ '\x5c' := fun h => hp (by rw [h, List.head?_cons])
      rw [List.cons_append, List.cons_append, calleeOf?, calleeOf?, if_neg hd, if_neg hd,
        Text.takeWhile_append_cons (by decide), Text.takeWhile_append_cons (by decide)]
  unfold calleeIn?
  rw [hfree, hfree, hcallee]

end Instance

/-! ### Another content in the literal -/

/-- No escaped identifier runs up to a literal that is a token. -/
theorem Text.LiteralAt.head?_ne {w p c z : Text} (h : LiteralAt (w ++ p) c z)
    (hw : ∀ d ∈ w, isBlank d = true) (hp : ∀ d ∈ p, isBlank d = false) :
    p.head? ≠ some '\x5c' := by
  intro hhead
  obtain ⟨p, rfl⟩ := List.head?_eq_some_iff.mp hhead
  obtain ⟨gs, gap, -, -, htext, -, hgap, -, hread, -⟩ := h.exists_layout
  have hback : isBlank '\x5c' = false := by decide
  cases gs with
  | nil =>
    have hmem : '\x5c' ∈ gap := by
      rw [Glyph.spell_nil, List.nil_append] at htext
      rw [← htext]
      simp
    rw [hgap _ hmem] at hback
    cases hback
  | cons g gs =>
    obtain ⟨hblank, d, cs, hg, hd, hlexeme⟩ := (hread []).1
    -- the first glyph begins with the backslash, and what stands behind it is all of `p`
    have hsplit : w ++ '\x5c' :: p = g.gap ++ d :: (cs ++ Glyph.spell gs ++ gap) := by
      rw [htext, Glyph.spell_cons, Glyph.spelling, hg]
      simp
    have hdrop := congrArg (List.dropWhile isBlank) hsplit
    rw [List.dropWhile_append_of_pos hw, List.dropWhile_append_of_pos hblank,
      List.dropWhile_cons_of_neg (by simp [hback]), List.dropWhile_cons_of_neg (by simp [hd]),
      List.cons.injEq] at hdrop
    obtain ⟨rfl, hrest⟩ := hdrop
    have hname : ∀ e ∈ p ++ ['\x22'], (!isBlank e) = true := by
      intro e he
      rcases List.mem_append.mp he with he | he
      · rw [hp e (List.mem_cons_of_mem _ he), Bool.not_false]
      · rw [List.mem_singleton.mp he]
        decide
    have hbehind : cs ++ (Glyph.spell gs ++ (gap ++ '\x22' :: [])) = p ++ ['\x22'] := by
      rw [hrest]
      simp
    rw [hbehind, Lexeme.recognise_backslash, Lexeme.escaped, Lexeme.mk.injEq] at hlexeme
    -- the identifier takes the quote, so nothing is left behind it
    have hrest' := hlexeme.2.2
    rw [List.dropWhile_eq_nil_iff.mpr hname] at hrest'
    simp at hrest'

/-- The literals are taken alike among the words of a statement: their contents have parentheses
alike, and they have as many words, of which the same ones are assignment signs. -/
structure Text.SameShape (c c' : Text) : Prop where
  parenthesis : '(' ∈ c' ↔ '(' ∈ c
  words : (words (literal c')).map Instance.isAssignment =
    (words (literal c)).map Instance.isAssignment

instance (c c' : Text) : Decidable (Text.SameShape c c') :=
  decidable_of_iff (('(' ∈ c' ↔ '(' ∈ c) ∧ (words (literal c')).map Instance.isAssignment =
    (words (literal c)).map Instance.isAssignment) ⟨fun h => ⟨h.1, h.2⟩, fun h => ⟨h.1, h.2⟩⟩

namespace Instance

/-- **Another content of the same shape in a literal** leaves the callee of a statement. -/
theorem callee_of_literal {o : Options} (ho : ∀ w ∈ o.extraReservedWords, '\x22' ∉ w.toList)
    {u c c' v : Text} (hshape : Text.SameShape c c') (h : LiteralAt u c v) {s s' : Statement}
    (hs : s.text = u ++ literal c ++ v) (hs' : s'.text = u ++ literal c' ++ v) :
    (ofStatement? o s').map callee = (ofStatement? o s).map callee := by
  obtain ⟨ws, p, q, vs, hp, hq, ⟨w, rfl, hw⟩, hwords⟩ := Text.exists_words_around u v
  obtain ⟨hsigns, r, rs, hfirst⟩ := words_around_literal c hp hq
  obtain ⟨hsigns', r', rs', hfirst'⟩ := words_around_literal c' hp hq
  have hparenthesis : '(' ∈ s'.text ↔ '(' ∈ s.text := by
    simp only [hs, hs', literal, List.mem_append, List.mem_cons, hshape.parenthesis]
  have hassign : (words s'.text).map isAssignment = (words s.text).map isAssignment := by
    rw [hs, hs', hwords, hwords, List.map_append, List.map_append, List.map_append, List.map_append,
      hsigns, hsigns', hshape.words]
  have hcallee : (words s'.text).head?.bind (calleeIn? o) =
      (words s.text).head?.bind (calleeIn? o) := by
    rw [hs, hs', hwords, hwords]
    cases ws with
    | cons x ws => rfl
    | nil =>
      -- the literal is part of the first word, and no escaped identifier is
      have hhead := h.head?_ne (Text.words_eq_nil_iff.mp hw) hp
      rw [hfirst, hfirst']
      exact calleeIn?_quote ho hhead r r'
  rw [callee_ofStatement?, callee_ofStatement?, hassign, hcallee]
  simp only [hparenthesis]

end Instance

end DesignAtlas
