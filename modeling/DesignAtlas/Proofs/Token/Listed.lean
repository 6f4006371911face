import DesignAtlas.Proofs.Token.Word
import Mathlib.Data.List.Forall2

/-! # Comma lists

Blocks of glyphs with commas between them. The tokens of a list are those of its blocks, each block
at its own place (`placeListed`), so what is read from the blocks one by one is read from the list
(`forall₂_placeListed`). The source text of placed glyphs is their spelling (`sourceOf_place`). -/

namespace DesignAtlas.Glyph

open List (Forall₂)

/-- The text goes on neither with a word nor with a number. -/
def Stops (t : Text) : Prop := ∀ c ∈ t.head?, isWordChar c = false ∧ isNumberChar c = false

theorem Stops.word {t : Text} (h : Stops t) : ∀ c ∈ t.head?, isWordChar c = false :=
  fun c hc => (h c hc).1

theorem Stops.number {t : Text} (h : Stops t) : ∀ c ∈ t.head?, isNumberChar c = false :=
  fun c hc => (h c hc).2

theorem stops_cons {c : Char} (h1 : isWordChar c = false) (h2 : isNumberChar c = false)
    (t : Text) : Stops (c :: t) := by
  intro d hd
  obtain rfl : c = d := Option.some.inj hd
  exact ⟨h1, h2⟩

theorem stops_space (t : Text) : Stops (' ' :: t) := stops_cons (by decide) (by decide) t

/-! ### The source text of glyphs -/

theorem exists_getLast?_place : ∀ {gs : List Glyph} (p : Position), gs ≠ [] →
    ∃ t, (place p gs).getLast? = some t ∧ t.span.limit = p.advance (spell gs)
  | [], _, h => absurd rfl h
  | [g], p, _ => ⟨g.token p, rfl, by simp [token]⟩
  | g :: h :: gs, p, _ => by
    obtain ⟨t, ht, hl⟩ := exists_getLast?_place (p.advance g.spelling) (List.cons_ne_nil h gs)
    refine ⟨t, ?_, ?_⟩
    · rw [place_cons, List.getLast?_cons, ht]
      rfl
    · rw [hl, spell_cons g, Position.advance_append]

/-- **The source text of placed glyphs** is their spelling, without the blanks before the first. -/
theorem sourceOf_place (a c : Text) (g : Glyph) (gs : List Glyph) :
    Token.sourceOf (a ++ spell (g :: gs) ++ c) (place (Position.start.advance a) (g :: gs)) =
      g.text ++ spell gs := by
  obtain ⟨t, ht, hl⟩ :=
    exists_getLast?_place (Position.start.advance a) (List.cons_ne_nil g gs)
  have hspan : Token.spanOf? (place (Position.start.advance a) (g :: gs)) =
      some ⟨Position.start.advance (a ++ g.gap),
        Position.start.advance (a ++ g.gap ++ (g.text ++ spell gs))⟩ := by
    unfold Token.spanOf?
    rw [ht]
    simp [token, hl, spelling]
  have htext : a ++ spell (g :: gs) ++ c = a ++ g.gap ++ (g.text ++ spell gs) ++ c := by
    simp [spelling]
  unfold Token.sourceOf
  rw [hspan, htext]
  exact Span.slice_append _ _ _

/-! ### Lists -/

/-- Blocks of glyphs with commas between them. -/
def listed : List (List Glyph) → List Glyph
  | [] => []
  | [b] => b
  | b :: b' :: bs => b ++ Symbol.comma.glyph [] :: listed (b' :: bs)

/-- The tokens of the blocks of a list that is written from `p` on. -/
def placeListed (p : Position) : List (List Glyph) → List (List Token)
  | [] => []
  | b :: bs => place p b :: placeListed (p.advance (spell b ++ [','])) bs

theorem spell_listed_cons (b b' : List Glyph) (bs : List (List Glyph)) :
    spell (listed (b :: b' :: bs)) = spell b ++ [','] ++ spell (listed (b' :: bs)) := by
  simp [listed, Symbol.char]

theorem place_listed_cons (p : Position) (b b' : List Glyph) (bs : List (List Glyph)) :
    place p (listed (b :: b' :: bs)) = place p b ++
      (Symbol.comma.glyph []).token (p.advance (spell b)) ::
        place (p.advance (spell b ++ [','])) (listed (b' :: bs)) := by
  rw [listed, place_append, place_cons, Position.advance_append]
  rfl

theorem mem_listed {g : Glyph} : ∀ {bs : List (List Glyph)}, g ∈ listed bs →
    g = Symbol.comma.glyph [] ∨ ∃ b ∈ bs, g ∈ b
  | [b], h => Or.inr ⟨b, by simp, h⟩
  | b :: b' :: bs, h => by
    rw [listed, List.mem_append, List.mem_cons] at h
    rcases h with h | h | h
    · exact Or.inr ⟨b, by simp, h⟩
    · exact Or.inl h
    · rcases mem_listed h with h | ⟨c, hc, h⟩
      · exact Or.inl h
      · exact Or.inr ⟨c, List.mem_cons_of_mem b hc, h⟩

/-- A list is read as it is written when its blocks are. -/
theorem readAll_listed {rest : Text} (hrest : Stops rest) : ∀ {bs : List (List Glyph)},
    (∀ b ∈ bs, ∀ u, Stops u → ReadAll b u) → ReadAll (listed bs) rest
  | [], _ => trivial
  | [b], h => h b (by simp) rest hrest
  | b :: b' :: bs, h => by
    rw [listed]
    refine readAll_append.mpr ⟨h b (by simp) _ ?_, ?_⟩
    · exact stops_cons (by decide) (by decide) _
    · exact ⟨Symbol.comma.reads blank_nil _,
        readAll_listed hrest fun c hc => h c (List.mem_cons_of_mem b hc)⟩

/-- **A list is read block by block.** -/
theorem forall₂_placeListed {β : Type} (text : Text) {R : List Token → β → Prop} :
    ∀ {bs : List (List Glyph)} {vs : List β},
      Forall₂ (fun b v => ∀ a c : Text, text = a ++ spell b ++ c →
        R (place (Position.start.advance a) b) v) bs vs →
      ∀ a c : Text, text = a ++ spell (listed bs) ++ c →
        Forall₂ R (placeListed (Position.start.advance a) bs) vs
  | [], [], .nil, _, _, _ => .nil
  | [b], [v], .cons h .nil, a, c, ht => .cons (h a c ht) .nil
  | b :: b' :: bs, v :: vs, .cons h hs, a, c, ht => by
    rw [spell_listed_cons] at ht
    refine .cons (h a ([','] ++ spell (listed (b' :: bs)) ++ c) (by rw [ht]; simp)) ?_
    rw [← Position.advance_append]
    exact forall₂_placeListed text hs _ c (by rw [ht]; simp)

end DesignAtlas.Glyph
