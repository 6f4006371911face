import DesignAtlas.Proofs.Token.Layout
import Mathlib.Data.List.Infix

/-! # The text between two tokens

A span covers the characters that stand between its two ends (`Covers`); this fixes them, and they
are the slice of the span (`Covers.slice_eq`). Tokens that follow one another in a text are laid out
in a part of it (`exists_layout_of_infix`), so the span from the limit of a token to the start of a
later one covers the text between the two (`covers_between`). -/

namespace DesignAtlas

/-- The text `t` stands in the source between the two ends of the span. -/
def Span.Covers (source : Text) (s : Span) (t : Text) : Prop :=
  ∃ pre post, source = pre ++ t ++ post ∧
    s = ⟨Position.start.advance pre, Position.start.advance (pre ++ t)⟩

/-- **What a span covers is its slice.** -/
theorem Span.Covers.slice_eq {source t : Text} {s : Span} (h : s.Covers source t) :
    s.slice source = t := by
  obtain ⟨pre, post, rfl, rfl⟩ := h
  exact Span.slice_append pre t post

namespace Glyph

theorem place_eq_append : ∀ {gs : List Glyph} {p : Position} {ts us : List Token},
    place p gs = ts ++ us → ∃ as bs, gs = as ++ bs ∧ place p as = ts ∧
      place (p.advance (spell as)) bs = us
  | gs, p, [], us, h => ⟨[], gs, rfl, rfl, h⟩
  | [], p, t :: ts, us, h => by cases h
  | g :: gs, p, t :: ts, us, h => by
    rw [place_cons, List.cons_append, List.cons.injEq] at h
    obtain ⟨as, bs, rfl, h1, h2⟩ := place_eq_append h.2
    refine ⟨g :: as, bs, rfl, ?_, ?_⟩
    · rw [place_cons, h.1, h1]
    · rw [spell_cons, Position.advance_append, h2]

end Glyph

namespace Token

/-- **Tokens that follow one another** are laid out in a part of the text. -/
theorem exists_layout_of_infix {text : Text} {ts : List Token} (h : ts <:+: scan text) :
    ∃ a gs c, text = a ++ Glyph.spell gs ++ c ∧ Glyph.place (Position.start.advance a) gs = ts ∧
      Glyph.ReadAll gs c := by
  obtain ⟨before, after, hts⟩ := h
  obtain ⟨gs, tail, rfl, hb, hr⟩ := Glyph.exists_layout text
  rw [scan, Glyph.scanFrom_spell_blank hr hb] at hts
  obtain ⟨as, bs, rfl, h1, -⟩ := Glyph.place_eq_append hts.symm
  obtain ⟨xs, ys, rfl, -, h2⟩ := Glyph.place_eq_append h1
  rw [Glyph.readAll_append, Glyph.readAll_append] at hr
  exact ⟨Glyph.spell xs, ys, Glyph.spell bs ++ tail, by simp, h2, hr.1.2⟩

/-- **The text between two tokens**, one before the other. -/
theorem covers_between {source : Text} {a b : Token} {mid : List Token}
    (h : a :: (mid ++ [b]) <:+: scan source) :
    ∃ t, Span.Covers source ⟨a.span.limit, b.span.start⟩ t := by
  obtain ⟨pre, gs, post, rfl, hgs, -⟩ := exists_layout_of_infix h
  cases gs with
  | nil => cases hgs
  | cons g gs =>
    rw [Glyph.place_cons, List.cons.injEq] at hgs
    obtain ⟨rfl, hgs⟩ := hgs
    obtain ⟨ms, bs, rfl, -, hb⟩ := Glyph.place_eq_append hgs
    cases bs with
    | nil => cases hb
    | cons g' bs =>
      rw [Glyph.place_cons, List.cons.injEq] at hb
      obtain ⟨rfl, -⟩ := hb
      refine ⟨Glyph.spell ms ++ g'.gap, pre ++ g.spelling, g'.text ++ Glyph.spell bs ++ post,
        ?_, ?_⟩
      · simp [Glyph.spelling]
      · simp

end Token

end DesignAtlas
