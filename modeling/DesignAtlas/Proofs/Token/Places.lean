import DesignAtlas.Proofs.Position.Behind
import DesignAtlas.Proofs.Token.Follow
import Mathlib.Data.List.Forall2

/-! # Where tokens stand

The ends of a token are places of its text: each is a cut of the text (`isCut_scan`), tokens begin
one after the other (`pairwise_scan`), and the tokens of a text that stands behind another one are
its own tokens moved (`scanFrom_alike`). A text that ends with an `endmodule` keeps its tokens when
a newline and more text follow; only the limit of its last token may move (`scan_newline`). -/

namespace DesignAtlas

open List (Forall₂)

/-- The token `t'` is `t` with its ends moved by `f`; the limit of an `endmodule` may be
anywhere. -/
structure Token.Alike (f : Position → Position) (t t' : Token) : Prop where
  payload : t'.payload = t.payload
  start : t'.span.start = f t.span.start
  limit : t.payload ≠ .keyword .endmodule → t'.span.limit = f t.span.limit

theorem Token.Alike.span {f : Position → Position} {t t' : Token} (h : Token.Alike f t t')
    (hne : t.payload ≠ .keyword .endmodule) : t'.span = t.span.relocate f := by
  obtain ⟨p, s⟩ := t'
  exact (Span.mk.injEq ..).mpr ⟨h.start, h.limit hne⟩

theorem Token.Alike.isSymbol {f : Position → Position} {t t' : Token} (h : Token.Alike f t t')
    (s : Symbol) : t'.isSymbol s = t.isSymbol s := by
  unfold Token.isSymbol; rw [h.payload]

namespace Glyph

/-! ### Cuts and order -/

theorem offset_le_of_mem_place : ∀ {gs : List Glyph} {p : Position} {t : Token},
    t ∈ place p gs → p.offset ≤ t.span.start.offset
  | g :: gs, p, t, h => by
    rw [place_cons] at h
    rcases List.mem_cons.mp h with rfl | h
    · simp [token]
    · have := offset_le_of_mem_place h
      rw [Position.offset_advance] at this
      omega

theorem pairwise_place : ∀ {gs : List Glyph} {rest : Text} {p : Position}, ReadAll gs rest →
    (place p gs).Pairwise fun a b => a.span.start.offset < b.span.start.offset
  | [], _, _, _ => List.Pairwise.nil
  | g :: gs, rest, p, h => by
    rw [place_cons, List.pairwise_cons]
    refine ⟨fun t ht => ?_, pairwise_place h.2⟩
    have hle := offset_le_of_mem_place ht
    obtain ⟨c, cs, htext, -, -⟩ := h.1.lexeme
    have hpos : 0 < Text.byteLength g.text := Text.byteLength_pos (by rw [htext]; simp)
    simp only [token, spelling, Position.offset_advance, Text.byteLength_append] at hle ⊢
    omega

theorem isCut_place : ∀ {gs : List Glyph} {a b : Text} {t : Token},
    t ∈ place (Position.start.advance a) gs →
      Text.IsCut (a ++ spell gs ++ b) t.span.start.offset ∧
      Text.IsCut (a ++ spell gs ++ b) t.span.limit.offset
  | g :: gs, a, b, t, h => by
    rw [place_cons, ← Position.advance_append] at h
    rcases List.mem_cons.mp h with rfl | h
    · refine ⟨⟨a ++ g.gap, g.text ++ spell gs ++ b, by simp [spelling], ?_⟩,
        ⟨a ++ g.spelling, spell gs ++ b, by simp, ?_⟩⟩
      · simp [token, Position.start]
      · simp [token, Position.start]
    · have := isCut_place (b := b) h
      rwa [List.append_assoc a, ← spell_cons] at this

theorem place_behind : ∀ {p : Position}, p.Counted → ∀ (q : Position) (gs : List Glyph),
    Forall₂ (Token.Alike (Position.behind q)) (place p gs) (place (Position.behind q p) gs)
  | _, _, _, [] => .nil
  | p, hp, q, g :: gs => by
    rw [place_cons, place_cons, Position.behind_advance hp]
    refine .cons ⟨rfl, ?_, fun _ => ?_⟩ (place_behind (hp.advance _) q gs)
    · exact Position.behind_advance hp q g.gap
    · exact Position.behind_advance hp q g.spelling

/-- The last token of a text before a newline: the glyphs stay, but the last one may cover the
newline. -/
theorem exists_readAll_newline {gs : List Glyph} {g : Glyph} {tail : Text}
    (hr : ReadAll (gs ++ [g]) tail) (hb : ∀ c ∈ tail, isBlank c = true)
    (hg : g.payload.isOpen g.text = false) :
    ∃ g' tail', (∀ b, ReadAll (gs ++ [g']) (tail' ++ b)) ∧ (∀ c ∈ tail', isBlank c = true) ∧
      g'.payload = g.payload ∧ g'.gap = g.gap ∧ g'.text ++ tail' = g.text ++ tail ++ ['\n'] := by
  by_cases htail : tail = []
  · subst htail
    rw [readAll_append] at hr
    have hgs : ∀ rest, ReadAll gs (spell [g] ++ rest) := by
      intro rest
      have hne : spell [g] ++ [] ≠ [] := by
        obtain ⟨c, cs, ht, -, -⟩ := hr.2.1.lexeme
        simp [spelling, ht]
      simpa using readAll_append_right hr.1 hne rest
    rcases hr.2.1.newline hg with hg | hg
    · refine ⟨g, ['\n'], fun b => ?_, by simp [isBlank_newline], rfl, rfl, by simp⟩
      rw [readAll_append]
      exact ⟨hgs _, hg b, trivial⟩
    · refine ⟨⟨g.gap, g.payload, g.text ++ ['\n']⟩, [], fun b => ?_, by simp, rfl, rfl, by simp⟩
      rw [readAll_append]
      refine ⟨?_, hg b, trivial⟩
      have := hgs ('\n' :: b)
      simpa [spelling] using this
  · refine ⟨g, tail ++ ['\n'], fun b => ?_, ?_, rfl, rfl, by simp⟩
    · rw [List.append_assoc]
      exact readAll_append_right hr htail _
    · intro c hc
      rcases List.mem_append.mp hc with hc | hc
      · exact hb c hc
      · rw [List.mem_singleton.mp hc]; exact isBlank_newline

end Glyph

namespace Token

theorem pairwise_scan (t : Text) :
    (scan t).Pairwise fun a b => a.span.start ≠ b.span.start := by
  obtain ⟨gs, tail, rfl, hb, hr⟩ := Glyph.exists_layout t
  rw [scan, Glyph.scanFrom_spell_blank hr hb]
  refine (Glyph.pairwise_place hr).imp fun hlt he => ?_
  rw [he] at hlt
  exact absurd hlt (Nat.lt_irrefl _)

/-- **A character begins at each end of a token, or the text ends there.** -/
theorem isCut_scan {t : Text} {tok : Token} (h : tok ∈ scan t) :
    t.IsCut tok.span.start.offset ∧ t.IsCut tok.span.limit.offset := by
  obtain ⟨gs, tail, rfl, hb, hr⟩ := Glyph.exists_layout t
  rw [scan, Glyph.scanFrom_spell_blank hr hb] at h
  have := Glyph.isCut_place (a := []) (b := tail) h
  rwa [List.nil_append] at this

/-- **The tokens of a text that begins at `q`** are its tokens moved. -/
theorem scanFrom_alike (q : Position) (t : Text) :
    Forall₂ (Alike (Position.behind q)) (scan t) (scanFrom q t) := by
  obtain ⟨gs, tail, rfl, hb, hr⟩ := Glyph.exists_layout t
  rw [scan, Glyph.scanFrom_spell_blank hr hb, Glyph.scanFrom_spell_blank hr hb]
  exact Glyph.place_behind Position.counted_start q gs

/-! ### A newline behind the last token -/

/-- **Scanning past a keyword at the end of a text.** Behind a newline it begins afresh. -/
theorem scan_newline {a : Text} {tok : Token} {k : Keyword} (h : (scan a).getLast? = some tok)
    (hk : tok.payload = .keyword k) (b : Text) :
    ∃ ts tok', scan a = ts ++ [tok] ∧ tok'.payload = tok.payload ∧
      tok'.span.start = tok.span.start ∧
      scan (a ++ '\n' :: b) = ts ++ tok' :: scanFrom (Position.start.advance (a ++ ['\n'])) b := by
  obtain ⟨gs, tail, rfl, hb, hr⟩ := Glyph.exists_layout a
  have hscan : scan (Glyph.spell gs ++ tail) = Glyph.place Position.start gs :=
    Glyph.scanFrom_spell_blank hr hb _
  rw [hscan] at h ⊢
  rcases List.eq_nil_or_concat gs with rfl | ⟨gs, g, rfl⟩
  · cases h
  rw [List.concat_eq_append] at *
  rw [Glyph.place_append] at h ⊢
  obtain rfl : g.token (Position.start.advance (Glyph.spell gs)) = tok := by
    simpa using h
  have hopen : g.payload.isOpen g.text = false := by
    have hp : g.payload = .keyword k := hk
    rw [hp]
    rfl
  obtain ⟨g', tail', hr', hb', hp, hg, htext⟩ := Glyph.exists_readAll_newline hr hb hopen
  have hs : Glyph.spell (gs ++ [g]) ++ tail ++ ['\n'] = Glyph.spell (gs ++ [g']) ++ tail' := by
    simp only [Glyph.spell_append, Glyph.spell_cons, Glyph.spell_nil, Glyph.spelling,
      List.append_nil, List.append_assoc, hg, htext]
  refine ⟨Glyph.place Position.start gs,
    g'.token (Position.start.advance (Glyph.spell gs)), rfl, hp, ?_, ?_⟩
  · simp only [Glyph.token, hg]
  · rw [List.append_cons, hs, List.append_assoc, scan, Glyph.scanFrom_spell (hr' b),
      Glyph.scanFrom_blanks hb', Glyph.place_append, ← Position.advance_append]
    simp

end Token

end DesignAtlas
