import DesignAtlas.Proofs.Position.Truthful
import DesignAtlas.Proofs.Reader.Cursor
import DesignAtlas.Proofs.Token.Places
import Mathlib.Data.List.Pairwise

/-! # The spans of the tokens of a text

The tokens of a text stand one behind the other, each between two places where a character begins,
and what stands outside of them is blank (`Token.Partition`). So each character that is not blank is
in one token, and in no other (`Partition.existsUnique`). Taking the tokens comes to an end, after
no more of them than the text has characters (`Reader.length_collect_le`). -/

namespace DesignAtlas

/-- The character `c`, behind the text `pre`, lies between the ends of the span. -/
def Span.Holds (s : Span) (pre : Text) (c : Char) : Prop :=
  s.start.offset ≤ pre.byteLength ∧ pre.byteLength + c.utf8Size ≤ s.limit.offset

/-- A character of two texts put together is one of the first or one of the second. -/
theorem Text.append_eq_append_cons {x y pre post : Text} {c : Char}
    (h : x ++ y = pre ++ c :: post) :
    (∃ d, x = pre ++ c :: d ∧ post = d ++ y) ∨ ∃ d, pre = x ++ d ∧ y = d ++ c :: post := by
  rcases List.append_eq_append_iff.mp h with ⟨d, hpre, hy⟩ | ⟨d, hx, hpost⟩
  · exact Or.inr ⟨d, hpre, hy⟩
  · rcases List.cons_eq_append_iff.mp hpost with ⟨rfl, hy⟩ | ⟨d', rfl, hpost'⟩
    · exact Or.inr ⟨[], by simp [hx], hy⟩
    · exact Or.inl ⟨d', hx, hpost'⟩

/-- There are no more tokens left than the bound that goes down with each of them. -/
theorem Reader.length_collect_le (r : Reader) : r.collect.length ≤ r.remaining := by
  fun_induction collect r with
  | case1 r s h => exact Nat.zero_le _
  | case2 r tok s h ih =>
    rw [List.length_cons]
    exact Nat.lt_of_le_of_lt ih (remaining_pop_lt h)

/-! ### The tokens of glyphs -/

namespace Glyph

theorem pairwise_place_limit : ∀ (gs : List Glyph) (p : Position),
    (place p gs).Pairwise fun a b => a.span.limit.offset ≤ b.span.start.offset
  | [], _ => List.Pairwise.nil
  | g :: gs, p => by
    rw [place_cons, List.pairwise_cons]
    exact ⟨fun _ ht => offset_le_of_mem_place ht, pairwise_place_limit gs _⟩

theorem start_lt_limit_of_mem_place : ∀ {gs : List Glyph} {rest : Text} {p : Position}
    {tok : Token}, ReadAll gs rest → tok ∈ place p gs →
      tok.span.start.offset < tok.span.limit.offset
  | g :: gs, rest, p, tok, h, ht => by
    rw [place_cons] at ht
    rcases List.mem_cons.mp ht with rfl | ht
    · obtain ⟨c, cs, htext, -, -⟩ := h.1.lexeme
      have hpos : 0 < Text.byteLength g.text := Text.byteLength_pos (by rw [htext]; simp)
      rw [start_token, limit_token, Position.offset_advance, Position.offset_advance, spelling,
        Text.byteLength_append]
      omega
    · exact start_lt_limit_of_mem_place h.2 ht

/-- The token of a glyph holds each of the glyph's characters behind the gap. -/
theorem holds_token {g : Glyph} {a e post : Text} {c : Char} (h : g.text = e ++ c :: post) :
    (g.token (Position.start.advance a)).span.Holds (a ++ (g.gap ++ e)) c := by
  refine ⟨?_, ?_⟩
  · rw [start_token, ← Position.advance_append, Position.offset_start_advance,
      Text.byteLength_append, Text.byteLength_append, Text.byteLength_append]
    omega
  · rw [limit_token, ← Position.advance_append, Position.offset_start_advance, spelling, h]
    simp only [Text.byteLength_append, Text.byteLength_cons]
    omega

/-- **A character that is not blank** is in the token of a glyph. -/
theorem exists_holds : ∀ {gs : List Glyph} {rest a pre post : Text} {c : Char},
    ReadAll gs rest → (∀ d ∈ rest, isBlank d = true) → isBlank c = false →
      spell gs ++ rest = pre ++ c :: post →
        ∃ tok ∈ place (Position.start.advance a) gs, tok.span.Holds (a ++ pre) c
  | [], rest, a, pre, post, c, _, hrest, hc, h => by
    have hblank := hrest c (by rw [show rest = pre ++ c :: post from h]; simp)
    rw [hc] at hblank
    cases hblank
  | g :: gs, rest, a, pre, post, c, hr, hrest, hc, h => by
    rw [spell_cons, List.append_assoc] at h
    rw [place_cons, ← Position.advance_append]
    rcases Text.append_eq_append_cons h with ⟨d, hd, -⟩ | ⟨d, rfl, hd⟩
    · -- the character is in the spelling of `g`, and not in its gap
      have hgap : c ∉ g.gap := by
        intro hmem
        rw [hr.1.blank c hmem] at hc
        cases hc
      rcases Text.append_eq_append_cons hd with ⟨e, he, -⟩ | ⟨e, rfl, htext⟩
      · exact absurd (by rw [he]; simp) hgap
      · exact ⟨_, List.mem_cons_self, holds_token htext⟩
    · obtain ⟨tok, htok, hholds⟩ := exists_holds (a := a ++ g.spelling) hr.2 hrest hc hd
      rw [List.append_assoc] at hholds
      exact ⟨tok, List.mem_cons_of_mem _ htok, hholds⟩

end Glyph

/-! ### The tokens of a text -/

namespace Token

/-- The tokens stand one behind the other in the text, and there are only blanks around them. -/
structure Partition (t : Text) (ts : List Token) : Prop where
  /-- No token is empty. -/
  nonempty : ∀ tok ∈ ts, tok.span.start.offset < tok.span.limit.offset
  /-- A token ends before the tokens behind it begin. -/
  ordered : ts.Pairwise fun a b => a.span.limit.offset ≤ b.span.start.offset
  within : ∀ tok ∈ ts, tok.span.limit.offset ≤ t.byteLength
  /-- A character begins at each end of a token, or the text ends there. -/
  cut : ∀ tok ∈ ts, t.IsCut tok.span.start.offset ∧ t.IsCut tok.span.limit.offset
  /-- What no token holds is blank. -/
  blank : ∀ pre c post, t = pre ++ c :: post → (∀ tok ∈ ts, ¬ tok.span.Holds pre c) →
    isBlank c = true

section

variable {t : Text} {ts : List Token}

/-- Two tokens that stand one behind the other have no character in common. -/
theorem not_holds_both {a b : Token} (h : a.span.limit.offset ≤ b.span.start.offset) (pre : Text)
    (c : Char) : ¬ (a.span.Holds pre c ∧ b.span.Holds pre c) := by
  rintro ⟨⟨-, ha⟩, hb, -⟩
  have := c.utf8Size_pos
  omega

theorem Partition.eq_of_holds (h : Partition t ts) {pre : Text} {c : Char} {a b : Token}
    (ha : a ∈ ts) (hb : b ∈ ts) (hac : a.span.Holds pre c) (hbc : b.span.Holds pre c) : a = b := by
  have : Std.Symm fun a b : Token => ¬ (a.span.Holds pre c ∧ b.span.Holds pre c) :=
    ⟨fun _ _ hab hba => hab hba.symm⟩
  have hapart := h.ordered.imp fun hab => not_holds_both hab pre c
  by_contra hne
  exact hapart.forall ha hb hne ⟨hac, hbc⟩

/-- **A character that is not blank** is in exactly one token. -/
theorem Partition.existsUnique (h : Partition t ts) {pre post : Text} {c : Char}
    (ht : t = pre ++ c :: post) (hc : isBlank c = false) :
    ∃! tok, tok ∈ ts ∧ tok.span.Holds pre c := by
  have hsome : ∃ tok ∈ ts, tok.span.Holds pre c := by
    by_contra hnone
    have hblank := h.blank pre c post ht fun tok htok hholds => hnone ⟨tok, htok, hholds⟩
    rw [hc] at hblank
    cases hblank
  obtain ⟨tok, htok, hholds⟩ := hsome
  exact ⟨tok, ⟨htok, hholds⟩, fun u hu => h.eq_of_holds hu.1 htok hu.2 hholds⟩

end

theorem partition_scan (t : Text) : Partition t (scan t) := by
  obtain ⟨gs, tail, rfl, hb, hr⟩ := Glyph.exists_layout t
  have hscan : scan (Glyph.spell gs ++ tail) = Glyph.place Position.start gs :=
    Glyph.scanFrom_spell_blank hr hb _
  refine ⟨fun tok htok => ?_, ?_, fun tok htok => ?_, fun tok htok => isCut_scan htok,
    fun pre c post ht hnone => ?_⟩
  · rw [hscan] at htok
    exact Glyph.start_lt_limit_of_mem_place hr htok
  · rw [hscan]
    exact Glyph.pairwise_place_limit gs _
  · obtain ⟨a, b, ht, hlimit⟩ := (isCut_scan htok).2
    rw [ht, hlimit, Text.byteLength_append]
    exact Nat.le_add_right _ _
  · by_contra hc
    obtain ⟨tok, htok, hholds⟩ :=
      Glyph.exists_holds (a := []) hr hb (Bool.eq_false_iff.mpr hc) ht
    exact hnone tok (hscan ▸ htok) hholds

/-- **The spans of the tokens partition a text.** Taking its tokens ends, after at most as many of
them as it has characters. The tokens stand one behind the other, each between two places where a
character begins, with blanks only around them; so each character that is not blank is in exactly
one token. -/
theorem spans_partition (t : Text) :
    (Reader.ofText t).collect = scan t ∧ (scan t).length ≤ t.length ∧ Partition t (scan t) ∧
      ∀ pre c post, t = pre ++ c :: post → isBlank c = false →
        ∃! tok, tok ∈ scan t ∧ tok.span.Holds pre c := by
  have hcollect : (Reader.ofText t).collect = scan t := Reader.collect_eq_unread _
  refine ⟨hcollect, ?_, partition_scan t, fun pre c post ht hc =>
    (partition_scan t).existsUnique ht hc⟩
  rw [← hcollect]
  exact Reader.length_collect_le (Reader.ofText t)

end Token

end DesignAtlas
