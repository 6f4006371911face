import DesignAtlas.Proofs.Token.Space

/-! # The seam of two texts

Two texts that are written one directly behind the other have the tokens that they have with a space
between them, unless the last token of the first runs into the second (`Text.RunsInto`). This is
exact (`payload_scan_space_iff`): only the last token can feel the space, and it has another payload
when it does. -/

namespace DesignAtlas

open Glyph (spell ReadAll)

/-- The last token of `a` runs into `b`: it is a string literal without an end, or `b` goes on with
it. -/
def Text.RunsInto (a b : Text) : Prop :=
  ∃ tok ∈ (Token.scan a).getLast?, tok.payload.isOpen (tok.span.slice a) = true ∨
    tok.payload.RunsOn ((tok.span.slice a).head? == some '\x5c') a b

instance (a b : Text) : Decidable (a.RunsInto b) :=
  decidable_of_iff ((Token.scan a).getLast?.any (fun tok =>
    tok.payload.isOpen (tok.span.slice a) ||
      decide (tok.payload.RunsOn ((tok.span.slice a).head? == some '\x5c') a b)) = true)
    (by simp [Text.RunsInto, Option.any_eq_true])

namespace Token

/-- The last glyph of a text decides whether the text runs into what follows. -/
theorem runsInto_iff {init : List Glyph} {g : Glyph} {tail : Text}
    (hgs : ReadAll (init ++ [g]) tail) (htail : ∀ c ∈ tail, isBlank c = true) (b : Text) :
    (spell (init ++ [g]) ++ tail).RunsInto b ↔ g.payload.isOpen g.text = true ∨
      g.payload.RunsOn (g.text.head? == some '\x5c') (spell (init ++ [g]) ++ tail) b := by
  have hslice := Span.slice_append (spell init ++ g.gap) g.text tail
  have htext : spell init ++ g.gap ++ g.text ++ tail = spell (init ++ [g]) ++ tail := by
    simp [Glyph.spelling]
  have hlast : (scan (spell (init ++ [g]) ++ tail)).getLast? =
      some (g.token (Position.start.advance (spell init))) := by
    rw [scan, Glyph.scanFrom_spell_blank hgs htail, Glyph.place_append,
      List.getLast?_append_of_ne_nil]
    · rfl
    · exact List.cons_ne_nil _ _
  have hspan : (g.token (Position.start.advance (spell init))).span.slice
      (spell (init ++ [g]) ++ tail) = g.text := by
    rw [htext] at hslice
    rwa [Glyph.token, ← Position.advance_append, ← Position.advance_append, Glyph.spelling,
      ← List.append_assoc]
  simp only [Text.RunsInto, hlast, Option.mem_some, exists_eq_left', hspan]
  rfl

/-- Text directly behind the last token of a text is read with that token. -/
theorem map_payload_append_last {init : List Glyph} {g : Glyph} {c : Char} {cs : Text}
    (hgs : ReadAll (init ++ [g]) []) (ht : g.text = c :: cs) (u : Text) :
    (scan (spell (init ++ [g]) ++ u)).map payload =
      init.map Glyph.payload ++ (Lexeme.recognise c (cs ++ u)).payload ::
        (scan (Lexeme.recognise c (cs ++ u)).rest).map payload := by
  obtain ⟨hinit, hg, -⟩ := Glyph.readAll_append.mp hgs
  have hc : isBlank c = false := by
    obtain ⟨d, ds, hd, hblank, -⟩ := hg.lexeme
    obtain ⟨rfl, -⟩ := List.cons.inj (hd.symm.trans ht)
    exact hblank
  have hread : ReadAll init (g.spelling ++ u) := by
    have := Glyph.readAll_append_right hinit (by simp [Glyph.spelling, ht]) u
    simpa using this
  have hu : spell (init ++ [g]) ++ u = spell init ++ (g.spelling ++ u) := by simp
  rw [hu, map_payload_spell hread, Glyph.spelling, ht, List.append_assoc, List.cons_append,
    map_payload_recognise hg.blank hc]

/-- **A space between two texts** changes their tokens exactly when the last token of the first runs
into the second. -/
theorem payload_scan_space_iff (a b : Text) :
    (scan (a ++ b)).map payload = (scan (a ++ ' ' :: b)).map payload ↔ ¬ a.RunsInto b := by
  obtain ⟨gs, tail, rfl, htail, hgs⟩ := Glyph.exists_layout a
  -- a text of blanks has no token that could run into another
  rcases List.eq_nil_or_concat gs with rfl | ⟨init, g, rfl⟩
  · have hnil : scan tail = [] := Glyph.scanFrom_blank htail
    rw [Glyph.spell_nil, List.nil_append, map_payload_blanks htail, map_payload_blanks htail,
      map_payload_space]
    simp [Text.RunsInto, hnil]
  rw [List.concat_eq_append] at hgs ⊢
  rw [runsInto_iff hgs htail]
  have hg := (Glyph.readAll_append.mp hgs).2.1
  by_cases hne : tail = []
  · subst hne
    obtain ⟨c, cs, ht, hc, hr⟩ := hg.lexeme
    rw [Glyph.spell_nil, List.append_nil, List.append_nil, ht] at hr
    have hseam := Lexeme.spaceMatters_recognise (b := b) hc hr
    have hends : spell (init ++ [g]) = spell init ++ g.gap ++ c :: cs := by
      simp [Glyph.spelling, ht]
    rw [List.append_nil, map_payload_append_last hgs ht, map_payload_append_last hgs ht,
      List.append_cancel_left_eq, List.cons.injEq, hends,
      Payload.runsOn_append (List.cons_ne_nil c cs), ht, List.head?_cons]
    constructor
    · exact fun h hon => hseam.payload_ne hon h.1
    · intro hnot
      refine ⟨hseam.payload_eq hnot, ?_⟩
      rw [← map_payload_trimStart, hseam.rest hnot, map_payload_trimStart]
  · -- the last token has its end, and a blank stands behind it
    have hall : ∀ u, ReadAll (init ++ [g]) (tail ++ u) := Glyph.readAll_append_right hgs hne
    have hscan : ∀ u, (scan (spell (init ++ [g]) ++ tail ++ u)).map payload =
        (init ++ [g]).map Glyph.payload ++ (scan u).map payload := fun u => by
      rw [List.append_assoc, map_payload_spell (hall u), map_payload_blanks htail]
    refine iff_of_true (by rw [hscan, hscan, map_payload_space]) ?_
    rintro (hopen | hrun)
    · obtain ⟨-, -, -, -, -, hnil⟩ := hg.of_isOpen hopen
      exact hne hnil
    · refine Payload.not_runsOn_of_blank (fun x hx => ?_) hrun
      rw [List.getLast?_append_of_ne_nil _ hne] at hx
      exact htail x (List.mem_of_mem_getLast? hx)

end Token

end DesignAtlas
