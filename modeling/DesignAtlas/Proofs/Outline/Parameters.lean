import DesignAtlas.Proofs.Outline.Basic
import DesignAtlas.Proofs.Parameter.Declarator

/-! # The parameter block of an outline

A printed parameter is one segment of the block and declares the parameter that it is
(`ofSegment?_glyphs`). The block cuts into its parameters at the commas (`segments_listed`), so it
is read back and nothing is rejected (`Parameter.ofBlock_print`). -/

namespace DesignAtlas

open List (Forall₂)

namespace Parameter

/-! ### Cutting the block -/

/-- **A list of parameters is cut into its parameters.** -/
theorem segments_listed : ∀ (bs : List (List Glyph)) (p : Position),
    (∀ b ∈ bs, b ≠ [] ∧ ∀ g ∈ b, flat g.payload = true) →
      segments (Glyph.place p (Glyph.listed bs)) = Glyph.placeListed p bs
  | [], _, _ => rfl
  | b :: bs, p, h => by
    obtain ⟨hne, hb⟩ := h b (by simp)
    have hplace : Glyph.place p b ≠ [] := by
      obtain ⟨g, gs, rfl⟩ := List.exists_cons_of_ne_nil hne
      simp
    have hwhole : Whole (Glyph.place p b) := by
      refine whole_of_flat fun t ht => ?_
      obtain ⟨g, hg, hp⟩ := Glyph.mem_place ht
      rw [hp]
      exact hb g hg
    rcases bs with _ | ⟨b', bs⟩
    · simp [segments, Glyph.listed, Glyph.placeListed, hwhole.runs_eq, hplace]
    · have ih := segments_listed (b' :: bs) (p.advance (Glyph.spell b ++ [',']))
        fun c hc => h c (List.mem_cons_of_mem b hc)
      unfold segments at ih ⊢
      rw [Glyph.place_listed_cons, hwhole.runs_comma rfl,
        List.filter_cons_of_pos (by simpa using hplace), ih]
      rfl

end Parameter

/-! ### A parameter as glyphs -/

variable {o : Options}

namespace Value

/-- The value as a glyph. -/
def glyph (gap : Text) : Value o → Glyph
  | .word w => w.glyph gap
  | .numeral n => n.glyph gap

theorem text_glyph (gap : Text) (v : Value o) : (v.glyph gap).text = v.text := by
  cases v <;> rfl

theorem spelling_glyph (gap : Text) (v : Value o) : (v.glyph gap).spelling = gap ++ v.text := by
  cases v <;> rfl

theorem reads {gap : Text} (hgap : ∀ c ∈ gap, isBlank c = true) (v : Value o) {rest : Text}
    (hrest : Glyph.Stops rest) : (v.glyph gap).Reads rest := by
  cases v with
  | word w => exact w.reads hgap hrest.word
  | numeral n => exact n.reads hgap hrest.number

theorem flat_glyph (gap : Text) (v : Value o) :
    Parameter.flat (v.glyph gap).payload = true := by
  cases v with
  | word w => rw [glyph, Word.payload_glyph w.free.identifier]; rfl
  | numeral n => rfl

/-- A value is one word. -/
theorem collapse_text (v : Value o) : Text.collapse v.text = v.text := by
  have hwords : Text.words v.text = [v.text] := by
    cases v with
    | word w => exact Text.words_of_solid w.text_ne_nil fun c => Word.isBlank_of_mem
    | numeral n => exact Text.words_of_solid n.text_ne_nil fun c => Numeral.isBlank_of_mem
  rw [Text.collapse, hwords]
  simp [List.intercalate]

end Value

namespace Outline

/-- The parameter as glyphs, with `gap` before the first. -/
def parameterGlyphs (gap : Text) (p : Identifier o × Value o) : List Glyph :=
  [Keyword.parameter.glyph gap, p.1.glyph [' '], Symbol.equals.glyph [' '], p.2.glyph [' ']]

theorem spell_parameterGlyphs (gap : Text) (p : Identifier o × Value o) :
    Glyph.spell (parameterGlyphs gap p) = gap ++ printParameter p := by
  have hword : "parameter ".toList = Keyword.parameter.word.toList ++ [' '] := by decide
  have hequals : " = ".toList = [' ', '=', ' '] := by decide
  unfold printParameter
  rw [hword, hequals]
  simp [parameterGlyphs, Value.spelling_glyph, Symbol.char]

theorem readAll_parameterGlyphs {gap : Text} (hgap : ∀ c ∈ gap, isBlank c = true)
    (p : Identifier o × Value o) {rest : Text} (hrest : Glyph.Stops rest) :
    Glyph.ReadAll (parameterGlyphs gap p) rest := by
  refine ⟨Keyword.reads _ hgap ?_, p.1.reads blank_space ?_, Symbol.reads _ blank_space _,
    p.2.reads blank_space hrest, trivial⟩
  · exact (Glyph.stops_space _).word
  · exact (Glyph.stops_space _).word

theorem flat_of_mem_parameterGlyphs {gap : Text} {p : Identifier o × Value o} :
    ∀ g ∈ parameterGlyphs gap p, Parameter.flat g.payload = true := by
  intro g hg
  simp only [parameterGlyphs, List.mem_cons, List.not_mem_nil, or_false] at hg
  rcases hg with rfl | rfl | rfl | rfl
  · rfl
  · rw [Word.payload_glyph p.1.free.identifier]; rfl
  · rfl
  · exact p.2.flat_glyph _

theorem flat_of_mem_blocks (ps : List (Identifier o × Value o)) :
    ∀ b ∈ blocks parameterGlyphs ps, b ≠ [] ∧ ∀ g ∈ b, Parameter.flat g.payload = true := by
  intro b hb
  obtain ⟨gap, -, p, -, rfl⟩ := mem_blocks hb
  exact ⟨List.cons_ne_nil _ _, flat_of_mem_parameterGlyphs⟩

/-! ### Reading a parameter -/

/-- The glyphs behind the keyword. -/
def bindingGlyphs (p : Identifier o × Value o) : List Glyph :=
  [p.1.glyph [' '], Symbol.equals.glyph [' '], p.2.glyph [' ']]

theorem declarator?_place (p : Identifier o × Value o) (a c : Text) :
    Parameter.declarator? (a ++ Glyph.spell (bindingGlyphs p) ++ c)
      (Glyph.place (Position.start.advance a) (bindingGlyphs p)) = some (parameter p) := by
  have hname := Word.identifier?_token p.1.free.identifier [' '] (Position.start.advance a)
  have hvalue := Glyph.sourceOf_place (a ++ (' ' :: p.1.text ++ [' ', '='])) c (p.2.glyph [' ']) []
  have htext : a ++ (' ' :: p.1.text ++ [' ', '=']) ++ Glyph.spell [p.2.glyph [' ']] ++ c =
      a ++ Glyph.spell (bindingGlyphs p) ++ c := by
    simp [bindingGlyphs, Symbol.char]
  rw [htext, Glyph.spell_nil, List.append_nil, Value.text_glyph] at hvalue
  have hplace : Glyph.place (Position.start.advance a) (bindingGlyphs p) =
      (p.1.glyph [' ']).token (Position.start.advance a) ::
        (Symbol.equals.glyph [' ']).token (Position.start.advance (a ++ ' ' :: p.1.text)) ::
          Glyph.place (Position.start.advance (a ++ (' ' :: p.1.text ++ [' ', '='])))
            [p.2.glyph [' ']] := by
    simp [bindingGlyphs, Symbol.char]
  have hne : Glyph.place (Position.start.advance (a ++ (' ' :: p.1.text ++ [' ', '='])))
      [p.2.glyph [' ']] ≠ [] := List.cons_ne_nil _ _
  have hequals := Symbol.payload_token [' '] .equals (Position.start.advance (a ++ ' ' :: p.1.text))
  -- a binding is a declarator without words and ranges
  have hread := @Parameter.declarator?_of_parts none none [] _ _ _
    (a ++ Glyph.spell (bindingGlyphs p) ++ c) (fun t ht => absurd ht (Option.not_mem_none t))
    (fun t ht => absurd ht (Option.not_mem_none t)) (fun _ hr => absurd hr List.not_mem_nil) hname
    p.1.free.noSigning hequals _ hne
  rw [hplace]
  refine hread.trans ?_
  rw [Parameter.valueOf, hvalue, Value.collapse_text]
  rfl

/-- **A parameter reads as it is declared,** whatever stands before it in the block. -/
theorem ofSegment?_glyphs (p : Identifier o × Value o) (inherited : Option (Option String))
    (gap a c : Text) :
    Parameter.ofSegment? (a ++ Glyph.spell (parameterGlyphs gap p) ++ c) o inherited
      (Glyph.place (Position.start.advance a) (parameterGlyphs gap p)) = some (parameter p) := by
  have hafter : Parameter.afterKeyword? o
      (Glyph.place (Position.start.advance a) (parameterGlyphs gap p)) =
        some (Glyph.place (Position.start.advance (a ++ (Keyword.parameter.glyph gap).spelling))
          (bindingGlyphs p)) := by
    rw [parameterGlyphs, Glyph.place_cons, Position.advance_append]
    rfl
  have htext : a ++ Glyph.spell (parameterGlyphs gap p) ++ c =
      a ++ (Keyword.parameter.glyph gap).spelling ++ Glyph.spell (bindingGlyphs p) ++ c := by
    simp [parameterGlyphs, bindingGlyphs]
  unfold Parameter.ofSegment?
  rw [hafter, htext]
  exact declarator?_place p _ c

end Outline

/-! ### The whole block -/

theorem Parameter.outcomes_of_forall₂ {text : Text} {runs : List (List Token)}
    {ps : List Parameter} (h : Forall₂ (fun ts p => ∀ inherited,
      ofSegment? text o inherited ts = some p) runs ps) :
    ∀ inherited, outcomes text o inherited runs = ps.map .ok := by
  induction h with
  | nil => exact fun _ => rfl
  | cons hp _ ih =>
    intro inherited
    rw [outcomes, hp inherited]
    simp only [ih, List.map_cons]

/-- **The parameter block of an outline is read back,** and nothing is rejected. -/
theorem Parameter.ofBlock_print (m : Outline o) :
    ofBlock o (Outline.commas (m.parameters.map Outline.printParameter)) =
      ⟨m.parameters.map Outline.parameter, []⟩ := by
  have hscan := Outline.scan_commas (fun gap p => Outline.spell_parameterGlyphs (o := o) gap p)
    (fun gap p u hgap hu => Outline.readAll_parameterGlyphs hgap p hu) m.parameters
  have hsegments := segments_listed (Outline.blocks Outline.parameterGlyphs m.parameters)
    Position.start (Outline.flat_of_mem_blocks m.parameters)
  have hruns := Outline.forall₂_commas (fun gap p => Outline.spell_parameterGlyphs (o := o) gap p)
    (R := fun text ts p => ∀ inherited, ofSegment? text o inherited ts = some p)
    (fun gap p a c inherited => Outline.ofSegment?_glyphs p inherited gap a c) m.parameters
  unfold ofBlock declaredBy
  simp only [hscan, hsegments, outcomes_of_forall₂ hruns, accepted_map_ok, rejected_map_ok]

end DesignAtlas
