import DesignAtlas.Proofs.Outline.Basic
import DesignAtlas.Proofs.Pin.Items
import DesignAtlas.Proofs.Roster.Distinct
import DesignAtlas.Proofs.Token.Listed

/-! # The pin list of an outline

A printed port is one item of the pin list and reads as the declaration that it is
(`ofTokens?_glyphs`). The list cuts into its ports at the commas (`PinItem.ofTokens_listed`), and
every port is put under a name of its own, so the pin list is read back without diagnostics
(`PinList.ofText_print`). -/

namespace DesignAtlas

open List (Forall₂)

/-! ### Cutting the list -/

/-- Tokens that stay together in a pin list. Parentheses would, but they may end the list. -/
def PinItem.keeps (p : Payload) : Bool :=
  match p with
  | .symbol .comma | .symbol .openParen | .symbol .closeParen | .directive _ => false
  | _ => true

theorem PinItem.joins_of_keeps {p : Payload} (h : keeps p = true) : joins p = true := by
  unfold joins
  split
  · cases h
  · cases h
  · rfl

/-- **A list of ports is cut into its ports.** -/
theorem PinItem.ofTokens_listed : ∀ (bs : List (List Glyph)) (p : Position),
    (∀ b ∈ bs, b ≠ [] ∧ ∀ g ∈ b, keeps g.payload = true) →
      ofTokens (Glyph.place p (Glyph.listed bs)) =
        (Glyph.placeListed p bs).map .declaration
  | [], _, _ => rfl
  | b :: bs, p, h => by
    obtain ⟨hne, hb⟩ := h b (by simp)
    have hplace : Glyph.place p b ≠ [] := by
      obtain ⟨g, gs, rfl⟩ := List.exists_cons_of_ne_nil hne
      simp
    have hjoins : ∀ t ∈ Glyph.place p b, joins t.payload = true := by
      intro t ht
      obtain ⟨g, hg, hp⟩ := Glyph.mem_place ht
      rw [hp]
      exact joins_of_keeps (hb g hg)
    rcases bs with _ | ⟨b', bs⟩
    · exact ofTokens_of_joins hplace hjoins
    · rw [Glyph.place_listed_cons, ofTokens_append_comma hplace hjoins rfl,
        ofTokens_listed _ _ fun c hc => h c (List.mem_cons_of_mem b hc)]
      rfl

/-! ### A port as glyphs -/

/-- The keyword of a direction. -/
def Direction.keyword : Direction → Keyword
  | .input => .input
  | .output => .output
  | .inout => .inout

theorem Direction.ofPayload?_keyword (d : Direction) :
    Direction.ofPayload? (.keyword d.keyword) = some d := by
  cases d <;> rfl

theorem NetType.isIdentifier (t : NetType) : t.toWord.IsIdentifier := by
  have h : ∀ w ∈ netTypes, Keyword.ofWord? w = none := by decide
  exact h _ t.listed

namespace Port

variable {o : Options}

/-- The range as glyphs. -/
def rangeGlyphs (r : Numeral × Numeral) : List Glyph :=
  [Symbol.openBracket.glyph [' '], r.1.glyph [], Symbol.colon.glyph [], r.2.glyph [],
    Symbol.closeBracket.glyph []]

/-- The port as glyphs, with `gap` before the first. -/
def glyphs (gap : Text) (p : Port o) : List Glyph :=
  p.direction.keyword.glyph gap :: ((p.netType.elim [] fun t => [t.glyph [' ']]) ++
    ((p.range.elim [] rangeGlyphs) ++ [p.label.glyph [' ']]))

theorem spell_rangeGlyphs (r : Numeral × Numeral) :
    Glyph.spell (rangeGlyphs r) = ' ' :: rangeText r := by
  simp [rangeGlyphs, rangeText, Symbol.char]

theorem spell_glyphs (gap : Text) (p : Port o) : Glyph.spell (p.glyphs gap) = gap ++ p.print := by
  have hword : p.direction.keyword.word = p.direction.word := by cases p.direction <;> rfl
  have hnet : Glyph.spell (p.netType.elim [] fun t => [t.glyph [' ']]) =
      p.netType.elim [] fun t => ' ' :: t.text := by
    cases p.netType <;> simp
  have hrange : Glyph.spell (p.range.elim [] rangeGlyphs) =
      p.range.elim [] fun r => ' ' :: rangeText r := by
    cases p.range
    · rfl
    · exact spell_rangeGlyphs _
  simp [glyphs, print, hnet, hrange, hword]

theorem keeps_of_mem_glyphs {gap : Text} {p : Port o} :
    ∀ g ∈ p.glyphs gap, PinItem.keeps g.payload = true := by
  have hword : ∀ w : Word, w.IsIdentifier → PinItem.keeps (w.glyph [' ']).payload = true := by
    intro w hw
    rw [Word.payload_glyph hw]
    rfl
  intro g hg
  rcases List.mem_cons.mp hg with rfl | hg
  · rfl
  rcases List.mem_append.mp hg with hg | hg
  · cases hnet : p.netType with
    | none => rw [hnet] at hg; cases hg
    | some t =>
      rw [hnet] at hg
      rw [List.mem_singleton.mp hg]
      exact hword _ t.isIdentifier
  rcases List.mem_append.mp hg with hg | hg
  · cases hrange : p.range with
    | none => rw [hrange] at hg; cases hg
    | some r =>
      rw [hrange] at hg
      simp only [Option.elim_some, rangeGlyphs, List.mem_cons, List.not_mem_nil, or_false] at hg
      rcases hg with rfl | rfl | rfl | rfl | rfl <;> rfl
  · rw [List.mem_singleton.mp hg]
    exact hword _ p.label.free.identifier

theorem keeps_of_mem_blocks (ps : List (Port o)) : ∀ b ∈ Outline.blocks glyphs ps,
    b ≠ [] ∧ ∀ g ∈ b, PinItem.keeps g.payload = true := by
  intro b hb
  obtain ⟨gap, -, p, -, rfl⟩ := Outline.mem_blocks hb
  exact ⟨List.cons_ne_nil _ _, keeps_of_mem_glyphs⟩

theorem readAll_glyphs {gap : Text} (hgap : ∀ c ∈ gap, isBlank c = true) (p : Port o) {rest : Text}
    (hrest : Glyph.Stops rest) : Glyph.ReadAll (p.glyphs gap) rest := by
  have hlabel : Glyph.ReadAll [p.label.glyph [' ']] rest :=
    ⟨p.label.reads blank_space hrest.word, trivial⟩
  have hrange : Glyph.ReadAll ((p.range.elim [] rangeGlyphs) ++ [p.label.glyph [' ']]) rest := by
    refine Glyph.readAll_append.mpr ⟨?_, hlabel⟩
    cases p.range with
    | none => trivial
    | some r =>
      refine ⟨Symbol.reads _ blank_space _, r.1.reads blank_nil ?_, Symbol.reads _ blank_nil _,
        r.2.reads blank_nil ?_, Symbol.reads _ blank_nil _, trivial⟩
      · exact (Glyph.stops_cons (c := ':') (by decide) (by decide) _).number
      · exact (Glyph.stops_cons (c := ']') (by decide) (by decide) _).number
  -- a space stands before each part, so the part before it ends there
  have hstop : Glyph.Stops
      (Glyph.spell ((p.range.elim [] rangeGlyphs) ++ [p.label.glyph [' ']]) ++ rest) := by
    cases p.range <;> exact Glyph.stops_space _
  refine ⟨Keyword.reads _ hgap ?_, Glyph.readAll_append.mpr ⟨?_, hrange⟩⟩
  · rw [Glyph.spell_append, List.append_assoc]
    cases p.netType with
    | none => exact hstop.word
    | some t => exact (Glyph.stops_space _).word
  · cases p.netType with
    | none => trivial
    | some t => exact ⟨t.reads blank_space hstop.word, trivial⟩

/-! ### Reading a port -/

/-- The declaration that the port is. -/
def decl (p : Port o) : PinDecl :=
  ⟨some p.direction, p.netType.map (·.name), p.range.map fun r => String.ofList (rangeText r),
    p.label.name⟩

/-- The glyphs behind the type. -/
def tail (p : Port o) : List Glyph := (p.range.elim [] rangeGlyphs) ++ [p.label.glyph [' ']]

theorem takeWord_type (p : Port o) (q : Position) :
    Token.takeWord PinDecl.isType
        (Glyph.place q ((p.netType.elim [] fun t => [t.glyph [' ']]) ++ p.tail)) =
      ((p.netType.map (·.name)).toList,
        Glyph.place (q.advance (p.netType.elim [] fun t => ' ' :: t.text)) p.tail) := by
  cases p.netType with
  | some t => simp [Token.takeWord, Word.identifier?_token t.isIdentifier, PinDecl.isType, t.listed]
  | none =>
    unfold tail
    cases p.range with
    | some r => rfl
    | none =>
      simp [Token.takeWord, Word.identifier?_token p.label.free.identifier, PinDecl.isType,
        p.label.free.noNetType]

theorem takeWord_signing (p : Port o) (q : Position) :
    Token.takeWord (fun w _ => isSigning w) (Glyph.place q p.tail) =
      ([], Glyph.place q p.tail) := by
  unfold tail
  cases p.range with
  | some r => rfl
  | none =>
    simp [Token.takeWord, Word.identifier?_token p.label.free.identifier, p.label.free.noSigning]

theorem takeRanges?_tail (p : Port o) (q : Position) :
    Token.takeRanges? 0 (Glyph.place q p.tail) =
      some (Glyph.place q (p.range.elim [] rangeGlyphs),
        [(p.label.glyph [' ']).token
          (q.advance (p.range.elim [] fun r => ' ' :: rangeText r))]) := by
  have hlabel := Word.payload_glyph p.label.free.identifier [' ']
  unfold tail
  cases p.range with
  | none => simp [Token.takeRanges?, Token.isSymbol, Glyph.token, hlabel]
  | some r =>
    rw [Option.elim_some, Glyph.place_append, spell_rangeGlyphs]
    simp [rangeGlyphs, Token.takeRanges?, Token.isSymbol, Glyph.token, Symbol.glyph,
      Numeral.glyph, hlabel]

theorem rangeText_place (r : Numeral × Numeral) (a c : Text) :
    Token.rangeText (a ++ ' ' :: rangeText r ++ c)
      (Glyph.place (Position.start.advance a) (rangeGlyphs r)) =
        some (String.ofList (rangeText r)) := by
  have hsource := Glyph.sourceOf_place a c (Symbol.openBracket.glyph [' ']) (rangeGlyphs r).tail
  have hcons : Symbol.openBracket.glyph [' '] :: (rangeGlyphs r).tail = rangeGlyphs r := rfl
  have htext : (Symbol.openBracket.glyph [' ']).text ++ Glyph.spell (rangeGlyphs r).tail =
      rangeText r := by
    simp [rangeGlyphs, rangeText, Symbol.char]
  have hsolid : ∀ x ∈ rangeText r, (!isBlank x) = true := by
    intro x hx
    simp only [rangeText, List.cons_append, List.mem_cons, List.mem_append, List.append_assoc,
      List.not_mem_nil, or_false] at hx
    rcases hx with rfl | hx | rfl | hx | rfl
    · decide
    · rw [Numeral.isBlank_of_mem hx]; rfl
    · decide
    · rw [Numeral.isBlank_of_mem hx]; rfl
    · decide
  rw [hcons, htext, spell_rangeGlyphs] at hsource
  unfold Token.rangeText
  rw [hsource, Text.squeeze, List.filter_eq_self.mpr hsolid]
  rfl

theorem rangeText_tail (p : Port o) (a c : Text) :
    Token.rangeText (a ++ (p.range.elim [] fun r => ' ' :: rangeText r) ++ c)
      (Glyph.place (Position.start.advance a) (p.range.elim [] rangeGlyphs)) =
        p.range.map fun r => String.ofList (rangeText r) := by
  cases p.range with
  | none => rfl
  | some r => exact rangeText_place r a c

/-- **A port reads as the declaration that it is.** -/
theorem ofTokens?_glyphs (p : Port o) (gap a c : Text) :
    PinDecl.ofTokens? (a ++ Glyph.spell (p.glyphs gap) ++ c)
      (Glyph.place (Position.start.advance a) (p.glyphs gap)) = some p.decl := by
  let b : Text := a ++ (gap ++ p.direction.keyword.word.toList)
  have hdir : PinDecl.takeDirection (Glyph.place (Position.start.advance a) (p.glyphs gap)) =
      (some p.direction, Glyph.place (Position.start.advance b)
        ((p.netType.elim [] fun t => [t.glyph [' ']]) ++ p.tail)) := by
    rw [glyphs, Glyph.place_cons, PinDecl.takeDirection, Glyph.token, Keyword.glyph,
      Direction.ofPayload?_keyword, Position.advance_append]
    rfl
  have htypeText : typeText ((p.netType.map (·.name)).toList ++ []) = p.netType.map (·.name) := by
    cases p.netType <;> simp [typeText]
  have htext : a ++ Glyph.spell (p.glyphs gap) ++ c =
      b ++ (p.netType.elim [] fun t => ' ' :: t.text) ++
        (p.range.elim [] fun r => ' ' :: rangeText r) ++ (' ' :: p.label.text ++ c) := by
    have hword : p.direction.keyword.word = p.direction.word := by cases p.direction <;> rfl
    simp [spell_glyphs, print, b, hword]
  unfold PinDecl.ofTokens?
  simp only [hdir, takeWord_type, takeWord_signing, takeRanges?_tail, htypeText]
  rw [Word.identifier?_token p.label.free.identifier, htext, ← Position.advance_append,
    rangeText_tail]
  rfl

end Port

/-! ### The whole list -/

/-- Declarations that say more than the name are put one after the other. -/
theorem PinList.foldl_step (module : String) {text : Text} : ∀ {runs : List (List Token)}
    {ds : List PinDecl}, Forall₂ (fun ts d => PinDecl.ofTokens? text ts = some d ∧
      d.isQualified = true) runs ds → ∀ s : PinList, ∃ pattern,
      (runs.map PinItem.declaration).foldl (step module text) s =
        { s with pattern, pins := s.pins.putAll (ds.map (·.pin s.stack.snapshot)) }
  | [], [], .nil, s => ⟨s.pattern, rfl⟩
  | ts :: runs, d :: ds, .cons ⟨hd, hq⟩ h, s => by
    have hstep : step module text s (.declaration ts) =
        { s with pattern := some (d.pin s.stack.snapshot),
                 pins := s.pins.put (d.pin s.stack.snapshot) } := by
      simp [step, hd, stepDecl, pinOf, hq]
    obtain ⟨pattern, ih⟩ := foldl_step module h (step module text s (.declaration ts))
    refine ⟨pattern, ?_⟩
    rw [List.map_cons, List.foldl_cons, ih, hstep]
    rfl

/-- **The pin list of an outline is read back,** without diagnostics. -/
theorem PinList.ofText_print {o : Options} (module : String) (m : Outline o) :
    (ofText module o (Outline.commas (m.ports.map Port.print))).pins = ⟨m.ports.map Port.pin⟩ ∧
      (ofText module o (Outline.commas (m.ports.map Port.print))).diagnostics = [] := by
  have hscan := Outline.scan_commas (fun gap p => Port.spell_glyphs (o := o) gap p)
    (fun gap p u hgap hu => p.readAll_glyphs hgap hu) m.ports
  have hitems := PinItem.ofTokens_listed (Outline.blocks Port.glyphs m.ports) Position.start
    (Port.keeps_of_mem_blocks m.ports)
  have hruns := Outline.forall₂_commas (fun gap p => Port.spell_glyphs (o := o) gap p)
    (R := fun text ts d => PinDecl.ofTokens? text ts = some d ∧ d.isQualified = true)
    (fun gap p a c => ⟨p.ofTokens?_glyphs gap a c, rfl⟩) m.ports
  obtain ⟨pattern, hfold⟩ := foldl_step module hruns
    ⟨ConditionStack.empty o.elsePolicy, none, Roster.empty, []⟩
  have hpins : (m.ports.map Port.decl).map (·.pin []) = m.ports.map Port.pin := by
    rw [List.map_map]
    rfl
  have hnodup : ((Roster.empty : Roster Pin).names ++
      (m.ports.map Port.pin).map Named.name).Nodup := by
    rw [List.map_map]
    exact m.ports_nodup
  unfold ofText
  rw [hscan, hitems, hfold]
  refine ⟨?_, rfl⟩
  have hput := Roster.putAll_eq_append _ Roster.empty hnodup
  rw [← hpins] at hput ⊢
  exact hput

end DesignAtlas
