import DesignAtlas.Proofs.Design.FileCut
import DesignAtlas.Proofs.Outline.Body
import DesignAtlas.Proofs.Outline.Parameters
import DesignAtlas.Proofs.Outline.Pins

/-! # The declaration in a printed module

A printed module is laid out as glyphs (`spell_glyphs`), so its tokens are known (`scan_core`). The
readers take them part by part, and what they find is the one declaration of the module
(`ofSource_core`), whose parts are cut out of the text as they were printed. -/

namespace DesignAtlas

open Glyph (place spell listed)

/-- A parenthesis that closes tokens without parentheses. -/
theorem Token.closeParen?_of_free {c : Token} (hc : c.payload = .symbol .closeParen)
    (rest : List Token) : ∀ {ts : List Token}, (∀ t ∈ ts, t.payload ≠ .symbol .openParen ∧
      t.payload ≠ .symbol .closeParen) → closeParen? 0 (ts ++ c :: rest) = some ⟨ts, c, rest⟩
  | [], _ => by simp [closeParen?, isSymbol, hc]
  | t :: ts, h => by
    obtain ⟨h1, h2⟩ := h t (by simp)
    rw [List.cons_append, closeParen?, closeParen?_of_free hc rest fun u hu => h u (by simp [hu])]
    simp [isSymbol, h1, h2, Enclosed.cons]

namespace Outline

variable {o : Options}

/-! ### A printed module as glyphs -/

/-- An instance as glyphs, on a line of its own. -/
def instanceGlyphs (x : Identifier o × Identifier o) : List Glyph :=
  [x.1.glyph ['\n'], x.2.glyph [' '], Symbol.openParen.glyph [' '], Symbol.closeParen.glyph [],
    Symbol.semicolon.glyph []]

/-- The body and the end of the module. -/
def bodyGlyphs (m : Outline o) : List Glyph :=
  Symbol.semicolon.glyph [] ::
    (m.instances.flatMap instanceGlyphs ++ [Keyword.endmodule.glyph ['\n']])

/-- The pin list and what follows it. -/
def pinGlyphs (m : Outline o) : List Glyph :=
  Symbol.openParen.glyph [' '] ::
    (listed (blocks Port.glyphs m.ports) ++ Symbol.closeParen.glyph [] :: m.bodyGlyphs)

/-- The parameter block. -/
def blockGlyphs (m : Outline o) : List Glyph :=
  if m.parameters.isEmpty then []
  else Symbol.hash.glyph [' '] :: Symbol.openParen.glyph [] ::
    (listed (blocks parameterGlyphs m.parameters) ++ [Symbol.closeParen.glyph []])

/-- The whole module. -/
def glyphs (m : Outline o) : List Glyph :=
  Keyword.module.glyph [] :: m.label.glyph [' '] :: (m.blockGlyphs ++ m.pinGlyphs)

/-- The module as it is written, up to its last letter. -/
def core (m : Outline o) : Text := m.printHeader ++ m.printBody ++ Keyword.endmodule.word.toList

theorem print_eq (m : Outline o) : m.print = m.core ++ ['\n'] := by
  have hend : "endmodule\n".toList = Keyword.endmodule.word.toList ++ ['\n'] := by decide
  unfold print core
  rw [hend]
  simp

theorem spell_instances : ∀ xs : List (Identifier o × Identifier o),
    spell (xs.flatMap instanceGlyphs) ++ ['\n'] = '\n' :: xs.flatMap printInstance
  | [] => rfl
  | x :: xs => by
    have hx : spell (instanceGlyphs x) = '\n' :: (statement x ++ [';']) := by
      simp [instanceGlyphs, statement, instantiation, Connections.text, Connections.empty,
        Symbol.char]
    rw [List.flatMap_cons, Glyph.spell_append, List.append_assoc, spell_instances xs, hx]
    simp [printInstance_eq]

theorem spell_bodyGlyphs (m : Outline o) :
    spell m.bodyGlyphs = ';' :: (m.printBody ++ Keyword.endmodule.word.toList) := by
  have h := spell_instances m.instances
  unfold printBody
  rw [← h]
  simp [bodyGlyphs, Symbol.char]

theorem spell_ports (m : Outline o) :
    spell (listed (blocks Port.glyphs m.ports)) = commas (m.ports.map Port.print) :=
  spell_blocks (fun gap p => Port.spell_glyphs gap p) m.ports

theorem spell_parameters (m : Outline o) :
    spell (listed (blocks parameterGlyphs m.parameters)) =
      commas (m.parameters.map printParameter) :=
  spell_blocks (fun gap p => spell_parameterGlyphs gap p) m.parameters

theorem spell_blockGlyphs (m : Outline o) : spell m.blockGlyphs = m.printParameters := by
  have hopen : " #(".toList = [' ', '#', '('] := by decide
  have hclose : ")".toList = [')'] := by decide
  unfold blockGlyphs printParameters
  rw [hopen, hclose]
  split_ifs
  · rfl
  · simp [spell_parameters, Symbol.char]

theorem printHeader_eq (m : Outline o) : m.printHeader =
    Keyword.module.word.toList ++ ' ' :: m.label.text ++ m.printParameters ++
      ' ' :: '(' :: commas (m.ports.map Port.print) ++ [')', ';'] := by
  have hmodule : "module ".toList = Keyword.module.word.toList ++ [' '] := by decide
  have hopen : " (".toList = [' ', '('] := by decide
  have hclose : ");".toList = [')', ';'] := by decide
  unfold printHeader
  rw [hmodule, hopen, hclose]
  simp

theorem spell_glyphs (m : Outline o) : spell m.glyphs = m.core := by
  unfold core
  rw [printHeader_eq]
  simp [glyphs, pinGlyphs, spell_blockGlyphs, spell_ports, spell_bodyGlyphs, Symbol.char]

/-! ### The glyphs are read as they are written -/

theorem readAll_bodyGlyphs (m : Outline o) : Glyph.ReadAll m.bodyGlyphs [] := by
  have hend : Glyph.ReadAll [Keyword.endmodule.glyph ['\n']] [] :=
    ⟨Keyword.reads _ blank_newline (by simp), trivial⟩
  have hinst : ∀ xs : List (Identifier o × Identifier o),
      Glyph.ReadAll (xs.flatMap instanceGlyphs ++ [Keyword.endmodule.glyph ['\n']]) [] := by
    intro xs
    induction xs with
    | nil => exact hend
    | cons x xs ih =>
      rw [List.flatMap_cons, List.append_assoc]
      refine ⟨x.1.reads blank_newline ?_, x.2.reads blank_space ?_, Symbol.reads _ blank_space _,
        Symbol.reads _ blank_nil _, Symbol.reads _ blank_nil _, ih⟩
      · exact (Glyph.stops_space _).word
      · exact (Glyph.stops_space _).word
  exact ⟨Symbol.reads _ blank_nil _, hinst m.instances⟩

theorem readAll_pinGlyphs (m : Outline o) : Glyph.ReadAll m.pinGlyphs [] := by
  refine ⟨Symbol.reads _ blank_space _, Glyph.readAll_append.mpr ⟨?_, ?_⟩⟩
  · refine Glyph.readAll_listed (Glyph.stops_cons (c := ')') (by decide) (by decide) _)
      fun b hb u hu => ?_
    obtain ⟨gap, hgap, p, -, rfl⟩ := mem_blocks hb
    exact p.readAll_glyphs hgap hu
  · exact ⟨Symbol.reads _ blank_nil _, m.readAll_bodyGlyphs⟩

theorem readAll_glyphs (m : Outline o) : Glyph.ReadAll m.glyphs [] := by
  have hstop : Glyph.Stops (spell (m.blockGlyphs ++ m.pinGlyphs) ++ []) := by
    unfold blockGlyphs
    split_ifs <;> exact Glyph.stops_space _
  refine ⟨Keyword.reads _ blank_nil (Glyph.stops_space _).word,
    m.label.reads blank_space hstop.word, Glyph.readAll_append.mpr ⟨?_, m.readAll_pinGlyphs⟩⟩
  unfold blockGlyphs
  split_ifs
  · trivial
  · refine ⟨Symbol.reads _ blank_space _, Symbol.reads _ blank_nil _,
      Glyph.readAll_append.mpr ⟨?_, Symbol.reads _ blank_nil _, trivial⟩⟩
    refine Glyph.readAll_listed (Glyph.stops_cons (c := ')') (by decide) (by decide) _)
      fun b hb u hu => ?_
    obtain ⟨gap, hgap, p, -, rfl⟩ := mem_blocks hb
    exact readAll_parameterGlyphs hgap p hu

theorem scan_core (m : Outline o) : Token.scan m.core = place Position.start m.glyphs := by
  have := Glyph.scanFrom_spell_blank m.readAll_glyphs blank_nil Position.start
  rwa [List.append_nil, spell_glyphs] at this

/-! ### Reading the declaration -/

theorem readBody_place (m : Outline o) (name : String) (s : Span) (a b : Option Span) (pre : Text) :
    ModuleDecl.readBody name s a b (place (Position.start.advance pre) m.bodyGlyphs) =
      (.ok ⟨name, s, a, b, ⟨Position.start.advance (pre ++ [';']),
        Position.start.advance (pre ++ [';'] ++ m.printBody)⟩⟩, []) := by
  have hfree : ∀ t ∈ place (Position.start.advance (pre ++ [';']))
      (m.instances.flatMap instanceGlyphs), (t.payload != .keyword .endmodule) = true := by
    intro t ht
    obtain ⟨g, hg, hp⟩ := Glyph.mem_place ht
    obtain ⟨x, -, hx⟩ := List.mem_flatMap.mp hg
    rw [hp]
    simp only [instanceGlyphs, List.mem_cons, List.not_mem_nil, or_false] at hx
    rcases hx with rfl | rfl | rfl | rfl | rfl
    · rw [Word.payload_glyph x.1.free.identifier]; rfl
    · rw [Word.payload_glyph x.2.free.identifier]; rfl
    · rfl
    · rfl
    · rfl
  have hplace : place (Position.start.advance pre) m.bodyGlyphs =
      (Symbol.semicolon.glyph []).token (Position.start.advance pre) ::
        (place (Position.start.advance (pre ++ [';'])) (m.instances.flatMap instanceGlyphs) ++
          [(Keyword.endmodule.glyph ['\n']).token (Position.start.advance
            (pre ++ [';'] ++ spell (m.instances.flatMap instanceGlyphs)))]) := by
    rw [bodyGlyphs, Glyph.place_cons, Glyph.place_append]
    simp [Symbol.char]
  have hbody : pre ++ [';'] ++ m.printBody =
      pre ++ [';'] ++ spell (m.instances.flatMap instanceGlyphs) ++ ['\n'] := by
    rw [printBody, ← spell_instances]
    simp
  rw [hplace, ModuleDecl.readBody_cons, if_pos (Symbol.payload_token ..),
    List.dropWhile_append_of_pos hfree, List.dropWhile_cons_of_neg (by simp), hbody]
  simp [Symbol.char]

/-- The span of a text that stands behind another. -/
def spanBehind (pre t : Text) : Span :=
  ⟨Position.start.advance pre, Position.start.advance (pre ++ t)⟩

/-- A comma list whose blocks have no parentheses has none. -/
theorem free_of_listed {p : Payload → Bool} (hopen : p (.symbol .openParen) = false)
    (hclose : p (.symbol .closeParen) = false) {bs : List (List Glyph)}
    (h : ∀ b ∈ bs, ∀ g ∈ b, p g.payload = true) (q : Position) : ∀ t ∈ place q (listed bs),
      t.payload ≠ .symbol .openParen ∧ t.payload ≠ .symbol .closeParen := by
  intro t ht
  obtain ⟨g, hg, hp⟩ := Glyph.mem_place ht
  rw [hp]
  rcases Glyph.mem_listed hg with rfl | ⟨b, hb, hgb⟩
  · exact ⟨by simp [Symbol.glyph], by simp [Symbol.glyph]⟩
  · have hg := h b hb g hgb
    refine ⟨fun he => ?_, fun he => ?_⟩
    · rw [he, hopen] at hg; cases hg
    · rw [he, hclose] at hg; cases hg

theorem readPins_place (m : Outline o) (name : String) (s : Span) (a : Option Span) (pre : Text) :
    ModuleDecl.readPins name s a (place (Position.start.advance pre) m.pinGlyphs) =
      ModuleDecl.readBody name s a
        (some (spanBehind (pre ++ [' ', '(']) (commas (m.ports.map Port.print))))
        (place (Position.start.advance
          (pre ++ [' ', '('] ++ commas (m.ports.map Port.print) ++ [')'])) m.bodyGlyphs) := by
  have hfree := free_of_listed (p := PinItem.keeps) rfl rfl
    (fun b hb => (Port.keeps_of_mem_blocks m.ports b hb).2)
    (Position.start.advance (pre ++ [' ', '(']))
  have hplace : place (Position.start.advance pre) m.pinGlyphs =
      (Symbol.openParen.glyph [' ']).token (Position.start.advance pre) ::
        (place (Position.start.advance (pre ++ [' ', '('])) (listed (blocks Port.glyphs m.ports)) ++
          (Symbol.closeParen.glyph []).token (Position.start.advance
            (pre ++ [' ', '('] ++ commas (m.ports.map Port.print))) ::
          place (Position.start.advance
            (pre ++ [' ', '('] ++ commas (m.ports.map Port.print) ++ [')'])) m.bodyGlyphs) := by
    rw [pinGlyphs, Glyph.place_cons, Glyph.place_append, Glyph.place_cons, spell_ports]
    simp [Symbol.char]
  rw [hplace, ModuleDecl.readPins_cons, if_pos (Symbol.payload_token ..),
    Token.closeParen?_of_free (Symbol.payload_token ..) _ hfree]
  simp [spanBehind, Symbol.char]

/-- The place of the parameter block in a text, if there is one. -/
def blockSpan? (m : Outline o) (pre : Text) : Option Span :=
  if m.parameters.isEmpty then none
  else some (spanBehind (pre ++ [' ', '#', '(']) (commas (m.parameters.map printParameter)))

theorem readParameters_place (m : Outline o) (name : String) (s : Span) (pre : Text) :
    ModuleDecl.readParameters name s
        (place (Position.start.advance pre) (m.blockGlyphs ++ m.pinGlyphs)) =
      ModuleDecl.readPins name s (m.blockSpan? pre)
        (place (Position.start.advance (pre ++ m.printParameters)) m.pinGlyphs) := by
  by_cases hempty : m.parameters.isEmpty = true
  · have hpins : m.pinGlyphs = Symbol.openParen.glyph [' '] :: m.pinGlyphs.tail := rfl
    have hhash : ((Symbol.openParen.glyph [' ']).token (Position.start.advance pre)).payload ≠
        .symbol .hash := by simp
    rw [blockGlyphs, if_pos hempty, blockSpan?, if_pos hempty, ← spell_blockGlyphs, blockGlyphs,
      if_pos hempty, List.nil_append, Glyph.spell_nil, List.append_nil, hpins, Glyph.place_cons,
      ModuleDecl.readParameters_cons, if_neg hhash]
  · have hfree := free_of_listed (p := Parameter.flat) rfl rfl
      (fun b hb => (flat_of_mem_blocks m.parameters b hb).2)
      (Position.start.advance (pre ++ [' ', '#', '(']))
    have hplace : place (Position.start.advance pre) (m.blockGlyphs ++ m.pinGlyphs) =
        (Symbol.hash.glyph [' ']).token (Position.start.advance pre) ::
          (Symbol.openParen.glyph []).token (Position.start.advance (pre ++ [' ', '#'])) ::
          (place (Position.start.advance (pre ++ [' ', '#', '(']))
            (listed (blocks parameterGlyphs m.parameters)) ++
          (Symbol.closeParen.glyph []).token (Position.start.advance
            (pre ++ [' ', '#', '('] ++ commas (m.parameters.map printParameter))) ::
          place (Position.start.advance (pre ++ m.printParameters)) m.pinGlyphs) := by
      rw [← spell_blockGlyphs, blockGlyphs, if_neg hempty]
      simp [Glyph.place_append, spell_parameters, Symbol.char]
    rw [hplace, ModuleDecl.readParameters_cons, if_pos (Symbol.payload_token ..)]
    simp only
    rw [if_pos (Symbol.payload_token ..),
      Token.closeParen?_of_free (Symbol.payload_token ..) _ hfree, blockSpan?, if_neg hempty]
    simp [spanBehind, Symbol.char]

/-! ### The declaration in a printed module -/

/-- The keyword and the name. -/
def printName (m : Outline o) : Text := Keyword.module.word.toList ++ ' ' :: m.label.text

/-- The declaration that a printed module is. -/
def decl (m : Outline o) : ModuleDecl where
  name := m.label.name
  nameSpan := ((m.label.glyph [' ']).token
    (Position.start.advance Keyword.module.word.toList)).span
  parameterSpan := m.blockSpan? m.printName
  pinSpan := some (spanBehind (m.printName ++ m.printParameters ++ [' ', '('])
    (commas (m.ports.map Port.print)))
  bodySpan := spanBehind m.printHeader m.printBody

theorem read_place (m : Outline o) :
    ModuleDecl.read (place (Position.start.advance Keyword.module.word.toList)
      (m.label.glyph [' '] :: (m.blockGlyphs ++ m.pinGlyphs))) = (.ok m.decl, []) := by
  have hname : ((m.label.glyph [' ']).token
      (Position.start.advance Keyword.module.word.toList)).payload = .identifier m.label.name :=
    Word.payload_glyph m.label.free.identifier [' ']
  have hpre : (Position.start.advance Keyword.module.word.toList).advance
      (m.label.glyph [' ']).spelling = Position.start.advance m.printName := by
    rw [← Position.advance_append]
    rfl
  have hheader : m.printName ++ m.printParameters ++ [' ', '('] ++
      commas (m.ports.map Port.print) ++ [')'] ++ [';'] = m.printHeader := by
    rw [printHeader_eq]
    simp [printName]
  rw [Glyph.place_cons, ModuleDecl.read_cons_identifier _ _ _ hname, hpre, readParameters_place,
    readPins_place, readBody_place, hheader]
  rfl

/-- **A printed module is one declaration.** -/
theorem ofSource_core (m : Outline o) : ModuleDecl.ofSource m.core = [m.decl] := by
  have hkeyword : ModuleDecl.isModuleKeyword
      ((Keyword.module.glyph []).token Position.start) = true := rfl
  unfold ModuleDecl.ofSource ModuleDecl.attemptsIn
  rw [scan_core, glyphs, Glyph.place_cons, ModuleDecl.attempts_cons, if_pos hkeyword,
    Keyword.spelling_glyph, List.nil_append, read_place, ModuleDecl.attempts]
  rfl

theorem endsWithLast_core (m : Outline o) : ModuleDecl.EndsWithLast m.core := by
  obtain ⟨gs, hgs⟩ : ∃ gs, m.glyphs = gs ++ [Keyword.endmodule.glyph ['\n']] := by
    refine ⟨Keyword.module.glyph [] :: m.label.glyph [' '] :: (m.blockGlyphs ++
      Symbol.openParen.glyph [' '] :: (listed (blocks Port.glyphs m.ports) ++
        Symbol.closeParen.glyph [] :: Symbol.semicolon.glyph [] ::
          m.instances.flatMap instanceGlyphs)), ?_⟩
    simp [glyphs, pinGlyphs, bodyGlyphs]
  have htext : m.printHeader ++ m.printBody = spell gs ++ ['\n'] := by
    have h := m.spell_glyphs
    rw [hgs, core, Glyph.spell_append] at h
    have h' : spell gs ++ ['\n'] ++ Keyword.endmodule.word.toList =
        m.printHeader ++ m.printBody ++ Keyword.endmodule.word.toList := by
      rw [← h]
      simp
    exact (List.append_cancel_right h').symm
  refine ⟨(Keyword.endmodule.glyph ['\n']).token (Position.start.advance (spell gs)), ?_, rfl,
    m.decl, ?_, ?_⟩
  · rw [scan_core, hgs, Glyph.place_append]
    simp
  · rw [ofSource_core]
    rfl
  · simp only [decl, spanBehind, htext]
    simp

/-! ### The parts of the declaration -/

theorem slice_spanBehind (pre t post : Text) : (spanBehind pre t).slice (pre ++ t ++ post) = t :=
  Span.slice_append pre t post

theorem body_decl (m : Outline o) : m.decl.body m.core = m.printBody :=
  slice_spanBehind m.printHeader m.printBody Keyword.endmodule.word.toList

theorem pinList_decl (m : Outline o) :
    m.decl.pinList m.core = commas (m.ports.map Port.print) := by
  have hcore : m.core = m.printName ++ m.printParameters ++ [' ', '('] ++
      commas (m.ports.map Port.print) ++
        ([')', ';'] ++ m.printBody ++ Keyword.endmodule.word.toList) := by
    unfold core
    rw [printHeader_eq]
    simp [printName]
  rw [hcore]
  exact slice_spanBehind _ _ _

theorem parameterBlock?_decl (m : Outline o) : m.decl.parameterBlock? m.core =
    if m.parameters.isEmpty then none else some (commas (m.parameters.map printParameter)) := by
  have hopen : " #(".toList = [' ', '#', '('] := by decide
  unfold ModuleDecl.parameterBlock? decl blockSpan?
  split_ifs with hempty
  · rfl
  · have hcore : ∃ post, m.core = m.printName ++ [' ', '#', '('] ++
        commas (m.parameters.map printParameter) ++ post := by
      refine ⟨")".toList ++ ' ' :: '(' :: commas (m.ports.map Port.print) ++ [')', ';'] ++
        m.printBody ++ Keyword.endmodule.word.toList, ?_⟩
      unfold core
      rw [printHeader_eq]
      unfold printParameters
      rw [if_neg hempty, hopen]
      simp [printName]
    obtain ⟨post, hpost⟩ := hcore
    rw [hpost]
    exact congrArg some (slice_spanBehind _ _ _)

end Outline

end DesignAtlas
