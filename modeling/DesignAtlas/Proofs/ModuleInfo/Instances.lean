import DesignAtlas.ModuleInfo
import DesignAtlas.Proofs.Statement.Plain

/-! # The instances of a module

Whether a statement is recorded as an instance depends on the statement alone, not on what has been
read before it (`recorded?`). So the instances of a module are those of its statements
(`instances_ofDecl`), and they do not depend on its header.

A statement of the form `callee name (...)` in which no word declares anything is recorded as it is
written (`ofStatement?_instantiation`). -/

namespace DesignAtlas

/-! ### Statements that declare nothing -/

namespace Parameter

theorem mem_of_mem_runs {t : Token} : ∀ {depth : Nat} {ts r : List Token}, r ∈ runs depth ts →
    t ∈ r → t ∈ ts
  | _, [], r, h, ht => by
    rw [runs, List.mem_singleton] at h
    rw [h] at ht
    cases ht
  | depth, u :: us, r, h, ht => by
    rw [runs] at h
    split at h
    · rcases List.mem_cons.mp h with rfl | h
      · cases ht
      · exact List.mem_cons_of_mem u (mem_of_mem_runs h ht)
    · -- the token `u` belongs to the first run, the other runs stand behind it
      rcases hr : runs (nesting depth u) us with _ | ⟨r', rs⟩
      · rw [hr, consHead, List.mem_singleton] at h
        subst h
        rw [List.mem_singleton.mp ht]
        exact List.mem_cons_self
      · have ih : ∀ q ∈ runs (nesting depth u) us, t ∈ q → t ∈ us := fun q hq hqt =>
          mem_of_mem_runs hq hqt
        rw [hr] at h ih
        rcases List.mem_cons.mp h with rfl | h
        · rcases List.mem_cons.mp ht with rfl | ht
          · exact List.mem_cons_self
          · exact List.mem_cons_of_mem u (ih r' List.mem_cons_self ht)
        · exact List.mem_cons_of_mem u (ih r (List.mem_cons_of_mem r' h) ht)

theorem ofStatement?_eq_none {o : Options} {text : Text}
    (h : ∀ t ∈ Token.scan text, isKeyword o t = false) : ofStatement? o text = none := by
  unfold ofStatement?
  rcases hs : segments (Token.scan text) with _ | ⟨s, ss⟩
  · rfl
  · have hrun : s ∈ runs 0 (Token.scan text) := by
      have : s ∈ segments (Token.scan text) := by rw [hs]; exact List.mem_cons_self
      exact (List.mem_filter.mp this).1
    have hdrop : (s.dropWhile fun t => !isKeyword o t) = [] := by
      apply List.dropWhile_eq_nil_iff.mpr
      intro t ht
      rw [h t (mem_of_mem_runs hrun ht)]
      rfl
    simp [afterKeyword?, hdrop]

end Parameter

theorem PinDecl.beginsWithDirection_cons {t : Token} {name : String}
    (h : t.payload = .identifier name) (ts : List Token) :
    PinDecl.beginsWithDirection (PinItem.ofTokens (t :: ts)) = false := by
  unfold PinItem.ofTokens
  rw [List.foldr_cons]
  simp [PinItem.step, h, PinItem.ofRun, PinDecl.beginsWithDirection, Direction.ofPayload?]

/-! ### The instance of a statement -/

namespace ModuleInfo

/-- The instance that a statement is recorded as: none when it declares parameters, or pins. -/
def recorded? (o : Options) (s : Statement) : Option Instance :=
  if (Parameter.ofStatement? o s.text).any (·.rejected.isEmpty) then none
  else if !s.inSubprogram &&
      PinDecl.beginsWithDirection (PinItem.ofTokens (Token.scan s.text)) then none
  else Instance.ofStatement? o s

theorem instances_addInstance (o : Options) (s : Statement) (c : Contents) :
    (c.addInstance o s).instances = c.instances ++ (Instance.ofStatement? o s).toList := by
  unfold Contents.addInstance
  cases Instance.ofStatement? o s with
  | none => simp
  | some i => rfl

theorem instances_addOther (o : Options) (s : Statement) (c : Contents) :
    (c.addOther o s).instances = c.instances ++
      (if !s.inSubprogram && PinDecl.beginsWithDirection (PinItem.ofTokens (Token.scan s.text))
        then none else Instance.ofStatement? o s).toList := by
  unfold Contents.addOther PinDecl.refine?
  cases s.inSubprogram with
  | true => simp [instances_addInstance]
  | false =>
    by_cases hd : PinDecl.beginsWithDirection (PinItem.ofTokens (Token.scan s.text)) = true
    · simp [hd]
    · simp [hd, instances_addInstance]

theorem instances_addStatement (module : String) (o : Options) (c : Contents) (s : Statement) :
    (c.addStatement module o s).instances = c.instances ++ (recorded? o s).toList := by
  unfold Contents.addStatement recorded?
  cases Parameter.ofStatement? o s.text with
  | none => exact instances_addOther o s c
  | some d =>
    by_cases hd : d.rejected.isEmpty = true
    · simp [hd, Contents.addParameters]
    · simp only [hd, Option.any_some]
      rw [if_neg Bool.false_ne_true, if_neg Bool.false_ne_true, instances_addOther]
      rfl

/-- **The instances of a module are those of its statements.** -/
theorem instances_ofDecl (file : String) (source : Text) (o : Options) (d : ModuleDecl) :
    (ofDecl file source o d).1.instances =
      (Statement.ofBody o (d.body source)).filterMap (recorded? o) := by
  have hrun : ∀ (ss : List Statement) (c : Contents),
      (ss.foldl (Contents.addStatement d.name o) c).instances =
        c.instances ++ ss.filterMap (recorded? o) := by
    intro ss
    induction ss with
    | nil => simp
    | cons s ss ih =>
      intro c
      rw [List.foldl_cons, ih, instances_addStatement, List.append_assoc]
      cases h : recorded? o s <;> simp [h]
  exact hrun _ (headerContents source o d)

end ModuleInfo

/-! ### Instantiations -/

/-- The words that begin and end tasks and functions. -/
def subprogramWords : List String := ["task", "function", "endtask", "endfunction"]

/-- Whether the payload is a keyword. -/
def Payload.isKeyword : Payload → Bool
  | .keyword _ => true
  | _ => false

/-- The connections of an instance behind their opening parenthesis, as glyphs. -/
structure Connections where
  glyphs : List Glyph
  reads : Glyph.ReadAll glyphs []
  free : ∀ g ∈ glyphs, g.payload.isKeyword = false
  solid : (Glyph.spell glyphs).all (fun c => !isBlank c && c != ';' && c != '\x60') = true
  closed : (Glyph.spell glyphs).getLast? = some ')'

theorem Connections.of_mem {ps : Connections} {c : Char} (h : c ∈ Glyph.spell ps.glyphs) :
    isBlank c = false ∧ c ≠ ';' ∧ c ≠ '\x60' := by
  have := List.all_eq_true.mp ps.solid c h
  simpa [and_assoc] using this

/-- The connections as they are written. -/
def Connections.text (ps : Connections) : Text := '(' :: Glyph.spell ps.glyphs

/-- The statement that uses the module `callee` under the name `i`. -/
def instantiation (callee i : Word) (ps : Connections) : Text :=
  callee.text ++ ' ' :: (i.text ++ ' ' :: ps.text)

section Instantiation

variable {callee i : Word} {ps : Connections}

/-- A word that can name the module of an instantiation. -/
structure Word.IsCallable (o : Options) (w : Word) : Prop where
  identifier : w.IsIdentifier
  unreserved : o.isReserved w.name = false
  noSubprogram : w.name ∉ subprogramWords

instance (o : Options) (w : Word) : Decidable (w.IsCallable o) :=
  decidable_of_iff (w.IsIdentifier ∧ o.isReserved w.name = false ∧ w.name ∉ subprogramWords)
    ⟨fun h => ⟨h.1, h.2.1, h.2.2⟩, fun h => ⟨h.1, h.2, h.3⟩⟩

theorem scan_instantiation : Token.scan (instantiation callee i ps) =
    Glyph.place Position.start (callee.glyph [] :: i.glyph [' '] ::
      Symbol.openParen.glyph [' '] :: ps.glyphs) := by
  have hspell : instantiation callee i ps = Glyph.spell (callee.glyph [] :: i.glyph [' '] ::
      Symbol.openParen.glyph [' '] :: ps.glyphs) ++ [] := by
    simp [instantiation, Connections.text, Symbol.char]
  rw [hspell]
  refine Glyph.scanFrom_spell_blank ?_ (by simp) Position.start
  refine ⟨?_, ?_, ?_, ps.reads⟩
  · exact callee.reads (by simp) (by simp [isWordChar])
  · exact i.reads blank_space
      (by simp [isWordChar])
  · exact Symbol.openParen.reads blank_space _

theorem words_instantiation :
    Text.words (instantiation callee i ps) = [callee.text, i.text, ps.text] := by
  have hsolid : ∀ c ∈ ps.text, isBlank c = false := by
    intro c hc
    rcases List.mem_cons.mp hc with rfl | hc
    · decide
    · exact (ps.of_mem hc).1
  have hne : ps.text ≠ [] := List.cons_ne_nil _ _
  unfold instantiation
  rw [Text.words_cons_word callee.text_ne_nil (fun c => Word.isBlank_of_mem) isBlank_space,
    Text.words_cons_word i.text_ne_nil (fun c => Word.isBlank_of_mem) isBlank_space,
    Text.words_of_solid hne hsolid]

theorem Instance.calleeOf?_word (w : Word) : Instance.calleeOf? w.text = some w.text := by
  obtain ⟨c, t, hw, hc, ht⟩ := w.exists_cons
  have hbackslash : c ≠ '\x5c' := by
    rintro rfl
    rcases hc with hc | hc <;> cases hc
  have htake : t.takeWhile isWordChar = t := List.takeWhile_eq_self_iff.mpr ht
  rw [hw, Instance.calleeOf?, if_neg hbackslash, if_pos (by simpa using hc), htake]

/-- No word of an instantiation declares a parameter. -/
theorem Parameter.ofStatement?_instantiation (hc : callee.IsIdentifier) (hi : i.IsIdentifier)
    (o : Options) : Parameter.ofStatement? o (instantiation callee i ps) = none := by
  apply Parameter.ofStatement?_eq_none
  intro t ht
  have hfree : t.payload.isKeyword = false := by
    rw [scan_instantiation] at ht
    obtain ⟨g, hg, hp⟩ := Glyph.mem_place ht
    rw [hp]
    rcases List.mem_cons.mp hg with rfl | hg
    · rw [Word.payload_glyph hc]; rfl
    rcases List.mem_cons.mp hg with rfl | hg
    · rw [Word.payload_glyph hi]; rfl
    rcases List.mem_cons.mp hg with rfl | hg
    · rfl
    · exact ps.free g hg
  unfold Parameter.isKeyword
  split
  · rename_i h; rw [h] at hfree; cases hfree
  · rename_i h; rw [h] at hfree; cases hfree
  · rfl

theorem PinDecl.beginsWithDirection_instantiation (hc : callee.IsIdentifier) :
    PinDecl.beginsWithDirection (PinItem.ofTokens (Token.scan (instantiation callee i ps))) =
      false := by
  rw [scan_instantiation, Glyph.place_cons]
  exact PinDecl.beginsWithDirection_cons (Word.payload_glyph hc []) _

/-- **An instantiation looks like the instance that it is.** -/
theorem Instance.ofStatement?_instantiation {o : Options} (hi : i.IsIdentifier)
    (hr : o.isReserved callee.name = false) (conditionals : List String) (inSubprogram : Bool) :
    Instance.ofStatement? o ⟨instantiation callee i ps, conditionals, inSubprogram⟩ =
      some ⟨callee.name, some i.name, String.ofList (instantiation callee i ps),
        conditionals⟩ := by
  have hparen : (instantiation callee i ps).contains '(' = true := by
    simp [instantiation, Connections.text]
  have hassign : Instance.isAssignment i.text = false := by
    obtain ⟨c, t, hw, hc, -⟩ := i.exists_cons
    have h1 : c ≠ '=' := by rintro rfl; rcases hc with hc | hc <;> cases hc
    have h2 : c ≠ '<' := by rintro rfl; rcases hc with hc | hc <;> cases hc
    simp [Instance.isAssignment, hw, h1, h2]
  have hname : Instance.nameOf? (Token.scan (instantiation callee i ps)).tail = some i.name := by
    rw [scan_instantiation, Glyph.place_cons, List.tail_cons, Glyph.place_cons]
    simp [Glyph.token, Word.payload_glyph hi, Instance.nameOf?, Token.identifier?,
      Payload.identifier?]
  have hreserved : o.isReserved (String.ofList callee.text) = false := hr
  unfold Instance.ofStatement?
  simp only [words_instantiation, hparen, hreserved, hassign, Instance.calleeOf?_word, hname,
    Option.map_some]
  rfl

/-! ### Instantiations as statements -/

/-- A text that begins and ends visibly, begins with no colon and no end of a task or function, and
holds no semicolon and no directive. -/
structure Text.IsStatement (t : Text) : Prop where
  begins : ∃ c ∈ t.head?, isBlank c = false ∧ c ≠ ':'
  firm : Firm t
  noEnd : Statement.afterEnd? t = none
  noSemicolon : ∀ c ∈ t, (c == ';') = false
  plain : '\x60' ∉ t

theorem Statement.firstWord_instantiation :
    Statement.firstWord (instantiation callee i ps) = callee.name := by
  have hsolid : ∀ c ∈ callee.text, (!isBlank c) = true := fun c hc => by
    rw [Word.isBlank_of_mem hc]; rfl
  unfold Statement.firstWord instantiation
  rw [(Text.span_exact hsolid (by simp [isBlank_space])).1]
  rfl

theorem ne_of_mem_instantiation {c : Char} (h : c ∈ instantiation callee i ps) :
    c ≠ ';' ∧ c ≠ '\x60' := by
  have hword : isWordChar c = true → c ≠ ';' ∧ c ≠ '\x60' := by
    intro hc
    constructor <;> (rintro rfl; cases hc)
  simp only [instantiation, Connections.text, List.mem_append, List.mem_cons] at h
  rcases h with h | rfl | h | rfl | rfl | h
  · exact hword (Word.isWordChar_of_mem h)
  · decide
  · exact hword (Word.isWordChar_of_mem h)
  · decide
  · decide
  · exact (ps.of_mem h).2

theorem isStatement_instantiation {o : Options} (hc : callee.IsCallable o) (i : Word)
    (ps : Connections) : (instantiation callee i ps).IsStatement where
  begins := by
    obtain ⟨c, t, hw, -, -⟩ := callee.exists_cons
    have hmem : isWordChar c = true := Word.isWordChar_of_mem (w := callee) (by simp [hw])
    refine ⟨c, by simp [instantiation, hw], isBlank_of_isWordChar hmem, ?_⟩
    rintro rfl
    cases hmem
  firm := by
    have hfirm : Text.Firm (Glyph.spell ps.glyphs) := by
      intro c hc
      obtain rfl : ')' = c := Option.some.inj (ps.closed.symm.trans hc)
      decide
    have hne : Glyph.spell ps.glyphs ≠ [] := by
      intro hnil
      have := ps.closed
      rw [hnil] at this
      cases this
    have := hfirm.append hne (callee.text ++ ' ' :: (i.text ++ [' ', '(']))
    simpa [instantiation, Connections.text] using this
  noEnd := by
    have h := hc.noSubprogram
    simp only [subprogramWords, List.mem_cons, not_or] at h
    unfold Statement.afterEnd?
    rw [Statement.firstWord_instantiation, if_neg (not_or.mpr ⟨h.2.2.1, h.2.2.2.1⟩)]
  noSemicolon := fun c hc => by simpa using (ne_of_mem_instantiation hc).1
  plain := fun hc => (ne_of_mem_instantiation hc).2 rfl

end Instantiation

end DesignAtlas
