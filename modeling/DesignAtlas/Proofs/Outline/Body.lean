import DesignAtlas.Proofs.Outline.Basic

/-! # The body of an outline

The body has one instantiation on each line. Its statements are these instantiations and a blank
rest (`Statement.ofBody_print`), each is recorded as the instance that it is and changes nothing
else, and the body has no directives, hence no diagnostics (`bodyDiagnostics_print`). -/

namespace DesignAtlas

variable {o : Options}

/-- No connections, `()`. -/
def Connections.empty : Connections where
  glyphs := [Symbol.closeParen.glyph []]
  reads := ⟨Symbol.reads _ blank_nil _, trivial⟩
  free := by decide
  solid := by decide
  closed := by decide

namespace Outline

/-- The statement of an instance. -/
def statement (x : Identifier o × Identifier o) : Text :=
  instantiation x.1.toWord x.2.toWord .empty

theorem isStatement_statement (x : Identifier o × Identifier o) : (statement x).IsStatement :=
  isStatement_instantiation x.1.free.toIsCallable x.2.toWord .empty

theorem printInstance_eq (x : Identifier o × Identifier o) :
    printInstance x = statement x ++ [';', '\n'] := by
  have hpins : " ();\n".toList = ' ' :: Connections.empty.text ++ [';', '\n'] := by decide
  unfold printInstance
  rw [hpins]
  simp [statement, instantiation]

theorem instanceOf_eq (x : Identifier o × Identifier o) :
    instanceOf x = ⟨x.1.name, some x.2.name, String.ofList (statement x), []⟩ := by
  have hpins : " ()".toList = ' ' :: Connections.empty.text := by decide
  unfold instanceOf
  rw [hpins]
  simp [statement, instantiation]

/-! ### The statements -/

theorem not_mem_printBody (m : Outline o) : '\x60' ∉ m.printBody := by
  intro h
  rcases List.mem_cons.mp h with h | h
  · cases h
  · obtain ⟨x, -, hx⟩ := List.mem_flatMap.mp h
    rw [printInstance_eq, List.mem_append] at hx
    rcases hx with hx | hx
    · exact (isStatement_statement x).plain hx
    · exact absurd hx (by decide)

theorem split_printBody : ∀ xs : List (Identifier o × Identifier o),
    Text.split (· == ';') ('\n' :: xs.flatMap printInstance ++ ['\n']) =
      xs.map ('\n' :: statement ·) ++ [['\n', '\n']]
  | [] => rfl
  | x :: xs => by
    have hcut : '\n' :: (x :: xs).flatMap printInstance ++ ['\n'] =
        ('\n' :: statement x) ++ ';' :: ('\n' :: xs.flatMap printInstance ++ ['\n']) := by
      simp [printInstance_eq]
    have hnone : ∀ c ∈ '\n' :: statement x, (c == ';') = false := by
      intro c hc
      rcases List.mem_cons.mp hc with rfl | hc
      · decide
      · exact (isStatement_statement x).noSemicolon c hc
    rw [hcut, Text.split_append_sep (by decide), Text.split_of_none hnone, split_printBody xs]
    rfl

theorem dropEnds_statement (x : Identifier o × Identifier o) :
    Statement.dropEnds (Text.trim ('\n' :: statement x)) = (0, statement x) := by
  have hs := isStatement_statement x
  obtain ⟨c, hc, hblank, -⟩ := hs.begins
  obtain ⟨t, ht⟩ := List.head?_eq_some_iff.mp hc
  have htrim : Text.trim ('\n' :: statement x) = statement x := by
    rw [Text.trim, Text.trimStart, List.dropWhile_cons_of_pos isBlank_newline, ht,
      List.dropWhile_cons_of_neg (by simp [hblank]), ← ht, hs.firm.trimEnd]
  rw [htrim, Statement.dropEnds_of_none hs.noEnd]

theorem opensSubprogram_statement (x : Identifier o × Identifier o) :
    Statement.opensSubprogram (statement x) = false := by
  have h := x.1.free.noSubprogram
  simp only [subprogramWords, List.mem_cons, not_or] at h
  unfold Statement.opensSubprogram statement
  rw [Statement.firstWord_instantiation]
  simp [h.1, h.2.1]

theorem ofFragments_printBody : ∀ xs : List (Identifier o × Identifier o),
    Statement.ofFragments 0 (Statement.fragments (xs.map ('\n' :: statement ·) ++ [['\n', '\n']])) =
      xs.map (⟨statement ·, [], false⟩) ++ [⟨[], [], false⟩]
  | [] => by
    have hnil : Statement.dropEnds (Text.trim ['\n', '\n']) = (0, []) := by
      rw [Text.trim_of_blank (by simp [isBlank_newline]), Statement.dropEnds_nil]
    simp [Statement.fragments, Statement.ofFragments, hnil, Statement.opensSubprogram,
      Statement.firstWord]
  | x :: xs => by
    have ih := ofFragments_printBody xs
    have hone : Statement.ofFragment 0 ⟨'\n' :: statement x, []⟩ = ⟨statement x, [], false⟩ := by
      simp [Statement.ofFragment, dropEnds_statement, opensSubprogram_statement]
    have hdepth : Statement.depthBehind 0 ⟨'\n' :: statement x, []⟩ = 0 := by
      simp [Statement.depthBehind, dropEnds_statement, opensSubprogram_statement]
    unfold Statement.fragments at ih ⊢
    rw [List.map_cons, List.cons_append, List.map_cons, Statement.ofFragments_cons, hone, hdepth,
      ih]
    rfl

end Outline

/-- **The statements of an outline's body** are its instantiations and a blank rest. -/
theorem Statement.ofBody_print (m : Outline o) :
    Statement.ofBody o m.printBody =
      m.instances.map (⟨Outline.statement ·, [], false⟩) ++ [⟨[], [], false⟩] := by
  rw [Statement.ofBody_of_plain o m.not_mem_printBody, Outline.printBody,
    Outline.split_printBody, Outline.ofFragments_printBody]

theorem Statement.bodyDiagnostics_print (module : String) (m : Outline o) :
    Statement.bodyDiagnostics module o m.printBody = [] := by
  have hnone : (Piece.ofBody m.printBody).filterMap Piece.directive? = [] := by
    rw [Piece.ofBody_of_plain m.not_mem_printBody, List.filterMap_map]
    simp [Piece.directive?]
  unfold Statement.bodyDiagnostics
  rw [hnone]
  rfl

/-! ### What the statements give -/

namespace ModuleInfo

theorem addStatement_instance (module : String) (c : Contents)
    (x : Identifier o × Identifier o) :
    c.addStatement module o ⟨Outline.statement x, [], false⟩ =
      { c with instances := c.instances ++ [Outline.instanceOf x] } := by
  have hparam : Parameter.ofStatement? o (Outline.statement x) = none :=
    Parameter.ofStatement?_instantiation x.1.free.identifier x.2.free.identifier o
  have hpin : PinDecl.beginsWithDirection
      (PinItem.ofTokens (Token.scan (Outline.statement x))) = false :=
    PinDecl.beginsWithDirection_instantiation x.1.free.identifier
  have hinst : Instance.ofStatement? o ⟨Outline.statement x, [], false⟩ =
      some (Outline.instanceOf x) := by
    rw [Outline.instanceOf_eq]
    exact Instance.ofStatement?_instantiation x.2.free.identifier x.1.free.unreserved [] false
  unfold Contents.addStatement
  simp [hparam, Contents.addOther, PinDecl.refine?, hpin, Contents.addInstance, hinst]

theorem addStatement_nil (module : String) (c : Contents) :
    c.addStatement module o ⟨[], [], false⟩ = c := by
  have hscan : Token.scan [] = [] := Token.scanFrom_of_next?_none rfl
  have hparam : Parameter.ofStatement? o [] = none := by
    unfold Parameter.ofStatement?
    rw [hscan]
    rfl
  have hpin : PinDecl.beginsWithDirection (PinItem.ofTokens (Token.scan [])) = false := by
    rw [hscan]
    rfl
  have hinst : Instance.ofStatement? o ⟨[], [], false⟩ = none := rfl
  unfold Contents.addStatement
  simp [hparam, Contents.addOther, PinDecl.refine?, hpin, Contents.addInstance, hinst]

/-- **The statements of an outline add its instances,** and nothing else. -/
theorem foldl_addStatement_print (module : String) (m : Outline o) (c : Contents) :
    (Statement.ofBody o m.printBody).foldl (Contents.addStatement module o) c =
      { c with instances := c.instances ++ m.instances.map Outline.instanceOf } := by
  have hrun : ∀ (xs : List (Identifier o × Identifier o)) (c : Contents),
      (xs.map (⟨Outline.statement ·, [], false⟩)).foldl (Contents.addStatement module o) c =
        { c with instances := c.instances ++ xs.map Outline.instanceOf } := by
    intro xs
    induction xs with
    | nil => simp
    | cons x xs ih =>
      intro c
      rw [List.map_cons, List.foldl_cons, addStatement_instance, ih]
      simp
  rw [Statement.ofBody_print, List.foldl_append, hrun, List.foldl_cons, List.foldl_nil,
    addStatement_nil]

end ModuleInfo

end DesignAtlas
