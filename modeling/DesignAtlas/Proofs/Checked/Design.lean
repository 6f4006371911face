import DesignAtlas.Design
import DesignAtlas.Proofs.Checked.Parameter
import DesignAtlas.Proofs.Checked.Statement
import DesignAtlas.Proofs.ModuleDecl.Append

/-! # Designs through checked accesses

A declaration is read as the texts of its parts, each sliced out of the source as soon as its tokens
are read, also when the attempt fails later on. Its parts are then read through checked accesses.

Adding a file to a design takes no access that asks in vain, whatever the file holds and whatever
the options are: the checked reading of the file is the plain one (`addFile_faultless`). -/

namespace DesignAtlas.Checked

/-! ### Reading one declaration -/

/-- A module declaration, by the texts of its parts. -/
structure Excerpt where
  name : String
  nameSpan : Span
  parameterBlock : Option Text
  pinList : Text
  body : Text
  deriving DecidableEq, Repr

/-- The texts of the parts of a declaration. -/
def Excerpt.ofDecl (source : Text) (d : ModuleDecl) : Excerpt :=
  ⟨d.name, d.nameSpan, d.parameterBlock? source, d.pinList source, d.body source⟩

/-- The outcome of an attempt and the tokens behind those that it took. -/
abbrev Outcome := Except DeclError Excerpt × List Token

/-- Reads the semicolon, the body and the end of the declaration. -/
def readBody (source : Text) (name : String) (nameSpan : Span) (parameterBlock : Option Text)
    (pinList : Text) : List Token → Except Fault Outcome
  | [] => return (.error (.semicolonExpected name), [])
  | t :: ts =>
    if t.payload = .symbol .semicolon then
      match ts.dropWhile fun t => t.payload != .keyword .endmodule with
      | [] => return (.error (.endExpected name), [])
      | e :: rest => do
        let body ← sliceSpan source ⟨t.span.limit, e.span.start⟩
        return (.ok ⟨name, nameSpan, parameterBlock, pinList, body⟩, rest)
    else return (.error (.semicolonExpected name), t :: ts)

/-- Reads the pin list and what follows it. -/
def readPins (source : Text) (name : String) (nameSpan : Span) (parameterBlock : Option Text) :
    List Token → Except Fault Outcome
  | [] => readBody source name nameSpan parameterBlock [] []
  | t :: ts =>
    if t.payload = .symbol .openParen then do
      match ← closeParen 1 ts with
      | none => return (.error (.pinsOpen name), [])
      | some e =>
        let pins ← sliceSpan source ⟨t.span.limit, e.close.span.start⟩
        readBody source name nameSpan parameterBlock pins e.rest
    else readBody source name nameSpan parameterBlock [] (t :: ts)

/-- Reads the parameter block behind its hash and what follows it. -/
def readBlock (source : Text) (name : String) (nameSpan : Span) :
    List Token → Except Fault Outcome
  | [] => return (.error (.parenExpected name), [])
  | t :: ts =>
    if t.payload = .symbol .openParen then do
      match ← closeParen 1 ts with
      | none => return (.error (.parametersOpen name), [])
      | some e =>
        let block ← sliceSpan source ⟨t.span.limit, e.close.span.start⟩
        readPins source name nameSpan (some block) e.rest
    else return (.error (.parenExpected name), t :: ts)

/-- Reads an optional parameter block and what follows it. -/
def readParameters (source : Text) (name : String) (nameSpan : Span) :
    List Token → Except Fault Outcome
  | [] => readPins source name nameSpan none []
  | t :: ts =>
    if t.payload = .symbol .hash then readBlock source name nameSpan ts
    else readPins source name nameSpan none (t :: ts)

/-- Reads a declaration behind its keyword. -/
def read (source : Text) : List Token → Except Fault Outcome
  | [] => return (.error .endOfInput, [])
  | t :: ts =>
    match t.payload with
    | .identifier name => readParameters source name t.span ts
    | p => return (.error (.nameExpected p), ts)

/-! The same tokens are taken, whatever is sliced. -/

section Rest

variable {source : Text} {name : String} {s : Span} {out : Outcome}

theorem rest_readBody {block : Option Text} {pins : Text} (a b : Option Span) {ts : List Token}
    (h : readBody source name s block pins ts = .ok out) :
    out.2 = (ModuleDecl.readBody name s a b ts).2 := by
  cases ts with
  | nil => cases h; rfl
  | cons t ts =>
    rw [readBody] at h
    rw [ModuleDecl.readBody_cons]
    split_ifs at h ⊢
    · cases hd : ts.dropWhile fun t => t.payload != .keyword .endmodule with
      | nil => rw [hd] at h; cases h; rfl
      | cons e rest =>
        rw [hd] at h
        obtain ⟨_, -, h⟩ := exists_of_bind_eq_ok h
        cases h
        rfl
    · cases h; rfl

theorem rest_readPins {block : Option Text} (a : Option Span) {ts : List Token}
    (h : readPins source name s block ts = .ok out) :
    out.2 = (ModuleDecl.readPins name s a ts).2 := by
  cases ts with
  | nil =>
    rw [readPins] at h
    exact rest_readBody a none h
  | cons t ts =>
    rw [readPins] at h
    rw [ModuleDecl.readPins_cons]
    split_ifs at h ⊢
    · rw [closeParen_eq, ok_bind] at h
      cases hc : Token.closeParen? 0 ts with
      | none => rw [hc] at h; cases h; rfl
      | some e =>
        rw [hc] at h
        obtain ⟨_, -, h⟩ := exists_of_bind_eq_ok h
        exact rest_readBody a _ h
    · exact rest_readBody a none h

theorem rest_readParameters {ts : List Token} (h : readParameters source name s ts = .ok out) :
    out.2 = (ModuleDecl.readParameters name s ts).2 := by
  cases ts with
  | nil =>
    rw [readParameters] at h
    exact rest_readPins none h
  | cons t ts =>
    rw [readParameters] at h
    rw [ModuleDecl.readParameters_cons]
    split_ifs at h ⊢
    · cases ts with
      | nil => cases h; rfl
      | cons u us =>
        rw [readBlock] at h
        simp only
        split_ifs at h ⊢
        · rw [closeParen_eq, ok_bind] at h
          cases hc : Token.closeParen? 0 us with
          | none => rw [hc] at h; cases h; rfl
          | some e =>
            rw [hc] at h
            obtain ⟨_, -, h⟩ := exists_of_bind_eq_ok h
            exact rest_readPins _ h
        · cases h; rfl
    · exact rest_readPins none h

theorem rest_read {ts : List Token} (h : read source ts = .ok out) :
    out.2 = (ModuleDecl.read ts).2 := by
  cases ts with
  | nil => cases h; rfl
  | cons t ts =>
    rw [read] at h
    split at h
    · rename_i n hn
      rw [ModuleDecl.read_cons_identifier _ _ _ hn]
      exact rest_readParameters h
    · rename_i hn
      rw [ModuleDecl.read_cons_other _ _ hn]
      cases h
      rfl

end Rest

/-! The slices are faultless on tokens of the source. -/

section Read

variable {source : Text}

/-- The outcome of an attempt with the parts of its declaration sliced out of the source. -/
def sliced (source : Text) (x : ModuleDecl.Outcome) : Outcome :=
  (x.1.map (Excerpt.ofDecl source), x.2)

/-- What stands between two tokens, the first of which begins an end of the source's tokens. -/
theorem sliceSpan_between {t u : Token} {ts mid rest : List Token}
    (h : t :: ts <:+ Token.scan source) (hts : mid ++ u :: rest = ts) :
    sliceSpan source ⟨t.span.limit, u.span.start⟩ =
      .ok (Span.slice ⟨t.span.limit, u.span.start⟩ source) := by
  have hinfix : t :: (mid ++ [u]) <:+: Token.scan source := by
    obtain ⟨pre, hpre⟩ := h
    exact ⟨pre, rest, by rw [← hpre, ← hts]; simp⟩
  obtain ⟨text, htext⟩ := Token.covers_between hinfix
  rw [sliceSpan_eq htext, htext.slice_eq]

theorem suffix_behind {t u : Token} {ts mid rest : List Token}
    (h : t :: ts <:+ Token.scan source) (hts : mid ++ u :: rest = ts) :
    rest <:+ Token.scan source :=
  List.IsSuffix.trans ⟨t :: (mid ++ [u]), by rw [← hts]; simp⟩ h

variable (name : String) (s : Span) {ts : List Token}

theorem readBody_eq (a b : Option Span) (hts : ts <:+ Token.scan source) :
    readBody source name s (a.map fun x => x.slice source) (b.elim [] fun x => x.slice source) ts =
      .ok (sliced source (ModuleDecl.readBody name s a b ts)) := by
  cases ts with
  | nil => rfl
  | cons t ts =>
    rw [readBody, ModuleDecl.readBody_cons]
    split_ifs with hsemi
    · have hsplit := List.takeWhile_append_dropWhile
        (p := fun t : Token => t.payload != .keyword .endmodule) (l := ts)
      cases hd : ts.dropWhile fun t => t.payload != .keyword .endmodule with
      | nil => rfl
      | cons e rest =>
        rw [hd] at hsplit
        simp only [sliceSpan_between hts hsplit, ok_bind]
        cases b <;> rfl
    · rfl

theorem readPins_eq (a : Option Span) (hts : ts <:+ Token.scan source) :
    readPins source name s (a.map fun x => x.slice source) ts =
      .ok (sliced source (ModuleDecl.readPins name s a ts)) := by
  cases ts with
  | nil => rfl
  | cons t ts =>
    rw [readPins, ModuleDecl.readPins_cons]
    split_ifs with hopen
    · rw [closeParen_eq, ok_bind]
      cases hc : Token.closeParen? 0 ts with
      | none => rfl
      | some e =>
        have happ := Token.closeParen?_append hc
        simp only [sliceSpan_between hts happ, ok_bind]
        exact readBody_eq name s a (some _) (suffix_behind hts happ)
    · exact readBody_eq name s a none hts

theorem readParameters_eq (hts : ts <:+ Token.scan source) :
    readParameters source name s ts =
      .ok (sliced source (ModuleDecl.readParameters name s ts)) := by
  cases ts with
  | nil => rfl
  | cons t ts =>
    rw [readParameters, ModuleDecl.readParameters_cons]
    split_ifs with hhash
    · cases ts with
      | nil => rfl
      | cons u us =>
        have hus := (List.suffix_cons t (u :: us)).trans hts
        rw [readBlock]
        simp only
        split_ifs with hopen
        · rw [closeParen_eq, ok_bind]
          cases hc : Token.closeParen? 0 us with
          | none => rfl
          | some e =>
            have happ := Token.closeParen?_append hc
            simp only [sliceSpan_between hus happ, ok_bind]
            exact readPins_eq name s (some _) (suffix_behind hus happ)
        · rfl
    · exact readPins_eq name s none hts

/-- **An attempt at a declaration takes its slices without a fault.** -/
theorem read_eq (hts : ts <:+ Token.scan source) :
    read source ts = .ok (sliced source (ModuleDecl.read ts)) := by
  cases ts with
  | nil => rfl
  | cons t ts =>
    rw [read]
    split
    · rename_i n hn
      rw [ModuleDecl.read_cons_identifier _ _ _ hn]
      exact readParameters_eq n _ ((List.suffix_cons t ts).trans hts)
    · rename_i hn
      rw [ModuleDecl.read_cons_other _ _ hn]
      rfl

end Read

/-! ### Reading all declarations -/

/-- The declarations among the attempts in a token list, in order. -/
def excerptsIn (source : Text) : List Token → Except Fault (List Excerpt)
  | [] => .ok []
  | t :: ts =>
    if ModuleDecl.isModuleKeyword t then
      match _h : read source ts with
      | .error e => .error e
      | .ok (result, rest) => do
        let behind ← excerptsIn source rest
        return result.toOption.toList ++ behind
    else excerptsIn source ts
  termination_by ts => ts.length
  decreasing_by
    · have h1 := ModuleDecl.length_read_le ts
      have h2 := rest_read ‹_›
      simp only at h2
      simp only [List.length_cons, h2]
      omega
    · simp

/-- The declarations in a source text, in order. -/
def excerpts (source : Text) : Except Fault (List Excerpt) := do
  excerptsIn source (← scan source)

theorem excerptsIn_eq {source : Text} {ts : List Token} (hts : ts <:+ Token.scan source) :
    excerptsIn source ts =
      .ok ((ModuleDecl.succeeded (ModuleDecl.attempts ts)).map (Excerpt.ofDecl source)) := by
  induction ts using ModuleDecl.attempts.induct with
  | case1 =>
    rw [excerptsIn, ModuleDecl.attempts]
    rfl
  | case2 t ts hk ih =>
    have htail := (List.suffix_cons t ts).trans hts
    have hread := read_eq htail
    rw [excerptsIn, if_pos hk, ModuleDecl.attempts_cons, if_pos hk, ModuleDecl.succeeded_cons]
    split <;> rename_i h <;> rw [hread] at h <;> cases h
    rw [ih ((ModuleDecl.takes_read ts).1.trans htail), ok_bind]
    cases (ModuleDecl.read ts).1 <;> rfl
  | case3 t ts hk ih =>
    rw [excerptsIn, if_neg hk, ModuleDecl.attempts_cons, if_neg hk]
    exact ih ((List.suffix_cons t ts).trans hts)

theorem excerpts_eq (source : Text) :
    excerpts source = .ok ((ModuleDecl.ofSource source).map (Excerpt.ofDecl source)) := by
  unfold excerpts
  rw [scan_eq, ok_bind, excerptsIn_eq (List.suffix_refl _)]
  rfl

/-! ### The module of a declaration -/

open ModuleInfo (Contents)

/-- Adds the instance that a statement looks like. -/
def addInstance (o : Options) (s : Statement) (c : Contents) : Except Fault Contents := do
  match ← instanceOf o s with
  | some i => return { c with instances := c.instances ++ [i] }
  | none => return c

/-- Takes a statement that declares no parameters: it states pins or is an instance. -/
def addOther (o : Options) (s : Statement) (c : Contents) : Except Fault Contents :=
  if s.inSubprogram then addInstance o s c
  else do
    match ← refine c.pins s.text s.conditionals with
    | some pins => return { c with pins := pins }
    | none => addInstance o s c

/-- Takes one more statement of the module. -/
def addStatement (module : String) (o : Options) (c : Contents) (s : Statement) :
    Except Fault Contents := do
  match ← statement o s.text with
  | none => addOther o s c
  | some d =>
    let c := c.addParameters d.parameters
    if d.rejected.isEmpty then return c
    else addOther o s (c.report ⟨.unrecognizedParameter, module, String.ofList s.text⟩)

/-- What a declaration gives. -/
def contents (o : Options) (e : Excerpt) : Except Fault Contents := do
  let pins ← pinList e.name o e.pinList
  let declared ← match e.parameterBlock with
    | some t => block o t
    | none => pure ⟨[], []⟩
  let read ← pieces e.body
  let stack := ConditionStack.empty o.elsePolicy
  let unbalanced := (stack.rejected (read.filterMap Piece.directive?)).map fun d =>
    (⟨.unbalancedEndif, e.name, "`" ++ d.name⟩ : Diagnostic)
  let statements ← ofFragments 0 (Fragment.ofPieces stack none [] read)
  statements.foldlM (addStatement e.name o)
    { pins := pins.pins
      parameters := Roster.empty.putAll declared.parameters
      instances := []
      diagnostics := pins.diagnostics ++ Parameter.blockDiagnostics e.name declared ++ unbalanced }

/-- Defines the module of a declaration; the diagnostics are added to those before. -/
def addExcerpt (file : String) (o : Options) (s : Design × List Diagnostic) (e : Excerpt) :
    Except Fault (Design × List Diagnostic) := do
  let c ← contents o e
  let r := Design.define s.1
    ⟨e.name, file, c.pins, c.parameters, String.ofList e.body, c.instances⟩
  return (r.1, s.2 ++ c.diagnostics ++ r.2)

/-- Defines the modules of a source file in order. -/
def addFile (o : Options) (s : Design × List Diagnostic) (file : SourceFile) :
    Except Fault (Design × List Diagnostic) := do
  (← excerpts (Comment.strip file.text)).foldlM (addExcerpt file.path o) s

theorem addInstance_eq (o : Options) (s : Statement) (c : Contents) :
    addInstance o s c = .ok (c.addInstance o s) := by
  unfold addInstance Contents.addInstance
  rw [instanceOf_eq, ok_bind]
  cases Instance.ofStatement? o s <;> rfl

theorem addOther_eq (o : Options) (s : Statement) (c : Contents) :
    addOther o s c = .ok (c.addOther o s) := by
  unfold addOther Contents.addOther
  split_ifs
  · exact addInstance_eq o s c
  · rw [refine_eq, ok_bind]
    cases PinDecl.refine? c.pins s.text s.conditionals with
    | some pins => rfl
    | none => exact addInstance_eq o s c

theorem addStatement_eq (module : String) (o : Options) (c : Contents) (s : Statement) :
    addStatement module o c s = .ok (c.addStatement module o s) := by
  unfold addStatement Contents.addStatement
  rw [statement_eq, ok_bind]
  cases Parameter.ofStatement? o s.text with
  | none => exact addOther_eq o s c
  | some d =>
    simp only
    split_ifs
    · rfl
    · exact addOther_eq ..

theorem contents_eq (source : Text) (o : Options) (d : ModuleDecl) :
    contents o (Excerpt.ofDecl source d) = .ok (ModuleInfo.contents source o d) := by
  have hstatements : ∀ (ss : List Statement) (c : Contents),
      ss.foldlM (addStatement d.name o) c = .ok (ss.foldl (Contents.addStatement d.name o) c) :=
    fun ss c => foldlM_eq_ok c fun c s _ => addStatement_eq d.name o c s
  unfold contents ModuleInfo.contents ModuleInfo.headerContents
  simp only [Excerpt.ofDecl, pinList_eq, block_eq, pieces_eq, ofFragments_eq, hstatements, ok_bind]
  cases d.parameterBlock? source <;> rfl

theorem addExcerpt_eq (file : String) (source : Text) (o : Options)
    (s : Design × List Diagnostic) (d : ModuleDecl) :
    addExcerpt file o s (Excerpt.ofDecl source d) = .ok (Design.addDecl file source o s d) := by
  unfold addExcerpt
  rw [contents_eq, ok_bind]
  rfl

/-- **Adding a file is faultless**: for every text and all options, every slice is cut between two
characters of its text, every index is below the length and every depth that is lowered is positive,
and what comes of it is the design with the modules of the file. -/
theorem addFile_faultless (o : Options) (s : Design × List Diagnostic) (file : SourceFile) :
    addFile o s file = .ok (Design.addFile o s file) := by
  unfold addFile Design.addFile
  rw [excerpts_eq, ok_bind, List.foldlM_map]
  exact foldlM_eq_ok _ fun s d _ => addExcerpt_eq file.path _ o s d

end DesignAtlas.Checked
