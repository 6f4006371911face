import DesignAtlas.Proofs.Checked.Parameter
import DesignAtlas.Proofs.Checked.Statement
import DesignAtlas.Proofs.Design.Found
import DesignAtlas.Proofs.ModuleDecl.Runs
import DesignAtlas.Proofs.Pin.Normal

/-! # The texts of a module's records are normal

Whatever the source files hold, no record of a design has blanks where a name, a size, a type, a
value, a condition or a statement should have none (`Design.normal_ofFiles`). Each kind of record has
its normal form as a structure. The readers of tokens leave it because tokens are tidy, the readers
of lines because directives are; a statement keeps the contents of a module normal
(`Contents.Normal.addStatement`), and so does a run of them. -/

namespace DesignAtlas

open Token (AllTidy)

/-! ### Normal records -/

/-- The name of a parameter has no blanks, its size or type at most one space, and its value is
collapsed. -/
structure Parameter.Normal (p : Parameter) : Prop where
  name : Unbroken p.name
  sizeOrType : ∀ s ∈ p.sizeOrType, Phrase s
  defaultValue : Collapsed p.defaultValue

/-- A statement has no blanks around it. -/
structure Statement.Normal (s : Statement) : Prop where
  text : s.text.Trimmed
  conditionals : ∀ c ∈ s.conditionals, IsCondition c

/-- The names of an instance have no blanks, and its statement has none around it. -/
structure Instance.Normal (i : Instance) : Prop where
  callee : Unbroken i.callee
  instanceName : ∀ n ∈ i.instanceName, Unbroken n
  statement : Text.Trimmed i.statement.toList
  conditionals : ∀ c ∈ i.conditionals, IsCondition c

/-- The name of a module has no blanks, and its records are normal. -/
structure ModuleInfo.Normal (m : ModuleInfo) : Prop where
  name : Unbroken m.name
  pins : ∀ p ∈ m.pins.records, p.Normal
  parameters : ∀ p ∈ m.parameters.records, p.Normal
  instances : ∀ i ∈ m.instances, i.Normal

/-! ### Parameters -/

namespace Parameter

variable {o : Options} {text : Text} {ts : List Token} {p : Parameter}

theorem normal_of_binding? (h : AllTidy ts) {shape : Option String}
    (hshape : ∀ s ∈ shape, Phrase s) (hp : binding? text shape ts = some p) : p.Normal := by
  unfold binding? at hp
  split at hp
  · rename_i n e v vs
    split_ifs at hp
    obtain ⟨name, hname, rfl⟩ := Option.map_eq_some_iff.mp hp
    exact ⟨Token.unbroken_of_identifier? (h n List.mem_cons_self) hname, hshape,
      collapsed_collapse _⟩
  · cases hp

theorem normal_of_declarator? (h : AllTidy ts) (hp : declarator? text ts = some p) : p.Normal := by
  unfold declarator? at hp
  simp only at hp
  split at hp
  · cases hp
  · rename_i ranges rest hranges
    have hbehind := ((h.of_takeWord _).of_takeWord _).of_takeRanges? hranges
    refine normal_of_binding? hbehind (fun s hs => ?_) hp
    rcases Option.or_eq_some_iff.mp hs with hs | ⟨-, hs⟩
    · exact (Token.unbroken_rangeText text ranges s hs).phrase
    · exact Token.phrase_takeWord h _ _ s hs

theorem normal_of_ofSegment? (h : AllTidy ts) {inherited : Option (Option String)}
    (hshape : ∀ shape ∈ inherited, ∀ s ∈ shape, Phrase s)
    (hp : ofSegment? text o inherited ts = some p) : p.Normal := by
  unfold ofSegment? at hp
  split at hp
  · rename_i us hus
    exact normal_of_declarator? (h.of_run (afterKeyword?_suffix hus).isInfix) hp
  · obtain ⟨shape, hs, hp⟩ := Option.bind_eq_some_iff.mp hp
    exact normal_of_binding? h (hshape shape hs) hp

/-- **Each segment keeps** the size or type that is handed on a phrase, so all parameters are
normal. -/
theorem normal_of_mem_accepted : ∀ (ss : List (List Token)) {inherited : Option (Option String)},
    (∀ s ∈ ss, AllTidy s) → (∀ shape ∈ inherited, ∀ s ∈ shape, Phrase s) →
      ∀ p ∈ accepted (outcomes text o inherited ss), p.Normal
  | [], _, _, _ => fun _ hp => nomatch hp
  | s :: ss, inherited, hss, hshape => by
    have hrest : ∀ u ∈ ss, AllTidy u := fun u hu => hss u (List.mem_cons_of_mem s hu)
    rw [outcomes]
    cases hp : ofSegment? text o inherited s with
    | none => exact normal_of_mem_accepted ss hrest hshape
    | some p =>
      have hnormal := normal_of_ofSegment? (hss s List.mem_cons_self) hshape hp
      refine List.forall_mem_cons.mpr ⟨hnormal, normal_of_mem_accepted ss hrest ?_⟩
      intro shape hs
      cases hs
      exact hnormal.sizeOrType

theorem normal_of_declaredBy {ss : List (List Token)} (h : ∀ s ∈ ss, AllTidy s) :
    ∀ p ∈ (declaredBy o text ss).parameters, p.Normal :=
  normal_of_mem_accepted ss h fun _ hs => nomatch hs

theorem allTidy_of_mem_segments (text : Text) : ∀ s ∈ segments (Token.scan text), AllTidy s :=
  fun _ hs => (Token.allTidy_scan text).of_run (infix_of_mem_segments hs)

/-- **The parameters of a block are normal.** -/
theorem normal_ofBlock (o : Options) (text : Text) :
    ∀ p ∈ (ofBlock o text).parameters, p.Normal :=
  normal_of_declaredBy (allTidy_of_mem_segments text)

/-- **The parameters of a statement are normal.** -/
theorem normal_of_ofStatement? {d : Declared} (h : ofStatement? o text = some d) :
    ∀ p ∈ d.parameters, p.Normal := by
  have htidy := allTidy_of_mem_segments text
  unfold ofStatement? at h
  split at h
  · cases h
  · rename_i s ss hs
    split_ifs at h
    cases h
    exact normal_of_declaredBy (hs ▸ htidy)

end Parameter

/-! ### Statements -/

namespace Fragment

/-- **One piece after the other keeps** the conditions of fragments directives. -/
theorem isCondition_of_mem_ofPieces (ps : List Piece) {stack : ConditionStack}
    {begun : Option (List String)} {read : Text} (hps : ∀ d, .directive d ∈ ps → d.Tidy)
    (hstack : stack.Tidy) (hbegun : ∀ cs ∈ begun, ∀ c ∈ cs, IsCondition c) :
    ∀ f ∈ ofPieces stack begun read ps, ∀ c ∈ f.conditionals, IsCondition c := by
  have hnone : ∀ cs ∈ (none : Option (List String)), ∀ c ∈ cs, IsCondition c := by simp
  induction ps generalizing stack begun read with
  | nil =>
    rw [ofPieces, List.forall_mem_singleton]
    cases begun with
    | none => exact ConditionStack.isCondition_of_mem_snapshot hstack
    | some cs => exact hbegun cs rfl
  | cons p ps ih =>
    have hrest : ∀ d, .directive d ∈ ps → d.Tidy := fun d hd => hps d (List.mem_cons_of_mem _ hd)
    cases p with
    | directive d => exact ih hrest (hstack.advance (hps d List.mem_cons_self)) hbegun
    | char c =>
      have hsnapshot := ConditionStack.isCondition_of_mem_snapshot hstack
      rw [ofPieces]
      split_ifs
      · refine List.forall_mem_cons.mpr ⟨?_, ih hrest hstack hnone⟩
        cases begun with
        | none => exact hsnapshot
        | some cs => exact hbegun cs rfl
      · refine ih hrest hstack fun cs hcs => ?_
        cases hcs
        exact hsnapshot
      · exact ih hrest hstack hbegun

end Fragment

namespace Statement

variable {t u : Text}

theorem dropLabel_suffix (t : Text) : dropLabel t <:+ t := by
  unfold dropLabel
  split
  · rename_i t
    exact ((List.dropWhile_suffix _).trans ((List.dropWhile_suffix _).trans
      (List.dropWhile_suffix _))).trans (List.suffix_cons _ t)
  · exact List.suffix_refl _

theorem afterEnd?_suffix (h : afterEnd? t = some u) : u <:+ t := by
  unfold afterEnd? at h
  split_ifs at h
  cases h
  exact (dropLabel_suffix _).trans ((List.dropWhile_suffix _).trans (List.dropWhile_suffix _))

/-- **Words that end tasks leave a trimmed text** behind them. -/
theorem trimmed_dropEnds {t : Text} (h : t.Trimmed) : (dropEnds t).2.Trimmed := by
  cases he : afterEnd? t with
  | none =>
    rw [dropEnds_of_none he]
    exact h
  | some r =>
    rw [dropEnds_of_some he]
    exact trimmed_dropEnds (h.of_suffix (afterEnd?_suffix he) (Checked.flush_afterEnd? he))
  termination_by t.length
  decreasing_by exact length_afterEnd?_lt he

theorem normal_of_mem_ofFragments : ∀ (fs : List Fragment) (depth : Nat),
    (∀ f ∈ fs, ∀ c ∈ f.conditionals, IsCondition c) → ∀ s ∈ ofFragments depth fs, s.Normal
  | [], _, _ => fun _ hs => nomatch hs
  | f :: fs, depth, h => by
    rw [ofFragments]
    refine List.forall_mem_cons.mpr ⟨⟨trimmed_dropEnds (Text.trimmed_trim f.text), ?_⟩, ?_⟩
    · exact h f List.mem_cons_self
    · exact normal_of_mem_ofFragments fs _ fun g hg => h g (List.mem_cons_of_mem f hg)

/-- **The statements of a body are normal.** -/
theorem normal_of_mem_ofBody (o : Options) (body : Text) : ∀ s ∈ ofBody o body, s.Normal := by
  refine normal_of_mem_ofFragments _ 0 (Fragment.isCondition_of_mem_ofPieces _ ?_
    (ConditionStack.tidy_empty _) fun _ h => nomatch h)
  exact fun _ hd => Piece.tidy_of_mem_ofBody hd

end Statement

/-! ### Instances -/

namespace Instance

/-- The identifier at the front of a word has no blanks. -/
theorem unbroken_of_calleeOf? {w callee : Text} (hw : ∀ c ∈ w, isBlank c = false)
    (h : calleeOf? w = some callee) : Unbroken (String.ofList callee) := by
  refine unbroken_ofList.mpr fun d hd => ?_
  cases w with
  | nil => cases h
  | cons c t =>
    rw [calleeOf?] at h
    split_ifs at h
    · cases h
      exact hw d (List.mem_cons_of_mem c hd)
    · cases h
      rcases List.mem_cons.mp hd with rfl | hd
      · exact hw d List.mem_cons_self
      · exact isBlank_of_isWordChar (List.mem_takeWhile_imp hd)

theorem unbroken_of_nameOf? {ts : List Token} (h : AllTidy ts) {name : String}
    (hname : nameOf? ts = some name) : Unbroken name := by
  have hhead : ∀ {us : List Token}, us <:+ ts → us.head?.bind Token.identifier? = some name →
      Unbroken name := by
    intro us hus hn
    obtain ⟨t, ht, hn⟩ := Option.bind_eq_some_iff.mp hn
    exact Token.unbroken_of_identifier? (h t (hus.subset (List.mem_of_head? ht))) hn
  unfold nameOf? at hname
  split at hname
  · rename_i us
    obtain ⟨e, he, hn⟩ := Option.bind_eq_some_iff.mp hname
    have hrest : e.rest <:+ us :=
      ⟨e.inner ++ [e.close], by rw [List.append_assoc]; exact Token.closeParen?_append he⟩
    exact hhead (hrest.trans ((List.suffix_cons _ us).trans (List.suffix_cons _ _))) hn
  · cases hname
  · exact hhead (List.suffix_refl _) hname

/-- **The instance that a normal statement looks like is normal.** -/
theorem normal_of_ofStatement? {o : Options} {s : Statement} {i : Instance} (hs : s.Normal)
    (h : ofStatement? o s = some i) : i.Normal := by
  unfold ofStatement? at h
  split at h
  · rename_i w v x ws hwords
    split_ifs at h
    obtain ⟨callee, hcallee, rfl⟩ := Option.map_eq_some_iff.mp h
    have hw := (Text.solid_of_mem_words (hwords ▸ List.mem_cons_self : w ∈ Text.words s.text)).2
    refine ⟨unbroken_of_calleeOf? hw hcallee, fun n hn => ?_, ?_, hs.conditionals⟩
    · exact unbroken_of_nameOf?
        ((Token.allTidy_scan s.text).of_run (List.tail_suffix _).isInfix) hn
    · rw [String.toList_ofList]
      exact hs.text
  · cases h

end Instance

/-! ### Modules -/

namespace ModuleInfo

/-- What the statements read so far have given is normal. -/
structure Contents.Normal (c : Contents) : Prop where
  pins : ∀ p ∈ c.pins.records, p.Normal
  parameters : ∀ p ∈ c.parameters.records, p.Normal
  instances : ∀ i ∈ c.instances, i.Normal

namespace Contents

variable {o : Options} {c : Contents} {s : Statement}

theorem Normal.addInstance (h : c.Normal) (hs : s.Normal) : (c.addInstance o s).Normal := by
  unfold Contents.addInstance
  split
  · rename_i i hi
    refine ⟨h.pins, h.parameters, fun j hj => ?_⟩
    rcases List.mem_append.mp hj with hj | hj
    · exact h.instances j hj
    · rw [List.mem_singleton.mp hj]
      exact Instance.normal_of_ofStatement? hs hi
  · exact h

theorem Normal.addOther (h : c.Normal) (hs : s.Normal) : (c.addOther o s).Normal := by
  unfold Contents.addOther
  split
  · exact h.addInstance hs
  · split
    · rename_i pins hpins
      exact ⟨PinDecl.normal_of_refine? hs.conditionals h.pins hpins, h.parameters, h.instances⟩
    · exact h.addInstance hs

/-- **One statement keeps the contents normal.** -/
theorem Normal.addStatement (module : String) (h : c.Normal) (hs : s.Normal) :
    (c.addStatement module o s).Normal := by
  unfold Contents.addStatement
  split
  · exact h.addOther hs
  · rename_i d hd
    have hparams : (c.addParameters d.parameters).Normal :=
      ⟨h.pins, Roster.forall_mem_putAll (Parameter.normal_of_ofStatement? hd) h.parameters,
        h.instances⟩
    dsimp only
    split
    · exact hparams
    · exact Normal.addOther ⟨hparams.pins, hparams.parameters, hparams.instances⟩ hs

theorem Normal.foldl (module : String) : ∀ (ss : List Statement) {c : Contents},
    (∀ s ∈ ss, s.Normal) → c.Normal → (ss.foldl (Contents.addStatement module o) c).Normal
  | [], _, _, h => h
  | s :: ss, _, hss, h =>
    Normal.foldl module ss (fun u hu => hss u (List.mem_cons_of_mem s hu))
      (h.addStatement module (hss s List.mem_cons_self))

end Contents

theorem normal_headerContents (source : Text) (o : Options) (d : ModuleDecl) :
    (headerContents source o d).Normal := by
  refine ⟨(PinList.normal_ofText d.name o (d.pinList source)).pins, ?_, fun _ h => nomatch h⟩
  refine Roster.forall_mem_putAll ?_ fun _ h => nomatch h
  cases d.parameterBlock? source with
  | none => exact fun _ h => nomatch h
  | some block => exact Parameter.normal_ofBlock o block

/-- The name of a declaration is an identifier of the source. -/
theorem unbroken_name {source : Text} {d : ModuleDecl} (h : d ∈ ModuleDecl.ofSource source) :
    Unbroken d.name := by
  obtain ⟨r, hr, rfl⟩ := ModuleDecl.exists_run h
  exact (Token.allTidy_scan source).of_run hr ⟨.identifier r.name, r.nameSpan⟩
    (by simp [DeclRun.tokens])

/-- **The module of a declaration is normal.** -/
theorem normal_ofDecl (file : String) {source : Text} (o : Options) {d : ModuleDecl}
    (h : d ∈ ModuleDecl.ofSource source) : (ofDecl file source o d).1.Normal := by
  have hcontents : (contents source o d).Normal :=
    Contents.Normal.foldl d.name _ (Statement.normal_of_mem_ofBody o (d.body source))
      (normal_headerContents source o d)
  exact ⟨unbroken_name h, hcontents.pins, hcontents.parameters, hcontents.instances⟩

end ModuleInfo

/-- **The records of a design are normal.** Whatever the files hold and whatever is chosen, names and
sizes of pins have no blanks, types have at most one space, values are collapsed, conditions are
directives with at most a space and an argument without blanks, and statements have no blanks around
them. -/
theorem Design.normal_ofFiles (o : Options) (files : List SourceFile) :
    ∀ m ∈ (ofFiles o files).1.records, m.Normal := by
  refine ofFiles_induction (P := fun d => ∀ m ∈ d.records, m.Normal) (fun _ h => nomatch h) ?_
  intro file _ found hfound d hd m hm
  rcases Roster.mem_put hm with rfl | hm
  · obtain ⟨decl, hdecl, rfl⟩ := List.mem_map.mp hfound
    exact ModuleInfo.normal_ofDecl file.path o hdecl
  · exact hd m hm

/-- Tabs, newlines, a blank that ends an escaped name and blanks beyond ASCII. -/
theorem Design.normal_ofFiles_blanks :
    let source : Text := "module m #(parameter\tW = 1\u00a0+\t2) (input wire\n\tsigned [ W : 0 ] \\a+ );
`ifdef\u2003X\n\u3000c u ( \\a+ );\n`endif\nendmodule".toList
    let m : ModuleInfo :=
      { name := "m"
        sourceFile := "m.v"
        pins := ⟨[⟨"a+", some .input, some "wire signed", some "[W:0]", []⟩]⟩
        parameters := ⟨[⟨"W", none, "1 + 2"⟩]⟩
        body := "\n`ifdef\u2003X\n\u3000c u ( \\a+ );\n`endif\n"
        instances := [⟨"c", some "u", "c u ( \\a+ )", ["`ifdef X"]⟩] }
    m ∈ (ofFiles {} [⟨"m.v", source⟩]).1.records ∧ m.Normal := by
  intro source m
  have hm : m ∈ (ofFiles {} [⟨"m.v", source⟩]).1.records := by decide +kernel
  exact ⟨hm, normal_ofFiles {} [⟨"m.v", source⟩] m hm⟩

end DesignAtlas
