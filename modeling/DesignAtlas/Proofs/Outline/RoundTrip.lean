import DesignAtlas.Proofs.Outline.Declaration

/-! # Printing a design and building it

The parts of a printed module are read back one by one, so the module is what its outline says
(`ofDecl_print`). Printed modules that follow each other in a file are found one by one, since a
file can be cut between them (`found_printFile`), and files of outlines with distinct names give the
design of these outlines (`ofFiles_print`). -/

namespace DesignAtlas

namespace Outline

variable {o : Options}

/-- **A printed module gives what its outline says,** without diagnostics. -/
theorem ofDecl_print (path : String) (m : Outline o) :
    ModuleInfo.ofDecl path m.core o m.decl = (m.info path, []) := by
  obtain ⟨hpins, hdiags⟩ := PinList.ofText_print m.label.name m
  have hparams : Roster.empty.putAll (m.parameters.map parameter) =
      ⟨m.parameters.map parameter⟩ := by
    refine Roster.putAll_eq_append _ Roster.empty ?_
    rw [List.map_map]
    exact m.parameters_nodup
  have hheader : ModuleInfo.headerContents m.core o m.decl =
      ⟨⟨m.ports.map Port.pin⟩, ⟨m.parameters.map parameter⟩, [], []⟩ := by
    have hname : m.decl.name = m.label.name := rfl
    have hblock := m.parameterBlock?_decl
    unfold ModuleInfo.headerContents
    by_cases hempty : m.parameters.isEmpty = true
    · rw [if_pos hempty] at hblock
      simp only [hblock, pinList_decl, body_decl, Statement.bodyDiagnostics_print, hname, hpins,
        hdiags]
      rw [List.isEmpty_iff.mp hempty]
      rfl
    · rw [if_neg hempty] at hblock
      simp only [hblock, pinList_decl, body_decl, Statement.bodyDiagnostics_print, hname, hpins,
        hdiags, Parameter.ofBlock_print, hparams]
      rfl
  unfold ModuleInfo.ofDecl ModuleInfo.contents
  simp only [hheader, body_decl, ModuleInfo.foldl_addStatement_print]
  rfl

/-! ### Files of outlines -/

theorem plain_word (w : Word) : Comment.Plain w.text := by
  intro c hc
  have h := Word.isWordChar_of_mem hc
  constructor <;> (rintro rfl; cases h)

theorem plain_numeral (n : Numeral) : Comment.Plain n.text := by
  intro c hc
  have h := Numeral.isWordChar_of_mem hc
  constructor <;> (rintro rfl; cases h)

theorem plain_commas : ∀ {ts : List Text}, (∀ t ∈ ts, Comment.Plain t) →
    Comment.Plain (commas ts)
  | [], _ => Comment.plain_nil
  | [t], h => by simpa [commas] using h t (by simp)
  | t :: u :: ts, h => by
    have hsep : ", ".toList = [',', ' '] := by decide
    have ih : Comment.Plain (commas (u :: ts)) := plain_commas fun x hx => h x (by simp [hx])
    unfold commas at ih ⊢
    rw [hsep] at ih ⊢
    rw [List.intercalate_cons_cons]
    simp [h t (by simp), ih]

theorem plain_printParameter (p : Identifier o × Value o) : Comment.Plain (printParameter p) := by
  have hvalue : Comment.Plain p.2.text := by
    cases p.2 with
    | word w => exact plain_word w.toWord
    | numeral n => exact plain_numeral n
  unfold printParameter
  simp only [Comment.plain_append]
  exact ⟨⟨⟨by decide, plain_word p.1.toWord⟩, by decide⟩, hvalue⟩

theorem plain_port (p : Port o) : Comment.Plain p.print := by
  have hdir : Comment.Plain p.direction.word.toList := by cases p.direction <;> decide
  have hnet : Comment.Plain (p.netType.elim [] fun t => ' ' :: t.text) := by
    cases p.netType with
    | none => exact Comment.plain_nil
    | some t => exact Comment.plain_cons.mpr ⟨by decide, plain_word t.toWord⟩
  have hrange : Comment.Plain (p.range.elim [] fun r => ' ' :: Port.rangeText r) := by
    cases p.range with
    | none => exact Comment.plain_nil
    | some r => simp [Port.rangeText, plain_numeral]
  unfold Port.print
  simp only [Comment.plain_append, Comment.plain_cons]
  exact ⟨⟨⟨hdir, hnet⟩, hrange⟩, by decide, plain_word p.label.toWord⟩

theorem plain_printParameters (m : Outline o) : Comment.Plain m.printParameters := by
  unfold printParameters
  split_ifs
  · exact Comment.plain_nil
  · simp only [Comment.plain_append]
    refine ⟨⟨by decide, plain_commas fun t ht => ?_⟩, by decide⟩
    obtain ⟨p, -, rfl⟩ := List.mem_map.mp ht
    exact plain_printParameter p

theorem plain_printBody (m : Outline o) : Comment.Plain m.printBody := by
  refine Comment.plain_cons.mpr ⟨by decide, fun c hc => ?_⟩
  obtain ⟨x, -, hx⟩ := List.mem_flatMap.mp hc
  have hplain : Comment.Plain (printInstance x) := by
    unfold printInstance
    simp only [Comment.plain_append, Comment.plain_cons]
    exact ⟨⟨plain_word x.1.toWord, by decide, plain_word x.2.toWord⟩, by decide⟩
  exact hplain c hx

/-- A printed module has no comments and no strings. -/
theorem plain_core (m : Outline o) : Comment.Plain m.core := by
  have hports : Comment.Plain (commas (m.ports.map Port.print)) := by
    refine plain_commas fun t ht => ?_
    obtain ⟨p, -, rfl⟩ := List.mem_map.mp ht
    exact plain_port p
  unfold core printHeader
  simp only [Comment.plain_append]
  exact ⟨⟨⟨⟨⟨⟨⟨by decide, plain_word m.label.toWord⟩, m.plain_printParameters⟩, by decide⟩, hports⟩,
    by decide⟩, m.plain_printBody⟩, by decide⟩

/-- Outlines one after the other, as they are written. -/
def printFile (ms : List (Outline o)) : Text := ms.flatMap print

end Outline

namespace Design

variable {o : Options}

theorem found_core (path : String) (m : Outline o) :
    found o ⟨path, m.core⟩ = [(m.info path, [])] := by
  unfold found declared
  simp only [Comment.strip_of_plain m.plain_core, m.ofSource_core, List.map_cons, List.map_nil,
    m.ofDecl_print path]

/-- **The outlines of a file are found in it,** in order and without diagnostics. -/
theorem found_printFile (path : String) : ∀ ms : List (Outline o),
    found o ⟨path, Outline.printFile ms⟩ = ms.map fun m => (m.info path, [])
  | [] => by
    have hscan : Token.scan (Comment.strip []) = [] := Token.scanFrom_of_next?_none rfl
    unfold found declared ModuleDecl.ofSource ModuleDecl.attemptsIn
    simp only [Outline.printFile, List.flatMap_nil, hscan, ModuleDecl.attempts]
    rfl
  | m :: ms => by
    have htext : Outline.printFile (m :: ms) = m.core ++ '\n' :: Outline.printFile ms := by
      simp [Outline.printFile, Outline.print_eq]
    have hblock := Comment.not_endsInBlock_of_plain m.plain_core
    have hend : ModuleDecl.EndsWithLast (Comment.strip m.core) := by
      rw [Comment.strip_of_plain m.plain_core]
      exact m.endsWithLast_core
    rw [htext, found_cut hblock hend, found_core, found_printFile path ms]
    rfl

/-- **Printing a design and building it gives the design back.** Files of outlines, each module name
used once, give exactly the modules of the outlines, in order, and no diagnostics. -/
theorem ofFiles_print (o : Options) (files : List (String × List (Outline o)))
    (h : ((files.flatMap Prod.snd).map fun m => m.label.name).Nodup) :
    ofFiles o (files.map fun f => ⟨f.1, Outline.printFile f.2⟩) =
      (⟨files.flatMap fun f => f.2.map (Outline.info f.1)⟩, []) := by
  have hfound : (files.map fun f => SourceFile.mk f.1 (Outline.printFile f.2)).flatMap (found o) =
      files.flatMap fun f => f.2.map fun m => (m.info f.1, []) := by
    rw [List.flatMap_map]
    simp only [found_printFile]
  have hnames : (files.flatMap fun f => f.2.map fun m => (m.info f.1, ([] : List Diagnostic))).map
      (fun m => m.1.name) = (files.flatMap Prod.snd).map fun m => m.label.name := by
    simp only [List.map_flatMap, List.map_map]
    rfl
  rw [ofFiles_eq, hfound, foldl_enter _ _ (by rw [hnames]; exact h)]
  simp [Roster.empty, List.map_flatMap, Function.comp_def]

/-- A register of a given width. -/
def register : Outline {} where
  label := ⟨⟨"register".toList, by decide⟩, by decide⟩
  parameters := [(⟨⟨"W".toList, by decide⟩, by decide⟩, .numeral ⟨"8".toList, by decide⟩)]
  ports :=
    [⟨.input, some ⟨⟨"wire".toList, by decide⟩, by decide⟩,
      some (⟨"7".toList, by decide⟩, ⟨"0".toList, by decide⟩),
      ⟨⟨"d".toList, by decide⟩, by decide⟩⟩,
    ⟨.output, none, none, ⟨⟨"q".toList, by decide⟩, by decide⟩⟩]
  instances := []
  parameters_nodup := by decide
  ports_nodup := by decide

/-- A module that uses the register twice. -/
def pair : Outline {} where
  label := ⟨⟨"pair".toList, by decide⟩, by decide⟩
  parameters := []
  ports := []
  instances := [(register.label, ⟨⟨"u0".toList, by decide⟩, by decide⟩),
    (register.label, ⟨⟨"u1".toList, by decide⟩, by decide⟩)]
  parameters_nodup := by decide
  ports_nodup := by decide

/-- A design of two files, the first with two modules. -/
theorem ofFiles_print_pair :
    let files : List (String × List (Outline {})) := [("a.v", [register, pair]), ("b.v", [])]
    Outline.printFile [register, pair] =
      ("module register #(parameter W = 8) (input wire [7:0] d, output q);\nendmodule\n" ++
        "module pair ();\nregister u0 ();\nregister u1 ();\nendmodule\n").toList ∧
    ((files.flatMap Prod.snd).map fun m => m.label.name).Nodup ∧
      ofFiles {} (files.map fun f => ⟨f.1, Outline.printFile f.2⟩) =
        (⟨files.flatMap fun f => f.2.map (Outline.info f.1)⟩, []) := by
  intro files
  have h : ((files.flatMap Prod.snd).map fun m => m.label.name).Nodup := by decide
  exact ⟨by decide +kernel, h, ofFiles_print {} files h⟩

end Design

end DesignAtlas
