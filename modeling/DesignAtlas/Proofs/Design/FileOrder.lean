import DesignAtlas.Document
import DesignAtlas.Proofs.Design.Found
import DesignAtlas.Proofs.Hierarchy.Expansion

/-! # The order of the source files

When no module is declared twice, giving the files in another order gives the same modules in
another order. Look-up is then the same, and so is all that is computed from look-up alone. What
reads the order of a design is the list of callers of a module, so two documents describe a module
in the same way but for the order of its callers (`Agree`). -/

namespace DesignAtlas

/-! ### Sections -/

/-- Two sections that differ at most in the order of the callers. -/
structure Section.Agree (s s' : Section) : Prop where
  name : s.name = s'.name
  callees : s.callees = s'.callees
  unresolved : s.unresolved = s'.unresolved
  callers : s.callers.Perm s'.callers
  contents : s.pins = s'.pins ∧ s.parameters = s'.parameters ∧ s.body = s'.body

theorem Section.agree_ofModule {d d' : Design} (hp : d.records.Perm d'.records)
    (hn : d.names.Nodup) (m : ModuleInfo) :
    Agree (Section.ofModule d m) (Section.ofModule d' m) := by
  have hf : ∀ n, d.find? n = d'.find? n := Roster.find?_of_perm hp hn
  refine ⟨rfl, ?_, ?_, ?_, rfl, rfl, rfl⟩
  · simp only [Section.ofModule, hf]
  · simp only [Section.ofModule, Roster.contains_eq_isSome, hf]
  · exact (hp.filter _).map _

/-- The section of a name is that of the module with this name. -/
theorem Document.section?_ofDesign (d : Design) (t : Hierarchy) (n : String) :
    (Document.ofDesign d t).section? n = (d.find? n).map (Section.ofModule d) := by
  unfold Document.section? Document.ofDesign Roster.find?
  rw [List.find?_map]
  rfl

/-! ### Designs -/

namespace Design

variable {o : Options} {files files' : List SourceFile}

theorem found_perm (hp : files.Perm files') :
    (files.flatMap (found o)).Perm (files'.flatMap (found o)) := hp.flatMap_right _

theorem names_nodup (hn : ((files.flatMap declared).map ModuleDecl.name).Nodup) :
    (ofFiles o files).1.names.Nodup := by
  rw [ofFiles_of_nodup hn]
  unfold Roster.names
  rw [List.map_map]
  exact (names_found o files).symm ▸ hn

/-- **The order of the files does not matter.** When all declarations have distinct names, another
order of the files gives the same names and the same module for each name, the same diagnostics in
another order, the same hierarchy below every module with the same reports of cycles, and for every
module a section that differs at most in the order of the callers. -/
theorem ofFiles_reorder (o : Options) {files files' : List SourceFile} (hp : files.Perm files')
    (hn : ((files.flatMap declared).map ModuleDecl.name).Nodup) :
    (ofFiles o files).1.names.Perm (ofFiles o files').1.names ∧
    (∀ n, (ofFiles o files).1.find? n = (ofFiles o files').1.find? n) ∧
    (ofFiles o files).2.Perm (ofFiles o files').2 ∧
    (∀ root, Hierarchy.expand (ofFiles o files).1 root =
      Hierarchy.expand (ofFiles o files').1 root) ∧
    ∀ root n, Option.Rel Section.Agree
      ((Document.ofDesign (ofFiles o files).1
        (Hierarchy.expand (ofFiles o files).1 root).1).section? n)
      ((Document.ofDesign (ofFiles o files').1
        (Hierarchy.expand (ofFiles o files').1 root).1).section? n) := by
  have hn' : ((files'.flatMap declared).map ModuleDecl.name).Nodup :=
    ((hp.flatMap_right declared).map _).nodup_iff.mp hn
  have hr : (ofFiles o files).1.records.Perm (ofFiles o files').1.records := by
    rw [ofFiles_of_nodup hn, ofFiles_of_nodup hn']
    exact (found_perm hp).map _
  have hd : (ofFiles o files).2.Perm (ofFiles o files').2 := by
    rw [ofFiles_of_nodup hn, ofFiles_of_nodup hn']
    exact (found_perm hp).flatMap_right _
  have hf := Roster.find?_of_perm hr (names_nodup hn)
  refine ⟨hr.map _, hf, hd, Hierarchy.expand_congr hf, fun root n => ?_⟩
  rw [Document.section?_ofDesign, Document.section?_ofDesign, hf n]
  rcases (ofFiles o files').1.find? n with _ | m
  · exact .none
  · exact .some (Section.agree_ofModule hr (names_nodup hn) m)

/-- Two files, one of which uses the other's module, in both orders. -/
theorem ofFiles_reorder_pair :
    let a : SourceFile := ⟨"a.v", "module a (input x);\n  b u (x);\nendmodule\n".toList⟩
    let b : SourceFile := ⟨"b.v", "module b (x);\n  a v (x);\n  c w (x);\nendmodule\n".toList⟩
    (([a, b].flatMap declared).map ModuleDecl.name).Nodup ∧
    Hierarchy.expand (ofFiles {} [a, b]).1 "a" = Hierarchy.expand (ofFiles {} [b, a]).1 "a" := by
  intro a b
  have hn : (([a, b].flatMap declared).map ModuleDecl.name).Nodup := by decide +kernel
  exact ⟨hn, (ofFiles_reorder {} (List.Perm.swap b a []) hn).2.2.2.1 "a"⟩

end Design

end DesignAtlas
