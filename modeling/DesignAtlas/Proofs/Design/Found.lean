import DesignAtlas.Design
import DesignAtlas.Proofs.Roster.Distinct

/-! # A design as the list of its modules found

Building a design reads each file by itself: a file gives a list of modules, each with its
diagnostics (`found`), and only then are the modules defined one after the other (`enter`). So two
lists of files in which the same modules are found give the same design (`ofFiles_eq`), and what is
kept by each module found holds of the design (`ofFiles_induction`). A name stands for the module
found last under it (`find?_ofFiles_of_last`). When the names are distinct nothing is replaced, and
the design is the list itself (`ofFiles_of_nodup`). -/

namespace DesignAtlas.Design

/-- The declarations in a source file. -/
def declared (file : SourceFile) : List ModuleDecl :=
  ModuleDecl.ofSource (Comment.strip file.text)

/-- The modules found in a source file, each with its diagnostics. -/
def found (o : Options) (file : SourceFile) : List (ModuleInfo × List Diagnostic) :=
  (declared file).map (ModuleInfo.ofDecl file.path (Comment.strip file.text) o)

/-- Defines a module that was found. -/
def enter (s : Design × List Diagnostic) (m : ModuleInfo × List Diagnostic) :
    Design × List Diagnostic :=
  (s.1.put m.1, s.2 ++ m.2 ++ redefinition s.1 m.1)

theorem addFile_eq (o : Options) (s : Design × List Diagnostic) (file : SourceFile) :
    addFile o s file = (found o file).foldl enter s := by
  unfold addFile found
  rw [List.foldl_map]
  rfl

/-- **A design is made of the modules found in its files.** -/
theorem ofFiles_eq (o : Options) (files : List SourceFile) :
    ofFiles o files = (files.flatMap (found o)).foldl enter (Roster.empty, []) := by
  unfold ofFiles
  rw [List.foldl_flatMap]
  congr 1
  funext s file
  exact addFile_eq o s file

/-- What holds without modules and is kept by each module found holds of the design. -/
theorem ofFiles_induction {o : Options} {files : List SourceFile} {P : Design → Prop}
    (hempty : P Roster.empty)
    (hput : ∀ file ∈ files, ∀ m ∈ found o file, ∀ d, P d → P (d.put m.1)) :
    P (ofFiles o files).1 := by
  have hfold : ∀ (ms : List (ModuleInfo × List Diagnostic)) (s : Design × List Diagnostic),
      (∀ m ∈ ms, ∀ d, P d → P (d.put m.1)) → P s.1 → P (ms.foldl enter s).1 := by
    intro ms
    induction ms with
    | nil => exact fun _ _ hs => hs
    | cons m ms ih =>
      intro s h hs
      exact ih _ (fun m' hm' => h m' (by simp [hm'])) (h m (by simp) s.1 hs)
  rw [ofFiles_eq]
  refine hfold _ _ (fun m hm => ?_) hempty
  obtain ⟨file, hfile, hm⟩ := List.mem_flatMap.mp hm
  exact hput file hfile m hm

/-- Each name stands once in a design. -/
theorem nodup_names_ofFiles (o : Options) (files : List SourceFile) :
    (ofFiles o files).1.names.Nodup :=
  ofFiles_induction (P := fun d => d.names.Nodup) List.nodup_nil
    fun _ _ m _ _ h => Roster.nodup_names_put h m.1

/-- A module of a design comes from one of its files. -/
theorem sourceFile_mem_ofFiles (o : Options) (files : List SourceFile) :
    ∀ m ∈ (ofFiles o files).1.records, m.sourceFile ∈ files.map SourceFile.path := by
  refine ofFiles_induction (P := fun d => ∀ m ∈ d.records, m.sourceFile ∈ files.map SourceFile.path)
    (fun m hm => absurd hm List.not_mem_nil) ?_
  intro file hfile m hm d hd m' hm'
  rcases Roster.mem_put hm' with rfl | hm'
  · obtain ⟨decl, -, rfl⟩ := List.mem_map.mp hm
    exact List.mem_map_of_mem hfile
  · exact hd m' hm'

/-! ### Distinct names -/

theorem names_found (o : Options) (files : List SourceFile) :
    (files.flatMap (found o)).map (fun m => m.1.name) =
      (files.flatMap declared).map ModuleDecl.name := by
  rw [List.map_flatMap, List.map_flatMap]
  congr 1
  funext file
  unfold found
  rw [List.map_map]
  rfl

theorem foldl_enter : ∀ (ms : List (ModuleInfo × List Diagnostic)) (s : Design × List Diagnostic),
    (s.1.names ++ ms.map fun m => m.1.name).Nodup →
      ms.foldl enter s = (⟨s.1.records ++ ms.map Prod.fst⟩, s.2 ++ ms.flatMap Prod.snd)
  | [], s, _ => by simp
  | m :: ms, s, h => by
    rw [List.map_cons] at h
    have hm : m.1.name ∉ s.1.names := fun hm =>
      (List.nodup_cons.mp (List.nodup_middle.mp h)).1 (List.mem_append_left _ hm)
    rw [List.append_cons] at h
    have hnone : s.1.find? m.1.name = none := Roster.find?_eq_none_iff.mpr hm
    have hstep : enter s m = (⟨s.1.records ++ [m.1]⟩, s.2 ++ m.2) := by
      unfold enter redefinition
      rw [Roster.put_of_notMem hm, hnone, List.append_nil]
    rw [List.foldl_cons, hstep, foldl_enter ms _ (by rw [Roster.names_append]; exact h)]
    simp

/-- **A design of modules with distinct names** holds them in the order in which they are found. -/
theorem ofFiles_of_nodup {o : Options} {files : List SourceFile}
    (h : ((files.flatMap declared).map ModuleDecl.name).Nodup) :
    ofFiles o files =
      (⟨(files.flatMap (found o)).map Prod.fst⟩, (files.flatMap (found o)).flatMap Prod.snd) := by
  rw [ofFiles_eq, foldl_enter _ _ (by rw [names_found]; exact h)]
  rfl

/-! ### The module of a name -/

theorem fst_foldl_enter : ∀ (ms : List (ModuleInfo × List Diagnostic))
    (s : Design × List Diagnostic), (ms.foldl enter s).1 = s.1.putAll (ms.map Prod.fst)
  | [], _ => rfl
  | m :: ms, s => fst_foldl_enter ms (enter s m)

/-- **A name stands for the module declared last under it.** -/
theorem find?_ofFiles_of_last (o : Options) (fs : List SourceFile) {file : SourceFile}
    {gs : List SourceFile} {ds es : List ModuleDecl} {d : ModuleDecl}
    (hfile : declared file = ds ++ d :: es)
    (hlast : ∀ e ∈ es ++ gs.flatMap declared, e.name ≠ d.name) :
    (ofFiles o (fs ++ file :: gs)).1.find? d.name =
      some (ModuleInfo.ofDecl file.path (Comment.strip file.text) o d).1 := by
  have hfound : found o file = ds.map (ModuleInfo.ofDecl file.path (Comment.strip file.text) o) ++
      ModuleInfo.ofDecl file.path (Comment.strip file.text) o d ::
        es.map (ModuleInfo.ofDecl file.path (Comment.strip file.text) o) := by
    rw [found, hfile, List.map_append, List.map_cons]
  have hbehind : (es.map (ModuleInfo.ofDecl file.path (Comment.strip file.text) o) ++
      gs.flatMap (found o)).map (fun m => m.1.name) =
        (es ++ gs.flatMap declared).map ModuleDecl.name := by
    rw [List.map_append, names_found, List.map_map, List.map_append]
    rfl
  rw [ofFiles_eq, fst_foldl_enter, List.flatMap_append, List.flatMap_cons, hfound,
    List.append_assoc, List.cons_append, ← List.append_assoc, List.map_append, List.map_cons]
  refine Roster.find?_putAll_of_last _ _ fun m hm hname => ?_
  obtain ⟨x, hx, rfl⟩ := List.mem_map.mp hm
  have hmem := List.mem_map_of_mem (f := fun m => m.1.name) hx
  rw [hbehind] at hmem
  obtain ⟨e, he, hsame⟩ := List.mem_map.mp hmem
  exact hlast e he (hsame.trans hname)

end DesignAtlas.Design
