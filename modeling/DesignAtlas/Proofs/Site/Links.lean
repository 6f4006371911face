import DesignAtlas.Proofs.Design.FileOrder
import DesignAtlas.Proofs.Document.Menu
import DesignAtlas.Proofs.Html.Tags
import DesignAtlas.Proofs.Site.Written

/-! # The links of a site

A link leads to the anchor of a module on the page of its source file. The name of a page tells the
file name only, so pages of several source files may be written at one place, and there the last one
stands (`lastFile?`). A link finds its anchor exactly when this is the page of the module's own
source file (`shows_iff`), and the index is there exactly when no page took its place. So all links
of a site lead somewhere if and only if both hold for all modules that are linked to
(`linksResolve_iff`); this is so when the source files have distinct names, none of them `index`
(`linksResolve_of_fileNames`). -/

namespace DesignAtlas

/-! ### What links lead to -/

/-- The page and the module that each link of a document leads to: those of the menu, and those to
the callers and callees in the sections. -/
def Document.targets (doc : Document) : List (String × String) :=
  doc.menu.map (fun e => (e.page, e.name)) ++
    doc.sections.flatMap fun s => (s.callers ++ s.callees).map fun l => (l.page, l.name)

namespace Design

variable {d : Design} {root : String}

theorem exists_of_mem_neighbours {m : ModuleInfo} {l : Link}
    (hl : l ∈ (Section.ofModule d m).callers ++ (Section.ofModule d m).callees) :
    ∃ m' ∈ d.records, l = Link.ofModule m' := by
  rcases List.mem_append.mp hl with hl | hl
  · obtain ⟨m', hm', rfl⟩ := List.mem_map.mp hl
    exact ⟨m', List.mem_of_mem_filter hm', rfl⟩
  · obtain ⟨n, -, hn⟩ := List.mem_filterMap.mp hl
    obtain ⟨m', hm', rfl⟩ := Option.map_eq_some_iff.mp hn
    exact ⟨m', List.mem_of_find?_eq_some hm', rfl⟩

/-- **Every link leads to a module of the design,** on the page of its source file. -/
theorem exists_of_mem_targets (h : root ∈ d.names) {p : String × String}
    (hp : p ∈ (Document.ofDesign d (Hierarchy.expand d root).1).targets) :
    ∃ m ∈ d.records, p = (pageName m.sourceFile, m.name) := by
  rcases List.mem_append.mp hp with hp | hp
  · obtain ⟨_, he, rfl⟩ := List.mem_map.mp hp
    obtain ⟨e, het, rfl⟩ := List.mem_map.mp he
    have hr := (Hierarchy.mem_names_expand h).mp (List.mem_map_of_mem het)
    obtain ⟨m, hm⟩ := Roster.mem_names_iff.mp (mem_names_of_reflTransGen h hr)
    have hname : Named.name m = e.2.name := by simpa using List.find?_some hm
    exact ⟨m, List.mem_of_find?_eq_some hm, Prod.ext (Document.page_entryOf hm e.1) hname.symm⟩
  · obtain ⟨_, hs, hl⟩ := List.mem_flatMap.mp hp
    obtain ⟨m, -, rfl⟩ := List.mem_map.mp hs
    obtain ⟨l, hlink, rfl⟩ := List.mem_map.mp hl
    obtain ⟨m', hm', rfl⟩ := exists_of_mem_neighbours hlink
    exact ⟨m', hm', rfl⟩

/-- The top module is in the menu, so there is a link to it. -/
theorem top_mem_targets (h : root ∈ d.names) {m : ModuleInfo} (hm : d.find? root = some m) :
    (pageName m.sourceFile, root) ∈
      (Document.ofDesign d (Hierarchy.expand d root).1).targets := by
  obtain ⟨e, he, hname⟩ := List.mem_map.mp ((Hierarchy.mem_names_expand h).mpr .refl)
  refine List.mem_append_left _ (List.mem_map.mpr ⟨_, List.mem_map_of_mem he, ?_⟩)
  rw [← hname] at hm
  exact Prod.ext (Document.page_entryOf hm e.1) hname

theorem top_ofDesign (d : Design) (root : String) :
    (Document.ofDesign d (Hierarchy.expand d root).1).top = root :=
  Hierarchy.name_expand d root

theorem topPage?_ofDesign {m : ModuleInfo} (hm : d.find? root = some m) :
    (Document.ofDesign d (Hierarchy.expand d root).1).topPage? = some (pageName m.sourceFile) := by
  rw [Document.topPage?, top_ofDesign, Document.section?_ofDesign, hm]
  rfl

end Design

/-! ### What stands at the place of a page -/

namespace Site

/-- The last of some source files whose page is written where the path of a page leads. -/
def lastFile? (fs : FileTree) (dir : String) (files : List String) (page : String) :
    Option String :=
  (files.filter fun f =>
    fs.target? (Path.join dir (pageName f)) == fs.target? (Path.join dir page)).getLast?

theorem exists_lastFile? (fs : FileTree) (dir : String) {files : List String} {file : String}
    (h : file ∈ files) : ∃ last, lastFile? fs dir files (pageName file) = some last := by
  rw [← Option.isSome_iff_exists, lastFile?, List.getLast?_isSome]
  exact List.ne_nil_of_mem (List.mem_filter.mpr ⟨h, beq_self_eq_true _⟩)

theorem getLast?_index : "index.html".toList.getLast? = some 'l' := by decide

theorem getLast?_pageName (file : String) : (pageName file).toList.getLast? = some 'l' := by
  rw [pageName, String.toList_append, List.getLast?_append]
  rfl

section Reading

variable {dir : String} {renderer : Option Renderer} {doc : Document} {files : List String}
  {fs fs' : FileTree}

theorem exists_target? (hw : write FileTree.access renderer dir doc files fs = (.ok (), fs'))
    {p : String × String} (hp : p ∈ Html.pages renderer doc files) :
    ∃ names, fs'.target? (Path.join dir p.1) = some names := by
  obtain ⟨fs₁, h⟩ := exists_writePages hw
  obtain ⟨hsame, hplaced, -⟩ := view_of_writePages h
  rw [hsame]
  exact hplaced p hp

/-- Where pages of source files are written, the last of them is read. -/
theorem read_of_lastFile? (hw : write FileTree.access renderer dir doc files fs = (.ok (), fs'))
    {page file : String} {c : Char} (hc : page.toList.getLast? = some c) (hne : c ≠ '/')
    (h : lastFile? fs' dir files page = some file) :
    fs'.read (Path.join dir page) = .ok (Html.filePage renderer doc file).toUTF8 := by
  obtain ⟨fs₁, hp⟩ := exists_writePages hw
  refine read_of_writePages hp (Path.getLast?_join dir hc) hne
    (p := (pageName file, Html.filePage renderer doc file)) ?_
  have hfiles : ((files.map fun f => (pageName f, Html.filePage renderer doc f)).filter fun p =>
      fs'.target? (Path.join dir p.1) == fs'.target? (Path.join dir page)).getLast? =
        some (pageName file, Html.filePage renderer doc file) := by
    rw [List.filter_map, List.getLast?_map]
    exact congrArg _ h
  rw [Html.pages, List.filter_cons, List.filter_cons]
  split_ifs <;> simp only [List.getLast?_cons, hfiles, Option.getD_some]

/-- The index is read where no page of a source file is written in its place. -/
theorem read_index (hw : write FileTree.access renderer dir doc files fs = (.ok (), fs'))
    (h : lastFile? fs' dir files "index.html" = none) :
    fs'.read (Path.join dir "index.html") = .ok (Html.index doc).toUTF8 := by
  obtain ⟨fs₁, hp⟩ := exists_writePages hw
  refine read_of_writePages hp (Path.getLast?_join dir getLast?_index) (by decide)
    (p := ("index.html", Html.index doc)) ?_
  have hmenu : (fs'.target? (Path.join dir "menu.html") ==
      fs'.target? (Path.join dir "index.html")) = false := by
    obtain ⟨names, hn⟩ := exists_target? hw
      (p := ("menu.html", Html.menu doc)) (by simp [Html.pages])
    rw [beq_eq_false_iff_ne]
    intro he
    rw [hn] at he
    have hsame : "menu.html" = "index.html" :=
      FileTree.eq_of_target?_join (by decide) (by decide) (by decide) (by decide) hn he.symm
    exact absurd hsame (by decide)
  have hfiles : (files.map fun f => (pageName f, Html.filePage renderer doc f)).filter (fun p =>
      fs'.target? (Path.join dir p.1) == fs'.target? (Path.join dir "index.html")) = [] := by
    rw [List.filter_map, List.map_eq_nil_iff]
    exact List.getLast?_eq_none_iff.mp h
  rw [Html.pages, List.filter_cons, List.filter_cons, hfiles, beq_self_eq_true, hmenu]
  rfl

end Reading

/-! ### Links that lead somewhere -/

/-- A page, as it stands in a directory, holds the anchor of a module. -/
def Shows (fs : FileTree) (dir page name : String) : Prop :=
  ∃ text : String, fs.read (Path.join dir page) = .ok text.toUTF8 ∧
    (Html.anchor name).toList <:+: text.toList

theorem shows_iff_of_read {fs : FileTree} {dir page text : String}
    (h : fs.read (Path.join dir page) = .ok text.toUTF8) (name : String) :
    Shows fs dir page name ↔ (Html.anchor name).toList <:+: text.toList := by
  refine ⟨?_, fun ha => ⟨text, h, ha⟩⟩
  rintro ⟨text', h', ha⟩
  rw [h] at h'
  obtain rfl : text = text' := String.toByteArray_inj.mp (Except.ok.inj h')
  exact ha

/-- Every link of a site leads somewhere. -/
structure LinksResolve (fs : FileTree) (dir : String) (doc : Document) : Prop where
  /-- The page of each link holds the anchor of its module. -/
  links : ∀ p ∈ doc.targets, Shows fs dir p.1 p.2
  /-- The main frame of the index names a page with the anchor of the top module. -/
  frame : ∃ text page : String, fs.read (Path.join dir "index.html") = .ok text.toUTF8 ∧
    (Html.mainFrame page).toList <:+: text.toList ∧ Shows fs dir page doc.top

section Design

variable {d : Design} {t : Hierarchy} {files : List String} {dir : String} {fs fs' : FileTree}

theorem plainPins_ofDesign : ∀ s ∈ (Document.ofDesign d t).sections, Html.PlainPins s := by
  intro s hs
  obtain ⟨m, -, rfl⟩ := List.mem_map.mp hs
  exact Html.plainPins_ofModule d m

/-- Each module has its section on the page of its source file and on no other. -/
theorem exists_sectionsOf_iff (hn : d.names.Nodup) {m : ModuleInfo} (hm : m ∈ d.records)
    (file : String) :
    (∃ s ∈ (Document.ofDesign d t).sectionsOf file, s.name = m.name) ↔ file = m.sourceFile := by
  constructor
  · rintro ⟨s, hs, hname⟩
    obtain ⟨hs, hfile⟩ := List.mem_filter.mp hs
    obtain ⟨m', hm', rfl⟩ := List.mem_map.mp hs
    obtain rfl : m' = m := List.inj_on_of_nodup_map hn hm' hm hname
    exact (eq_of_beq hfile).symm
  · rintro rfl
    exact ⟨_, List.mem_filter.mpr ⟨List.mem_map_of_mem hm, beq_self_eq_true _⟩, rfl⟩

/-- **A page shows a module of its source file exactly when it is the last one at its place.** -/
theorem shows_iff (hn : d.names.Nodup)
    (hw : write FileTree.access none dir (Document.ofDesign d t) files fs = (.ok (), fs'))
    {m : ModuleInfo} (hm : m ∈ d.records) (hf : m.sourceFile ∈ files) :
    Shows fs' dir (pageName m.sourceFile) m.name ↔
      lastFile? fs' dir files (pageName m.sourceFile) = some m.sourceFile := by
  obtain ⟨file, hfile⟩ := exists_lastFile? fs' dir hf
  have hread := read_of_lastFile? hw (getLast?_pageName m.sourceFile) (by decide) hfile
  rw [shows_iff_of_read hread, Html.anchor_mem_filePage plainPins_ofDesign,
    exists_sectionsOf_iff hn hm, hfile, Option.some.injEq]

/-- The links of a document lead somewhere when the pages of the modules linked to, and the index,
are the last at their places. -/
theorem linksResolve_ofDesign_iff {root : String} (hn : d.names.Nodup)
    (hf : ∀ m ∈ d.records, m.sourceFile ∈ files) (h : root ∈ d.names)
    (hw : write FileTree.access none dir (Document.ofDesign d (Hierarchy.expand d root).1) files
      fs = (.ok (), fs')) :
    LinksResolve fs' dir (Document.ofDesign d (Hierarchy.expand d root).1) ↔
      (∀ m ∈ d.records, (pageName m.sourceFile, m.name) ∈
          (Document.ofDesign d (Hierarchy.expand d root).1).targets →
        lastFile? fs' dir files (pageName m.sourceFile) = some m.sourceFile) ∧
      lastFile? fs' dir files "index.html" = none := by
  constructor
  · intro hr
    refine ⟨fun m hm hp => ?_, ?_⟩
    · have hlink : Shows fs' dir (pageName m.sourceFile) m.name := hr.links (_, _) hp
      exact (shows_iff hn hw hm (hf m hm)).mp hlink
    · -- a page in place of the index has no frame
      by_contra hne
      obtain ⟨file, hfile⟩ := Option.ne_none_iff_exists'.mp hne
      obtain ⟨text, page, hread, hframe, -⟩ := hr.frame
      rw [read_of_lastFile? hw getLast?_index (by decide) hfile] at hread
      rw [← String.toByteArray_inj.mp (Except.ok.inj hread)] at hframe
      exact Html.mainFrame_notInfix_filePage plainPins_ofDesign file page hframe
  · rintro ⟨hpages, hindex⟩
    have hlinks : ∀ p ∈ (Document.ofDesign d (Hierarchy.expand d root).1).targets,
        Shows fs' dir p.1 p.2 := by
      intro p hp
      obtain ⟨m, hm, rfl⟩ := Design.exists_of_mem_targets h hp
      exact (shows_iff hn hw hm (hf m hm)).mpr (hpages m hm hp)
    obtain ⟨m, hm⟩ := Roster.mem_names_iff.mp h
    refine ⟨hlinks, _, _, read_index hw hindex, Html.mainFrame_infix_index _, ?_⟩
    rw [Design.topPage?_ofDesign hm, Option.getD_some, Design.top_ofDesign]
    exact hlinks (_, _) (Design.top_mem_targets h hm)

end Design

/-- **When the links of a site lead somewhere.** A site is written, without drawings, for the
modules found in some files and the hierarchy below one of them. All links in it lead to the anchors
of their modules, and the index to that of the top module, if and only if the page of each module
that is linked to is the last that is written at its place, and no page is written in place of the
index. -/
theorem linksResolve_iff (o : Options) (files : List SourceFile) {root dir : String}
    {fs fs' : FileTree} (h : root ∈ (Design.ofFiles o files).1.names)
    (hw : write FileTree.access none dir (Document.ofDesign (Design.ofFiles o files).1
      (Hierarchy.expand (Design.ofFiles o files).1 root).1) (files.map SourceFile.path) fs =
        (.ok (), fs')) :
    let d := (Design.ofFiles o files).1
    let doc := Document.ofDesign d (Hierarchy.expand d root).1
    let paths := files.map SourceFile.path
    LinksResolve fs' dir doc ↔
      (∀ m ∈ d.records, (pageName m.sourceFile, m.name) ∈ doc.targets →
        lastFile? fs' dir paths (pageName m.sourceFile) = some m.sourceFile) ∧
      lastFile? fs' dir paths "index.html" = none :=
  linksResolve_ofDesign_iff (Design.nodup_names_ofFiles o files)
    (Design.sourceFile_mem_ofFiles o files) h hw

/-- Two files of one name: the page of the second replaces that of the first, and the links to the
module of the first lead nowhere. -/
theorem linksResolve_iff_same_name :
    let files : List SourceFile := [⟨"a/x.v", "module a;\nb u (x);\nendmodule\n".toList⟩,
      ⟨"b/x.v", "module b;\nendmodule\n".toList⟩]
    let d := (Design.ofFiles {} files).1
    let doc := Document.ofDesign d (Hierarchy.expand d "a").1
    "a" ∈ d.names ∧ ∃ fs', write FileTree.access none "out" doc (files.map SourceFile.path)
      FileTree.bare = (.ok (), fs') ∧ ¬ LinksResolve fs' "out" doc := by
  intro files d doc
  have h : "a" ∈ d.names := by decide +kernel
  have hok : (write FileTree.access none "out" doc (files.map SourceFile.path)
      FileTree.bare).1 = .ok () := by decide +kernel
  rcases hw : write FileTree.access none "out" doc (files.map SourceFile.path)
    FileTree.bare with ⟨r, fs'⟩
  rw [hw] at hok
  obtain rfl : r = .ok () := hok
  refine ⟨h, fs', rfl, fun hr => ?_⟩
  obtain ⟨hlast, -⟩ := (linksResolve_iff {} files h hw).mp hr
  -- the module `a`, to which the menu links
  obtain ⟨m, hm⟩ := Roster.mem_names_iff.mp h
  have hmem := (Roster.find?_eq_some_iff (Design.nodup_names_ofFiles {} files)).mp hm
  have hname : m.name = "a" := hmem.2
  have hfile : (d.find? "a").map ModuleInfo.sourceFile = some "a/x.v" := by decide +kernel
  rw [hm, Option.map_some, Option.some.injEq] at hfile
  have hfirst := hlast m hmem.1 (by rw [hname]; exact Design.top_mem_targets h hm)
  rw [hfile] at hfirst
  have hpage : pageName "b/x.v" = pageName "a/x.v" := by decide +kernel
  have hsecond : lastFile? fs' "out" ["a/x.v", "b/x.v"] (pageName "a/x.v") = some "b/x.v" := by
    simp only [lastFile?, List.filter_cons, List.filter_nil, hpage, beq_self_eq_true, if_true]
    rfl
  exact absurd (hsecond.symm.trans hfirst) (by decide)

/-! ### Distinct file names -/

section FileNames

variable {dir : String} {doc : Document} {files : List String} {fs fs' : FileTree} {file n : String}

theorem pageName_of_fileName? (h : Path.fileName? file = some n) :
    pageName file = n ++ ".html" := by
  rw [pageName, h, Option.getD_some]

theorem html_inj {n n' : String} (h : n ++ ".html" = n' ++ ".html") : n = n' := by
  have hl := congrArg String.toList h
  rw [String.toList_append, String.toList_append] at hl
  exact String.toList_inj.mp (List.append_cancel_right hl)

/-- The page of a file with a name stands alone at its place. -/
theorem eq_of_target?_pageName
    (hw : write FileTree.access none dir doc files fs = (.ok (), fs')) (hf : file ∈ files)
    (hn : Path.fileName? file = some n) {k : String} (hs : '/' ∉ k.toList)
    (h : fs'.target? (Path.join dir (pageName file)) = fs'.target? (Path.join dir (k ++ ".html"))) :
    n = k := by
  have hslash : ∀ u : String, '/' ∉ u.toList → '/' ∉ (u ++ ".html").toList := by
    intro u hu
    rw [String.toList_append, List.mem_append]
    exact fun hor => hor.elim hu (by decide)
  have hne : ∀ u : String, (u ++ ".html").toList ≠ [] := by
    intro u
    rw [String.toList_append]
    exact List.append_ne_nil_of_right_ne_nil _ (by decide)
  obtain ⟨names, ht⟩ := exists_target? hw
    (p := (pageName file, Html.filePage none doc file))
    (List.mem_cons_of_mem _ (List.mem_cons_of_mem _ (List.mem_map_of_mem hf)))
  rw [pageName_of_fileName? hn] at h ht
  exact html_inj (FileTree.eq_of_target?_join (hslash n (Path.notMem_fileName? hn)) (hne n)
    (hslash k hs) (hne k) ht (h ▸ ht))

end FileNames

/-- **The links of a site lead somewhere when the source files have distinct names,** none of which
is `index`. -/
theorem linksResolve_of_fileNames (o : Options) (files : List SourceFile) {root dir : String}
    {fs fs' : FileTree} (h : root ∈ (Design.ofFiles o files).1.names)
    (hw : write FileTree.access none dir (Document.ofDesign (Design.ofFiles o files).1
      (Hierarchy.expand (Design.ofFiles o files).1 root).1) (files.map SourceFile.path) fs =
        (.ok (), fs'))
    (hnamed : ∀ f ∈ files.map SourceFile.path, ∃ n, Path.fileName? f = some n ∧ n ≠ "index")
    (hinj : ∀ f ∈ files.map SourceFile.path, ∀ g ∈ files.map SourceFile.path,
      Path.fileName? f = Path.fileName? g → f = g) :
    LinksResolve fs' dir (Document.ofDesign (Design.ofFiles o files).1
      (Hierarchy.expand (Design.ofFiles o files).1 root).1) := by
  have hsource := Design.sourceFile_mem_ofFiles o files
  refine (linksResolve_ofDesign_iff (Design.nodup_names_ofFiles o files) hsource h hw).mpr
    ⟨fun m hm _ => ?_, ?_⟩
  · obtain ⟨n, hn, -⟩ := hnamed _ (hsource m hm)
    obtain ⟨file, hfile⟩ := exists_lastFile? fs' dir (hsource m hm)
    obtain ⟨hmem, hplace⟩ := List.mem_filter.mp (List.mem_of_getLast? hfile)
    obtain ⟨n', hn', -⟩ := hnamed file hmem
    rw [pageName_of_fileName? hn] at hplace
    have hsame := eq_of_target?_pageName hw hmem hn' (Path.notMem_fileName? hn) (eq_of_beq hplace)
    rw [hfile, hinj file hmem _ (hsource m hm) (by rw [hn', hn, hsame])]
  · rw [lastFile?, List.getLast?_eq_none_iff, List.filter_eq_nil_iff]
    intro file hmem hplace
    obtain ⟨n, hn, hne⟩ := hnamed file hmem
    exact hne (eq_of_target?_pageName hw hmem hn (k := "index") (by decide) (eq_of_beq hplace))

end Site

end DesignAtlas
