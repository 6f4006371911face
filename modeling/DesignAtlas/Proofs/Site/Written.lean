import DesignAtlas.Site
import DesignAtlas.Proofs.File.Write

/-! # The files of a site

Pages are written one after the other, each in place of what stands where its path leads. After the
writing, a path is read as the last page that was written where it leads
(`read_of_writePages`). -/

namespace DesignAtlas

/-! ### Paths in a directory -/

namespace Path

/-- The path of a file in a directory ends with the name, which stands alone or behind a slash. -/
theorem exists_toList_join (directory name : String) : ∃ u : Text,
    (join directory name).toList = u ++ name.toList ∧ (u = [] ∨ ∃ t, u = t ++ ['/']) := by
  unfold join
  split_ifs with h1 h2
  · exact ⟨[], rfl, .inl rfl⟩
  · refine ⟨directory.toList, String.toList_append, .inr ?_⟩
    exact List.getLast?_eq_some_iff.mp (by simpa using h2)
  · refine ⟨directory.toList ++ ['/'], ?_, .inr ⟨_, rfl⟩⟩
    rw [String.toList_append, String.toList_append]
    rfl

theorem getLast?_join (directory : String) {name : String} {c : Char}
    (h : name.toList.getLast? = some c) : (join directory name).toList.getLast? = some c := by
  obtain ⟨u, hu, -⟩ := exists_toList_join directory name
  rw [hu, List.getLast?_append, h, Option.some_or]

/-- A name without slashes is the last piece of a path in a directory. -/
theorem exists_steps_join (directory : String) {name : String} (hs : '/' ∉ name.toList)
    (hn : name.toList ≠ []) :
    ∃ before, FileTree.steps (join directory name) = before ++ [name] := by
  have hsep : ∀ c ∈ name.toList, (c == '/') = false := by
    intro c hc
    rw [beq_eq_false_iff_ne]
    rintro rfl
    exact hs hc
  have hname : Text.split (· == '/') name.toList = [name.toList] := Text.split_of_none hsep
  have hlast : ([name.toList].filter fun p => !p.isEmpty).map String.ofList = [name] := by
    simp [hn]
  obtain ⟨u, hu, rfl | ⟨t, rfl⟩⟩ := exists_toList_join directory name
  · refine ⟨[], ?_⟩
    rw [FileTree.steps, pieces, hu, List.nil_append, hname, hlast, List.nil_append]
  · refine ⟨((Text.split (· == '/') t).filter fun p => !p.isEmpty).map String.ofList, ?_⟩
    rw [FileTree.steps, pieces, hu, List.append_assoc, List.singleton_append,
      Text.split_append_sep (by decide), hname, List.filter_append, List.map_append, hlast]

theorem mem_of_mem_dropIdle : ∀ {ps : List Text} {p : Text}, p ∈ dropIdle ps → p ∈ ps
  | [], _, h => h
  | [q], p, h => by
    rw [dropIdle] at h
    split_ifs at h
    · simp at h
    · exact h
  | q :: q' :: ps, p, h => by
    rw [dropIdle] at h
    split_ifs at h
    · exact List.mem_cons_of_mem q (mem_of_mem_dropIdle h)
    · exact h

theorem notMem_fileName? {path name : String} (h : fileName? path = some name) :
    '/' ∉ name.toList := by
  unfold fileName? at h
  split at h
  · cases h
  · rename_i p before hp
    split_ifs at h
    obtain rfl := Option.some.inj h
    have hmem : p ∈ pieces path.toList := by
      rw [← List.mem_reverse]
      exact mem_of_mem_dropIdle (hp ▸ List.mem_cons_self)
    intro hs
    rw [String.toList_ofList] at hs
    simpa using Text.sep_of_mem_split hmem '/' hs

end Path

namespace FileTree

theorem getLast?_target? {d : FileTree} {path last : String} {before names : List String}
    (hs : steps path = before ++ [last]) (h : d.target? path = some names) :
    names.getLast? = some last := by
  rcases hf : pathFault? path with _ | e
  · rw [target?_eq hf hs, Option.bind_eq_some_iff] at h
    obtain ⟨ks, -, hk⟩ := h
    split_ifs at hk
    rw [← Option.some.inj hk, List.getLast?_concat]
  · rw [target?_of_fault hf] at h
    cases h

/-- Different names without slashes lead to different places in a directory. -/
theorem eq_of_target?_join {d : FileTree} {directory name name' : String} {names : List String}
    (hs : '/' ∉ name.toList) (hn : name.toList ≠ []) (hs' : '/' ∉ name'.toList)
    (hn' : name'.toList ≠ []) (h : d.target? (Path.join directory name) = some names)
    (h' : d.target? (Path.join directory name') = some names) : name = name' := by
  obtain ⟨before, hb⟩ := Path.exists_steps_join directory hs hn
  obtain ⟨before', hb'⟩ := Path.exists_steps_join directory hs' hn'
  have hlast := getLast?_target? hb h
  rw [getLast?_target? hb' h'] at hlast
  exact (Option.some.inj hlast).symm

end FileTree

/-! ### Writing pages -/

namespace Site

open FileTree

variable {directory : String}

theorem writePages_cons (name text : String) (pages : List (String × String)) (d : FileTree) :
    writePages FileTree.access directory ((name, text) :: pages) d =
      match d.write (Path.join directory name) text.toUTF8 with
      | .ok d' => writePages FileTree.access directory pages d'
      | .error e => (.error (.writing (Path.join directory name) e), d) := by
  rw [writePages]
  simp only [bind, StateT.bind, FileTree.access, FileTree.change, pure]
  rcases d.write (Path.join directory name) text.toUTF8 with e | d' <;> rfl

/-- The last of some pages that is written where the names lead. -/
def lastAt (d : FileTree) (directory : String) (pages : List (String × String))
    (names : List String) : Option (String × String) :=
  (pages.filter fun p => d.target? (Path.join directory p.1) == some names).getLast?

/-- **After the writing, the last page at a place stands there,** and other places are as before. -/
theorem view_of_writePages : ∀ {pages : List (String × String)} {d d' : FileTree},
    writePages FileTree.access directory pages d = (.ok (), d') →
      (∀ q, d'.target? q = d.target? q) ∧
      (∀ p ∈ pages, ∃ names, d.target? (Path.join directory p.1) = some names) ∧
      ∀ ls, d'.root.view ls = match lastAt d directory pages ls with
        | some p => some (some p.2.toUTF8)
        | none => d.root.view ls
  | [], d, d', h => by
    obtain rfl : d = d' := congrArg Prod.snd h
    exact ⟨fun _ => rfl, by simp, fun _ => rfl⟩
  | (name, text) :: pages, d, d', h => by
    rw [writePages_cons] at h
    rcases hw : d.write (Path.join directory name) text.toUTF8 with e | d₁
    · rw [hw] at h
      cases congrArg Prod.fst h
    · rw [hw] at h
      obtain ⟨hsame, hplaced, hview⟩ := view_of_writePages h
      obtain ⟨names, ht, hput⟩ := view_of_write hw
      have hstep := target?_of_write hw
      refine ⟨fun q => (hsame q).trans (hstep q), ?_, fun ls => ?_⟩
      · intro p hp
        rcases List.mem_cons.mp hp with rfl | hp
        · exact ⟨names, ht⟩
        · rw [← hstep]
          exact hplaced p hp
      · have hlater : lastAt d₁ directory pages ls = lastAt d directory pages ls := by
          simp only [lastAt, hstep]
        rw [hview, hlater, hput, lastAt, lastAt, List.filter_cons, ht]
        by_cases hl : ls = names
        · subst hl
          rw [if_pos rfl, if_pos (beq_self_eq_true _), List.getLast?_cons]
          rcases (pages.filter _).getLast? with _ | p <;> rfl
        · have hne : ¬ (some names == some ls) = true := by simpa using Ne.symm hl
          rw [if_neg hl, if_neg hne]

/-- **A path is read as the last page that is written where it leads.** -/
theorem read_of_writePages {pages : List (String × String)} {d d' : FileTree}
    (h : writePages FileTree.access directory pages d = (.ok (), d')) {q : String} {c : Char}
    (hc : q.toList.getLast? = some c) (hne : c ≠ '/') {p : String × String}
    (hp : (pages.filter fun p => d'.target? (Path.join directory p.1) == d'.target? q).getLast? =
      some p) : d'.read q = .ok p.2.toUTF8 := by
  obtain ⟨hsame, hplaced, hview⟩ := view_of_writePages h
  obtain ⟨hpm, hpt⟩ := List.mem_filter.mp (List.mem_of_getLast? hp)
  obtain ⟨names, hnames⟩ := hplaced p hpm
  have hq : d'.target? q = some names := by
    rw [← beq_iff_eq.mp hpt, hsame, hnames]
  refine (read_eq_ok_iff hc hne).mpr ⟨names, hq, ?_⟩
  have hlast : lastAt d directory pages names = some p := by
    rw [← hp, lastAt, hq]
    simp only [hsame]
  rw [hview, hlast]

/-- Writing a site ends with writing its pages. -/
theorem exists_writePages {renderer : Option Renderer} {doc : Document} {files : List String}
    {d d' : FileTree} (h : write FileTree.access renderer directory doc files d = (.ok (), d')) :
    ∃ d₁, writePages FileTree.access directory (Html.pages renderer doc files) d₁ =
      (.ok (), d') := by
  simp only [write, bind, StateT.bind] at h
  rcases hm : makeDirectories FileTree.access directory d with ⟨e | u, d₁⟩
  · rw [hm] at h
    cases congrArg Prod.fst h
  · rw [hm] at h
    exact ⟨d₁, h⟩

end Site

end DesignAtlas
