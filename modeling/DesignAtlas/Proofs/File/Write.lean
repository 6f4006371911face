import DesignAtlas.File.Tree
import DesignAtlas.Proofs.Text.Pieces

/-! # What writing a file changes

At the end of a list of names there is a directory, or a file with its bytes, or nothing (`view`).
Writing a file changes the view at one place, to which its path leads (`target?`), and nowhere else
(`view_of_write`). No directory comes or goes, so all paths lead to the places they led to before
(`target?_of_write`), and a file is read where its path leads (`read_eq_ok_iff`). -/

namespace DesignAtlas

/-- The bytes of a file; a directory has none. -/
def FileNode.bytes? : FileNode → Option ByteArray
  | .file bytes => some bytes
  | .folder _ => none

/-! ### Directories -/

namespace Folder

variable {f : Folder} {k s : String} {ks : List String} {n : FileNode} {b : ByteArray}

theorem child?_cons (j : String) (x : FileNode) (f : Folder) (l : String) :
    child? ((j, x) :: f) l = if l = j then some x else f.child? l := by
  unfold child?
  rw [List.lookup_cons]
  by_cases h : l = j
  · rw [if_pos h, h, beq_self_eq_true]
  · rw [if_neg h, beq_false_of_ne h]

theorem child?_replace (k : String) (n : FileNode) (l : String) : ∀ f : Folder,
    child? (f.map fun c => if c.1 == k then (k, n) else c) l =
      if l = k then (f.child? k).map fun _ => n else f.child? l
  | [] => by simp [child?]
  | (j, x) :: f => by
    rw [List.map_cons, child?_cons j x f k, child?_cons j x f l]
    by_cases hj : j = k
    · subst hj
      rw [if_pos (beq_self_eq_true j), child?_cons, child?_replace j n l f, if_pos rfl]
      split_ifs <;> rfl
    · rw [if_neg (by simpa using hj), child?_cons, child?_replace k n l f, if_neg (Ne.symm hj)]
      by_cases hl : l = k
      · rw [if_pos hl, if_pos hl, if_neg (by rw [hl]; exact Ne.symm hj)]
      · rw [if_neg hl, if_neg hl]

theorem child?_putChild (f : Folder) (k : String) (n : FileNode) (l : String) :
    (f.putChild k n).child? l = if l = k then some n else f.child? l := by
  unfold putChild
  by_cases hs : (f.child? k).isSome
  · obtain ⟨x, hx⟩ := Option.isSome_iff_exists.mp hs
    rw [if_pos hs, child?_replace, hx, Option.map_some]
  · have hnone : f.child? k = none := Option.not_isSome_iff_eq_none.mp hs
    rw [if_neg hs, child?, List.lookup_append]
    change (f.child? l).or (child? [(k, n)] l) = _
    rw [child?_cons]
    by_cases hl : l = k
    · rw [if_pos hl, hl, hnone, if_pos rfl, Option.none_or]
    · rw [if_neg hl, if_neg hl]
      exact Option.or_none

@[simp] theorem find?_nil : f.find? [] = some (.folder f) := rfl

@[simp] theorem find?_singleton : f.find? [k] = f.child? k := rfl

theorem find?_cons_cons (f : Folder) (k k' : String) (ks : List String) :
    f.find? (k :: k' :: ks) = match f.child? k with
      | some (.folder g) => find? g (k' :: ks)
      | _ => none := by
  rw [find?.eq_def]
  dsimp only
  rcases f.child? k with _ | _ | g <;> rfl

theorem find?_cons_folder {g : Folder} (h : f.child? k = some (.folder g)) :
    f.find? (k :: ks) = g.find? ks := by
  cases ks with
  | nil => exact h
  | cons k' ks => rw [find?_cons_cons, h]

theorem find?_cons_other (h : ∀ g, f.child? k ≠ some (.folder g)) (hks : ks ≠ []) :
    f.find? (k :: ks) = none := by
  obtain ⟨k', ks, rfl⟩ := List.exists_cons_of_ne_nil hks
  rw [find?_cons_cons]
  rcases hc : f.child? k with _ | _ | g
  · rfl
  · rfl
  · exact absurd hc (h g)

theorem find?_concat : ∀ (ks : List String) (f : Folder) (s : String),
    f.find? (ks ++ [s]) = match f.find? ks with
      | some (.folder g) => child? g s
      | _ => none
  | [], f, s => rfl
  | k :: ks, f, s => by
    by_cases hc : ∃ g, f.child? k = some (.folder g)
    · obtain ⟨g, hg⟩ := hc
      rw [List.cons_append, find?_cons_folder hg, find?_cons_folder hg, find?_concat ks g s]
    · push Not at hc
      rw [List.cons_append, find?_cons_other hc (by simp)]
      cases ks with
      | nil =>
        rw [find?_singleton]
        rcases h : f.child? k with _ | _ | g
        · rfl
        · rfl
        · exact absurd h (hc g)
      | cons k' ks => rw [find?_cons_other hc (by simp)]

/-- A directory (`some none`), a file with its bytes, or nothing at the end of some names. -/
def view (f : Folder) (ks : List String) : Option (Option ByteArray) :=
  (f.find? ks).map FileNode.bytes?

theorem view_eq_folder_iff : f.view ks = some none ↔ ∃ g, f.find? ks = some (.folder g) := by
  unfold view
  rcases f.find? ks with _ | _ | g <;> simp [FileNode.bytes?]

theorem view_cons_folder {g : Folder} (h : f.child? k = some (.folder g)) :
    f.view (k :: ks) = g.view ks := by
  rw [view, find?_cons_folder h, view]

theorem view_cons_congr {f' : Folder} (h : f.child? k = f'.child? k) :
    f.view (k :: ks) = f'.view (k :: ks) := by
  cases ks with
  | nil => rw [view, view, find?_singleton, find?_singleton, h]
  | cons k' ks => rw [view, view, find?_cons_cons, find?_cons_cons, h]

/-- **A file put into a directory** changes the view at its place and nowhere else. -/
theorem view_put (b : ByteArray) : ∀ (ks : List String) (f : Folder) (s : String),
    f.view ks = some none → f.view (ks ++ [s]) ≠ some none → ∀ ls : List String,
      (f.put (.file b) (ks ++ [s])).view ls = if ls = ks ++ [s] then some (some b) else f.view ls
  | [], f, s, _, hs, ls => by
    have hput : f.put (.file b) ([] ++ [s]) = f.putChild s (.file b) := rfl
    rw [hput]
    rcases ls with _ | ⟨l, ls⟩
    · rfl
    · by_cases hl : l = s
      · subst hl
        have hchild : (f.putChild l (.file b)).child? l = some (.file b) := by
          rw [child?_putChild, if_pos rfl]
        rcases ls with _ | ⟨l', ls⟩
        · rw [view, find?_singleton, hchild, List.nil_append, if_pos rfl]
          rfl
        · have hold : ∀ g, f.child? l ≠ some (.folder g) := fun g hg =>
            hs (view_eq_folder_iff.mpr ⟨g, hg⟩)
          rw [if_neg (by simp), view, view, find?_cons_other (by simp [hchild]) (by simp),
            find?_cons_other hold (by simp)]
      · rw [if_neg (by simp [hl]), view_cons_congr]
        rw [child?_putChild, if_neg hl]
  | k :: ks, f, s, hk, hs, ls => by
    obtain ⟨g, hg⟩ : ∃ g, f.child? k = some (.folder g) := by
      by_contra hc
      push Not at hc
      obtain ⟨g, hg⟩ := view_eq_folder_iff.mp hk
      rcases ks with _ | ⟨k', ks⟩
      · exact hc g hg
      · rw [find?_cons_other hc (by simp)] at hg
        cases hg
    rw [view_cons_folder hg] at hk
    rw [List.cons_append, view_cons_folder hg] at hs
    have ih := view_put b ks g s hk hs
    obtain ⟨k', ks', hks'⟩ := List.exists_cons_of_ne_nil (l := ks ++ [s]) (by simp)
    have hput : f.put (.file b) (k :: (ks ++ [s])) =
        f.putChild k (.folder (put g (.file b) (ks ++ [s]))) := by
      rw [hks', put.eq_def]
      dsimp only
      rw [hg]
    rw [List.cons_append, hput]
    rcases ls with _ | ⟨l, ls⟩
    · rfl
    · by_cases hl : l = k
      · subst hl
        have hchild : (f.putChild l (.folder (put g (.file b) (ks ++ [s])))).child? l =
            some (.folder (put g (.file b) (ks ++ [s]))) := by rw [child?_putChild, if_pos rfl]
        rw [view_cons_folder hchild, view_cons_folder hg, ih]
        simp
      · rw [if_neg (by simp [hl]), view_cons_congr]
        rw [child?_putChild, if_neg hl]

end Folder

/-! ### Following pieces -/

namespace FileTree

open Folder

/-- The directories above a place, the nearest first, are those that its names lead to. -/
def Above (root : Folder) : List String → List Folder → Prop
  | [], fs => fs = []
  | _ :: ns, fs =>
    ∃ f gs, fs = f :: gs ∧ root.find? ns.reverse = some (.folder f) ∧ Above root ns gs

/-- A place is where its names lead to. -/
structure Place.Within (root : Folder) (p : Place) : Prop where
  node : root.find? p.names.reverse = some p.node
  above : Above root p.names p.above

theorem within_rootPlace (d : FileTree) : d.rootPlace.Within d.root := ⟨rfl, rfl⟩

theorem Place.Within.child {root f : Folder} {p : Place} (h : p.Within root)
    (hf : p.node = .folder f) {s : String} {n : FileNode} (hn : f.child? s = some n) :
    Place.Within root ⟨s :: p.names, f :: p.above, n⟩ := by
  have hp : root.find? p.names.reverse = some (.folder f) := by rw [h.node, hf]
  refine ⟨?_, f, p.above, rfl, hp, h.above⟩
  rw [List.reverse_cons, find?_concat, hp]
  exact hn

theorem Place.Within.up {root : Folder} {p : Place} (h : p.Within root) :
    p.up.Within root ∧ p.up.names = p.names.tail := by
  obtain ⟨names, above, node⟩ := p
  cases names with
  | nil => exact ⟨h, rfl⟩
  | cons n ns =>
    obtain ⟨f, gs, hfs, hf, hgs⟩ := h.above
    obtain rfl : above = f :: gs := hfs
    exact ⟨⟨hf, hgs⟩, rfl⟩

theorem Place.exists_up_folder {p : Place} {g : Folder} (h : p.node = .folder g) :
    ∃ g', p.up.node = .folder g' := by
  obtain ⟨names, above, node⟩ := p
  rcases names with _ | ⟨n, ns⟩
  · exact ⟨g, h⟩
  · rcases above with _ | ⟨f, fs⟩
    · exact ⟨g, h⟩
    · exact ⟨f, rfl⟩

theorem follow_file {p : Place} {b : ByteArray} (h : p.node = .file b) (s : String)
    (ss : List String) : follow p (s :: ss) = .error .notDirectory := by
  rw [follow, h]

theorem follow_folder {p : Place} {g : Folder} (h : p.node = .folder g) (s : String)
    (ss : List String) : follow p (s :: ss) =
      if s = "." then follow p ss
      else if s = ".." then follow p.up ss
      else if isLongName s then .error .nameTooLong
      else match g.child? s with
        | some n => follow ⟨s :: p.names, g :: p.above, n⟩ ss
        | none => .error .notFound := by
  obtain ⟨names, above, node⟩ := p
  obtain rfl : node = .folder g := h
  rfl

theorem follow_append : ∀ (ss rest : List String) (p : Place),
    follow p (ss ++ rest) = (follow p ss).bind fun q => follow q rest
  | [], rest, p => rfl
  | s :: ss, rest, p => by
    rcases h : p.node with b | g
    · rw [List.cons_append, follow_file h, follow_file h]
      rfl
    · rw [List.cons_append, follow_folder h, follow_folder h]
      split_ifs
      · exact follow_append ss rest p
      · exact follow_append ss rest p.up
      · rfl
      · rcases Folder.child? g s with _ | n
        · rfl
        · exact follow_append ss rest _

theorem within_follow {root : Folder} : ∀ (ss : List String) {p q : Place}, p.Within root →
    follow p ss = .ok q → q.Within root
  | [], p, q, hp, h => by
    obtain rfl : p = q := Except.ok.inj h
    exact hp
  | s :: ss, p, q, hp, h => by
    rcases hn : p.node with b | g
    · rw [follow_file hn] at h
      cases h
    · rw [follow_folder hn] at h
      split_ifs at h
      · exact within_follow ss hp h
      · exact within_follow ss hp.up.1 h
      · rcases hc : Folder.child? g s with _ | n
        · rw [hc] at h
          cases h
        · rw [hc] at h
          exact within_follow ss (hp.child hn hc) h

/-! ### Where directories are -/

/-- The names of the directory that some pieces lead to, the last one first. -/
def directory? (p : Place) (ss : List String) : Option (List String) :=
  match follow p ss with
  | .ok ⟨names, _, .folder _⟩ => some names
  | _ => none

theorem directory?_of_file {p : Place} {b : ByteArray} (h : p.node = .file b) (ss : List String) :
    directory? p ss = none := by
  rcases ss with _ | ⟨s, ss⟩
  · obtain ⟨names, above, node⟩ := p
    obtain rfl : node = .file b := h
    rfl
  · rw [directory?, follow_file h]

/-- Two trees have the same directories. -/
def SameFolders (f f' : Folder) : Prop := ∀ ks, f.view ks = some none ↔ f'.view ks = some none

theorem exists_child_folder_iff {f g : Folder} {p : Place} (hp : p.Within f)
    (hg : p.node = .folder g) (s : String) :
    (∃ x, g.child? s = some (.folder x)) ↔ f.view (p.names.reverse ++ [s]) = some none := by
  rw [view_eq_folder_iff, find?_concat, hp.node, hg]

theorem directory?_blocked {p : Place} {g : Folder} (h : p.node = .folder g) {s : String}
    (h1 : s ≠ ".") (h2 : s ≠ "..") (hs : ∀ x, g.child? s ≠ some (.folder x)) (ss : List String) :
    directory? p (s :: ss) = none := by
  rw [directory?, follow_folder h, if_neg h1, if_neg h2]
  split_ifs
  · rfl
  · rcases hc : g.child? s with _ | b | x
    · rfl
    · exact directory?_of_file (p := ⟨s :: p.names, g :: p.above, .file b⟩) rfl ss
    · exact absurd hc (hs x)

/-- Where pieces lead among directories depends on the directories only. -/
theorem directory?_congr {f f' : Folder} (hsame : SameFolders f f') : ∀ (ss : List String)
    {p p' : Place} {g g' : Folder}, p.Within f → p'.Within f' → p.names = p'.names →
      p.node = .folder g → p'.node = .folder g' → directory? p ss = directory? p' ss
  | [], ⟨names, above, node⟩, ⟨names', above', node'⟩, g, g', _, _, hn, hg, hg' => by
    obtain rfl : node = .folder g := hg
    obtain rfl : node' = .folder g' := hg'
    exact congrArg some hn
  | s :: ss, p, p', g, g', hp, hp', hn, hg, hg' => by
    by_cases h1 : s = "."
    · have ih := directory?_congr hsame ss hp hp' hn hg hg'
      unfold directory? at ih ⊢
      rw [follow_folder hg, follow_folder hg', if_pos h1, if_pos h1]
      exact ih
    by_cases h2 : s = ".."
    · obtain ⟨x, hx⟩ := Place.exists_up_folder hg
      obtain ⟨x', hx'⟩ := Place.exists_up_folder hg'
      have hnames : p.up.names = p'.up.names := by rw [hp.up.2, hp'.up.2, hn]
      have ih := directory?_congr hsame ss hp.up.1 hp'.up.1 hnames hx hx'
      unfold directory? at ih ⊢
      rw [follow_folder hg, follow_folder hg', if_neg h1, if_neg h1, if_pos h2, if_pos h2]
      exact ih
    have hiff : (∃ x, g.child? s = some (.folder x)) ↔ ∃ x, g'.child? s = some (.folder x) := by
      rw [exists_child_folder_iff hp hg, exists_child_folder_iff hp' hg', hn]
      exact hsame _
    by_cases hc : ∃ x, g.child? s = some (.folder x)
    · obtain ⟨x, hx⟩ := hc
      obtain ⟨x', hx'⟩ := hiff.mp ⟨x, hx⟩
      have hnames : s :: p.names = s :: p'.names := by rw [hn]
      have ih := directory?_congr hsame ss (hp.child hg hx) (hp'.child hg' hx') hnames rfl rfl
      unfold directory? at ih ⊢
      rw [follow_folder hg, follow_folder hg', if_neg h1, if_neg h1, if_neg h2, if_neg h2, hx, hx']
      split_ifs
      · rfl
      · exact ih
    · have hc' : ¬ ∃ x, g'.child? s = some (.folder x) := fun h => hc (hiff.mpr h)
      rw [directory?_blocked hg h1 h2 (not_exists.mp hc) ss,
        directory?_blocked hg' h1 h2 (not_exists.mp hc') ss]

/-! ### Where a path leads -/

/-- The names that a path for a new file or directory leads to. -/
def target? (d : FileTree) (path : String) : Option (List String) :=
  match d.placeOf path with
  | .ok (some (names, _)) => some names
  | _ => none

/-- The names from which a path goes on. -/
def origin (d : FileTree) (path : String) : List String :=
  if Path.isAbsolute path.toList then [] else d.here

theorem walk_eq (d : FileTree) (path : String) (ss : List String) :
    d.walk path ss = follow d.rootPlace (d.origin path ++ ss) := by
  unfold walk origin
  split_ifs <;> rfl

theorem target?_of_fault {d : FileTree} {path : String} {e : FileError}
    (h : pathFault? path = some e) : d.target? path = none := by
  rw [target?, placeOf, h]

/-- A path leads to its last piece in the directory that the other pieces lead to. -/
theorem target?_eq {d : FileTree} {path last : String} {before : List String}
    (h : pathFault? path = none) (hs : steps path = before ++ [last]) :
    d.target? path = (directory? d.rootPlace (d.origin path ++ before)).bind fun names =>
      if last = "." ∨ last = ".." ∨ isLongName last then none
      else some (names.reverse ++ [last]) := by
  have hr : (steps path).reverse = last :: before.reverse := by simp [hs]
  rw [target?, placeOf, h, directory?]
  dsimp only
  rw [hr]
  dsimp only
  rw [walk_eq, List.reverse_reverse]
  rcases follow d.rootPlace (d.origin path ++ before) with e | ⟨names, above, b | g⟩
  · rfl
  · rfl
  · by_cases h1 : last = "." ∨ last = ".."
    · have h1' : last = "." ∨ last = ".." ∨ isLongName last = true := by tauto
      simp [h1, h1']
    · by_cases h2 : isLongName last = true
      · simp [h1, h2]
      · simp [h1, h2]

theorem target?_congr {d d' : FileTree} (hsame : SameFolders d.root d'.root)
    (hh : d.here = d'.here) (path : String) : d.target? path = d'.target? path := by
  rcases hf : pathFault? path with _ | e
  · rcases List.eq_nil_or_concat (steps path) with hs | ⟨before, last, hs⟩
    · rw [target?, target?, placeOf, placeOf, hf, hs]
      rfl
    · rw [List.concat_eq_append] at hs
      have ho : d.origin path = d'.origin path := by rw [origin, origin, hh]
      rw [target?_eq hf hs, target?_eq hf hs, ho,
        directory?_congr hsame _ (within_rootPlace d) (within_rootPlace d') rfl rfl rfl]
  · rw [target?_of_fault hf, target?_of_fault hf]

/-! ### Writing and reading -/

/-- What stands at the place of a path, and the directory that it is in. -/
theorem placeOf_eq_some {d : FileTree} {path : String} {names : List String} {x : Option FileNode}
    (h : d.placeOf path = .ok (some (names, x))) :
    ∃ ks s, names = ks ++ [s] ∧ d.root.view ks = some none ∧ d.root.find? names = x := by
  unfold placeOf at h
  split at h
  · cases h
  · split at h
    · cases h
    · rename_i last before hr
      rw [walk_eq] at h
      split at h
      · cases h
      · rename_i p hp
        have hw := within_follow _ (within_rootPlace d) hp
        split at h
        · cases h
        · rename_i g hg
          split_ifs at h with hdots hlong
          · cases h
          have hnode : d.root.find? p.names.reverse = some (.folder g) := by rw [hw.node, hg]
          obtain ⟨rfl, rfl⟩ := Prod.mk.inj (Option.some.inj (Except.ok.inj h))
          refine ⟨p.names.reverse, last, List.reverse_cons, view_eq_folder_iff.mpr ⟨g, hnode⟩, ?_⟩
          rw [List.reverse_cons, find?_concat, hnode]

/-- A file is written into a directory, where no directory stands. -/
theorem write_eq_ok {d d' : FileTree} {path : String} {b : ByteArray}
    (h : d.write path b = .ok d') : ∃ ks s, d.target? path = some (ks ++ [s]) ∧
      d.root.view ks = some none ∧ d.root.view (ks ++ [s]) ≠ some none ∧
      d' = d.put (ks ++ [s]) (.file b) := by
  unfold write at h
  split at h
  · cases h
  · cases h
  · cases h
  · rename_i names x hx hp
    obtain ⟨ks, s, rfl, hks, hfind⟩ := placeOf_eq_some hp
    refine ⟨ks, s, by rw [target?, hp], hks, ?_, (Except.ok.inj h).symm⟩
    intro hv
    obtain ⟨g, hg⟩ := view_eq_folder_iff.mp hv
    exact hx g (hfind.symm.trans hg)

/-- **Writing a file changes what stands at its place,** and nothing else. -/
theorem view_of_write {d d' : FileTree} {path : String} {b : ByteArray}
    (h : d.write path b = .ok d') : ∃ names, d.target? path = some names ∧
      ∀ ls, d'.root.view ls = if ls = names then some (some b) else d.root.view ls := by
  obtain ⟨ks, s, ht, hks, hs, rfl⟩ := write_eq_ok h
  exact ⟨ks ++ [s], ht, view_put b ks d.root s hks hs⟩

/-- **Writing a file leads no path to another place.** -/
theorem target?_of_write {d d' : FileTree} {path : String} {b : ByteArray}
    (h : d.write path b = .ok d') (q : String) : d'.target? q = d.target? q := by
  obtain ⟨ks, s, -, hks, hs, rfl⟩ := write_eq_ok h
  have hhere : (d.put (ks ++ [s]) (.file b)).here = d.here := rfl
  refine target?_congr (fun ls => ?_) hhere q
  rw [put, view_put b ks d.root s hks hs ls]
  split_ifs with hl
  · rw [hl]
    exact iff_of_false (by simp) hs
  · rfl

theorem steps_ne_nil {path : String} {c : Char} (h : path.toList.getLast? = some c) (hc : c ≠ '/') :
    steps path ≠ [] := by
  obtain ⟨u, hu⟩ := List.getLast?_eq_some_iff.mp h
  have hsep : ∀ x ∈ [c], (x == '/') = false := by simpa using hc
  obtain ⟨ps, hps⟩ := Text.exists_split_append (· == '/') u
  rw [steps, Path.pieces, hu, hps [c] hsep]
  simp

theorem read_eq_ok {d : FileTree} {path : String} {b : ByteArray} :
    d.read path = .ok b ↔ d.lookup path = .ok (.file b) := by
  rw [read]
  rcases d.lookup path with e | x | g <;> simp

/-- The last piece leads from a directory to a file when it is the name of one. -/
theorem follow_name_iff {p : Place} {g : Folder} (hg : p.node = .folder g) {s : String}
    {b : ByteArray} : (follow p [s]).map Place.node = .ok (.file b) ↔
      ¬ (s = "." ∨ s = ".." ∨ isLongName s) ∧ g.child? s = some (.file b) := by
  rw [follow_folder hg]
  by_cases h1 : s = "."
  · simp [h1, follow, Except.map, hg]
  by_cases h2 : s = ".."
  · obtain ⟨g', hg'⟩ := Place.exists_up_folder hg
    simp [h2, follow, Except.map, hg']
  by_cases h3 : isLongName s = true
  · simp [h1, h2, h3, Except.map]
  · rcases g.child? s with _ | n <;> simp [h1, h2, h3, follow, Except.map]

/-- **A file is read where its path leads.** -/
theorem read_eq_ok_iff {d : FileTree} {path : String} {c : Char} {b : ByteArray}
    (h : path.toList.getLast? = some c) (hc : c ≠ '/') :
    d.read path = .ok b ↔
      ∃ names, d.target? path = some names ∧ d.root.view names = some (some b) := by
  have hclose : ¬ (path.toList.getLast? == some '/') = true := by simpa [h] using hc
  rw [read_eq_ok, lookup]
  rcases hf : pathFault? path with _ | e
  · rcases List.eq_nil_or_concat (steps path) with hs | ⟨before, last, hs⟩
    · exact absurd hs (steps_ne_nil h hc)
    rw [List.concat_eq_append] at hs
    dsimp only
    rw [if_neg hclose, List.append_nil, walk_eq, hs, ← List.append_assoc, follow_append,
      target?_eq hf hs, directory?]
    rcases hp : follow d.rootPlace (d.origin path ++ before) with e | p
    · simp [Except.bind, Except.map]
    have hw := within_follow _ (within_rootPlace d) hp
    rw [Except.bind]
    obtain ⟨names, above, x | g⟩ := p
    · simp [follow_file, Except.map]
    · have hview : d.root.view (names.reverse ++ [last]) = some (some b) ↔
          Folder.child? g last = some (.file b) := by
        rw [view, find?_concat, hw.node]
        dsimp only
        rcases Folder.child? g last with _ | _ | _ <;> simp [FileNode.bytes?]
      rw [follow_name_iff rfl, Option.bind_some]
      by_cases hl : last = "." ∨ last = ".." ∨ isLongName last
      · rw [if_pos hl]
        simp [hl]
      · rw [if_neg hl, ← hview]
        simp [hl]
  · rw [target?_of_fault hf]
    simp

end FileTree

end DesignAtlas
