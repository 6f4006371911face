import DesignAtlas.Proofs.Hierarchy.Expansion
import DesignAtlas.Proofs.Hierarchy.Located
import DesignAtlas.Proofs.Text.Normal
import DesignAtlas.Proofs.Token.Word

/-! # The outline of a hierarchy tells the hierarchy

The traversal of a tree is its pre-order by recursion, with depths (`walk_eq_preorder`). Each line
of the outline shows the depth, the name and the mark of one node, so trees with the same outline
have the same rows (`rows_eq_of_outline_eq`). The rows of a tree in pre-order are followed by rows
that are no deeper than its root, which tells where it ends: the rows determine the tree
(`eq_of_append_rows`). -/

namespace DesignAtlas.Hierarchy

/-! ### Pre-order -/

mutual

/-- The nodes of a tree in pre-order, each with its depth; the root has the depth that is given. -/
def preorder (depth : Nat) : Hierarchy → List (Nat × Hierarchy)
  | node n c ts => (depth, node n c ts) :: preorderAll (depth + 1) ts

/-- The nodes of some trees in pre-order, with their depths. -/
def preorderAll (depth : Nat) : List Hierarchy → List (Nat × Hierarchy)
  | [] => []
  | t :: ts => preorder depth t ++ preorderAll depth ts

end

mutual

theorem map_atDepth_located : ∀ (t : Hierarchy) (depth : Nat),
    t.located.map (atDepth depth) = preorder depth t
  | node n c ts, depth => by
    rw [located, preorder, List.map_cons, List.map_map, ← map_atDepth_locatedAll ts (depth + 1)]
    congr 1
    refine List.map_congr_left fun e he => ?_
    have hpos := List.length_pos_iff.mpr (ne_nil_of_mem_locatedAll he)
    simp only [atDepth, Function.comp, List.length_cons]
    congr 1
    omega

theorem map_atDepth_locatedAll : ∀ (ts : List Hierarchy) (depth : Nat),
    (locatedAll ts).map (atDepth depth) = preorderAll depth ts
  | [], _ => rfl
  | t :: ts, depth => by
    rw [locatedAll, preorderAll, List.map_append, map_atDepth_located t depth,
      map_atDepth_locatedAll ts depth]

end

/-- **The traversal by a worklist** is the pre-order by recursion. -/
theorem walk_eq_preorder (t : Hierarchy) : t.walk = preorder 0 t := by
  rw [walk_eq_located, ← map_atDepth_located]
  refine List.map_congr_left fun e _ => ?_
  rw [atDepth, Nat.zero_add]

mutual

theorem length_preorder : ∀ (t : Hierarchy) (depth : Nat), (preorder depth t).length = t.size
  | node n c ts, depth => by
    rw [preorder, size, List.length_cons, length_preorderAll ts, Nat.add_comm]

theorem length_preorderAll : ∀ (ts : List Hierarchy) (depth : Nat),
    (preorderAll depth ts).length = sizeAll ts
  | [], _ => rfl
  | t :: ts, depth => by
    rw [preorderAll, sizeAll, List.length_append, length_preorder t, length_preorderAll ts]

end

/-! ### Rows -/

/-- What a line of the outline shows of a node. -/
structure Row where
  depth : Nat
  name : String
  cycle : Bool
  deriving DecidableEq, Repr

/-- The row of a node at a depth. -/
def row (e : Nat × Hierarchy) : Row := ⟨e.1, e.2.name, e.2.cycle⟩

/-- No row at the front is deeper than `depth`. -/
def Row.Ends (depth : Nat) (rs : List Row) : Prop := ∀ r ∈ rs.head?, r.depth ≤ depth

theorem Row.ends_nil (depth : Nat) : Row.Ends depth [] := fun _ h => nomatch h

theorem Row.Ends.mono {depth depth' : Nat} {rs : List Row} (h : Row.Ends depth rs)
    (hle : depth ≤ depth') : Row.Ends depth' rs := fun r hr => (h r hr).trans hle

theorem map_row_preorder (n : String) (c : Bool) (ts : List Hierarchy) (depth : Nat) :
    (preorder depth (node n c ts)).map row =
      ⟨depth, n, c⟩ :: (preorderAll (depth + 1) ts).map row := rfl

theorem head?_map_row_preorder (t : Hierarchy) (depth : Nat) (rs : List Row) :
    ((preorder depth t).map row ++ rs).head? = some ⟨depth, t.name, t.cycle⟩ := by
  cases t
  rfl

/-- Behind a tree come the rows of the trees next to it, or rows further out. -/
theorem ends_preorderAll (ts : List Hierarchy) {depth : Nat} {rs : List Row}
    (h : Row.Ends depth rs) : Row.Ends depth ((preorderAll depth ts).map row ++ rs) := by
  cases ts with
  | nil => exact h
  | cons t ts =>
    rw [preorderAll, List.map_append, List.append_assoc]
    intro r hr
    rw [head?_map_row_preorder] at hr
    cases hr
    exact le_rfl

/-- A row at `depth` does not stand where rows of lower depth stand. -/
theorem append_rows_ne {depth : Nat} {rs : List Row} (h : Row.Ends depth rs) (t : Hierarchy)
    (us : List Hierarchy) (rs' : List Row) :
    rs ≠ (preorderAll (depth + 1) (t :: us)).map row ++ rs' := by
  intro he
  rw [preorderAll, List.map_append, List.append_assoc] at he
  have hdeep := h ⟨depth + 1, t.name, t.cycle⟩ (by rw [he, head?_map_row_preorder]; rfl)
  exact absurd hdeep (Nat.not_succ_le_self depth)

mutual

/-- **The rows of a tree determine it,** and where the rows behind it begin. -/
theorem eq_of_append_rows : ∀ {t u : Hierarchy} {depth : Nat} {rs rs' : List Row},
    Row.Ends depth rs → Row.Ends depth rs' →
      (preorder depth t).map row ++ rs = (preorder depth u).map row ++ rs' → t = u ∧ rs = rs'
  | node n c ts, node n' c' us, depth, rs, rs', hrs, hrs', h => by
    rw [map_row_preorder, map_row_preorder, List.cons_append, List.cons_append, List.cons.injEq,
      Row.mk.injEq] at h
    obtain ⟨⟨-, rfl, rfl⟩, htail⟩ := h
    obtain ⟨rfl, rfl⟩ := eq_of_append_rowsAll hrs hrs' htail
    exact ⟨rfl, rfl⟩

/-- The rows of trees at one depth determine these trees when rows further out follow. -/
theorem eq_of_append_rowsAll : ∀ {ts us : List Hierarchy} {depth : Nat} {rs rs' : List Row},
    Row.Ends depth rs → Row.Ends depth rs' →
      (preorderAll (depth + 1) ts).map row ++ rs = (preorderAll (depth + 1) us).map row ++ rs' →
        ts = us ∧ rs = rs'
  | [], [], _, _, _, _, _, h => ⟨rfl, h⟩
  | [], u :: us, _, _, rs', hrs, _, h => absurd h (append_rows_ne hrs u us rs')
  | t :: ts, [], _, rs, _, _, hrs', h => absurd h.symm (append_rows_ne hrs' t ts rs)
  | t :: ts, u :: us, depth, rs, rs', hrs, hrs', h => by
    rw [preorderAll, preorderAll, List.map_append, List.map_append, List.append_assoc,
      List.append_assoc] at h
    obtain ⟨rfl, hrest⟩ := eq_of_append_rows
      (ends_preorderAll ts (hrs.mono (Nat.le_succ depth)))
      (ends_preorderAll us (hrs'.mono (Nat.le_succ depth))) h
    obtain ⟨rfl, rfl⟩ := eq_of_append_rowsAll hrs hrs' hrest
    exact ⟨rfl, rfl⟩

end

/-! ### Lines -/

/-- A run of characters of one kind and what follows it are told apart. -/
theorem eq_of_append_eq {p : Char → Bool} {t t' u u' : Text} (ht : ∀ c ∈ t, p c = true)
    (ht' : ∀ c ∈ t', p c = true) (hu : ∀ c ∈ u.head?, p c = false)
    (hu' : ∀ c ∈ u'.head?, p c = false) (h : t ++ u = t' ++ u') : t = t' ∧ u = u' := by
  obtain ⟨htake, hdrop⟩ := Text.span_exact ht hu
  obtain ⟨htake', hdrop'⟩ := Text.span_exact ht' hu'
  rw [h] at htake hdrop
  exact ⟨htake.symm.trans htake', hdrop.symm.trans hdrop'⟩

/-- The name is not empty and has no blanks. -/
def IsLabel (name : String) : Prop := name ≠ "" ∧ Unbroken name

instance (name : String) : Decidable (IsLabel name) :=
  @instDecidableAnd (name ≠ "") _ inferInstance
    (List.decidableBAll (fun c => isBlank c = false) name.toList)

namespace Row

/-- The spaces in front of a row. -/
def indent (r : Row) : Text := List.replicate (2 * r.depth) ' '

/-- What follows the name in a row. -/
def mark (r : Row) : Text := if r.cycle then " (cycle)".toList else []

/-- The line of a row, without its newline. -/
def line (r : Row) : Text := r.indent ++ (r.name.toList ++ r.mark)

theorem mem_indent {r : Row} {c : Char} (h : c ∈ r.indent) : c = ' ' := List.eq_of_mem_replicate h

theorem mark_eq_cases (r : Row) : r.mark = [] ∨ r.mark = " (cycle)".toList := by
  unfold mark
  split_ifs
  · exact Or.inr rfl
  · exact Or.inl rfl

theorem mark_injective {r r' : Row} (h : r.mark = r'.mark) : r.cycle = r'.cycle := by
  unfold mark at h
  cases hc : r.cycle <;> cases hc' : r'.cycle <;> simp_all

theorem head?_name_mark {r : Row} (h : IsLabel r.name) :
    ∀ c ∈ (r.name.toList ++ r.mark).head?, isBlank c = false := by
  obtain ⟨c, cs, hcs⟩ := List.exists_cons_of_ne_nil (mt String.toList_eq_nil_iff.mp h.1)
  rw [hcs]
  rintro _ ⟨⟩
  exact h.2 c (hcs ▸ List.mem_cons_self)

theorem head?_mark (r : Row) : ∀ c ∈ r.mark.head?, (!isBlank c) = false := by
  have hspace : " (cycle)".toList.head? = some ' ' := by decide
  rcases r.mark_eq_cases with h | h <;> rw [h]
  · exact fun _ hc => nomatch hc
  · rw [hspace]
    rintro _ ⟨⟩
    decide

/-- **A line shows its row**: the depth by the spaces before the first character that is not blank,
the name by the characters up to the next blank, and the mark by what is left. -/
theorem eq_of_line_eq {r r' : Row} (h : IsLabel r.name) (h' : IsLabel r'.name)
    (he : r.line = r'.line) : r = r' := by
  have hblank : ∀ s : Row, ∀ c ∈ s.indent, isBlank c = true := fun s c hc => by
    rw [mem_indent hc, isBlank_space]
  have hsolid : ∀ s : Row, IsLabel s.name → ∀ c ∈ s.name.toList, (!isBlank c) = true :=
    fun s hs c hc => by rw [hs.2 c hc]; rfl
  obtain ⟨hindent, hrest⟩ := eq_of_append_eq (hblank r) (hblank r') (head?_name_mark h)
    (head?_name_mark h') he
  obtain ⟨hname, hmark⟩ := eq_of_append_eq (hsolid r h) (hsolid r' h') (head?_mark r)
    (head?_mark r') hrest
  have hdepth : r.depth = r'.depth := by
    have hlength := congrArg List.length hindent
    unfold indent at hlength
    rw [List.length_replicate, List.length_replicate] at hlength
    omega
  have hcycle : r.cycle = r'.cycle := mark_injective hmark
  cases r
  cases r'
  rw [mk.injEq]
  exact ⟨hdepth, String.toList_injective hname, hcycle⟩

theorem newline_notMem_line {r : Row} (h : IsLabel r.name) : ∀ c ∈ r.line, (c == '\n') = false := by
  intro c hc
  rw [beq_eq_false_iff_ne]
  rintro rfl
  rcases List.mem_append.mp hc with hc | hc
  · exact absurd (mem_indent hc) (by decide)
  rcases List.mem_append.mp hc with hc | hc
  · exact absurd (h.2 _ hc) (by decide)
  · rcases r.mark_eq_cases with hm | hm <;> rw [hm] at hc
    · cases hc
    · exact absurd hc (by decide)

end Row

/-! ### Outlines -/

theorem toList_outlineLine (e : Nat × Hierarchy) :
    (outlineLine e.1 e.2).toList = (row e).line ++ ['\n'] := by
  have hindent : (String.join (List.replicate e.1 "  ")).toList = (row e).indent := by
    rw [String.toList_join]
    show _ = List.replicate (2 * e.1) ' '
    induction e.1 with
    | zero => rfl
    | succ n ih => rw [List.replicate_succ, List.flatMap_cons, ih, Nat.mul_succ, Nat.add_comm,
        List.replicate_add]; rfl
  have hmark : (if e.2.cycle then " (cycle)" else "").toList = (row e).mark := by
    show _ = if e.2.cycle then " (cycle)".toList else []
    split_ifs <;> rfl
  unfold outlineLine Row.line
  rw [String.toList_append, String.toList_append, String.toList_append, hindent, hmark]
  simp only [List.append_assoc]
  rfl

/-- The outline is the lines of the rows, each with its newline. -/
theorem toList_outline (t : Hierarchy) :
    t.outline.toList = (t.walk.map row).flatMap fun r => r.line ++ ['\n'] := by
  unfold outline
  rw [String.toList_join, List.flatMap_map, List.flatMap_map]
  exact congrArg List.flatten (List.map_congr_left fun e _ => toList_outlineLine e)

/-- Every name is a label. -/
def WellNamed (t : Hierarchy) : Prop := ∀ e ∈ t.walk, IsLabel e.2.name

instance (t : Hierarchy) : Decidable t.WellNamed :=
  inferInstanceAs (Decidable (∀ e ∈ t.walk, IsLabel e.2.name))

theorem lines_flatMap : ∀ {rs : List Row}, (∀ r ∈ rs, IsLabel r.name) →
    Text.lines (rs.flatMap fun r => r.line ++ ['\n']) = rs.map Row.line ++ [[]]
  | [], _ => rfl
  | r :: rs, h => by
    have ih := lines_flatMap fun s hs => h s (List.mem_cons_of_mem r hs)
    have hline := Text.split_of_none (Row.newline_notMem_line (h r List.mem_cons_self))
    unfold Text.lines at ih ⊢
    rw [List.flatMap_cons, List.append_assoc, List.singleton_append,
      Text.split_append_sep (by rfl), hline, ih]
    rfl

theorem eq_of_map_line_eq : ∀ {rs rs' : List Row}, (∀ r ∈ rs, IsLabel r.name) →
    (∀ r ∈ rs', IsLabel r.name) → rs.map Row.line = rs'.map Row.line → rs = rs'
  | [], [], _, _, _ => rfl
  | [], _ :: _, _, _, h => by simp at h
  | _ :: _, [], _, _, h => by simp at h
  | r :: rs, r' :: rs', hr, hr', h => by
    rw [List.map_cons, List.map_cons, List.cons.injEq] at h
    obtain ⟨hr, hrs⟩ := List.forall_mem_cons.mp hr
    obtain ⟨hr', hrs'⟩ := List.forall_mem_cons.mp hr'
    rw [Row.eq_of_line_eq hr hr' h.1, eq_of_map_line_eq hrs hrs' h.2]

/-- **Trees with one outline have the same rows.** -/
theorem rows_eq_of_outline_eq {t u : Hierarchy} (ht : t.WellNamed) (hu : u.WellNamed)
    (h : t.outline = u.outline) : t.walk.map row = u.walk.map row := by
  have hlabels : ∀ s : Hierarchy, s.WellNamed → ∀ r ∈ s.walk.map row, IsLabel r.name := by
    intro s hs r hr
    obtain ⟨e, he, rfl⟩ := List.mem_map.mp hr
    exact hs e he
  have hlines := congrArg (fun s : String => Text.lines s.toList) h
  simp only [toList_outline, lines_flatMap (hlabels t ht), lines_flatMap (hlabels u hu)] at hlines
  exact eq_of_map_line_eq (hlabels t ht) (hlabels u hu) (List.append_cancel_right hlines)

/-- **The outline determines the hierarchy.** The traversal of a tree is its pre-order with depths
and meets as many nodes as the tree has; and trees whose names are not empty and have no blanks are
equal when their outlines are. -/
theorem outline_determines (t : Hierarchy) :
    t.walk = preorder 0 t ∧ t.walk.length = t.size ∧
      ∀ u : Hierarchy, t.WellNamed → u.WellNamed → t.outline = u.outline → t = u := by
  refine ⟨walk_eq_preorder t, by rw [walk_eq_preorder, length_preorder], fun u ht hu h => ?_⟩
  have hrows := rows_eq_of_outline_eq ht hu h
  rw [walk_eq_preorder, walk_eq_preorder] at hrows
  exact (eq_of_append_rows (Row.ends_nil 0) (Row.ends_nil 0) (congrArg (· ++ []) hrows)).1

/-- The outline of a design in which two modules use each other tells its hierarchy. -/
theorem outline_determines_ring :
    let use (n : String) : Instance := ⟨n, none, "", []⟩
    let d : Design := ⟨[⟨"a", "r.v", .empty, .empty, "", [use "b", use "c"]⟩,
      ⟨"b", "r.v", .empty, .empty, "", [use "a"]⟩, ⟨"c", "r.v", .empty, .empty, "", []⟩]⟩
    let t := (expand d "a").1
    let u := node "a" false [node "b" false [node "a" true []], node "c" false []]
    (t.WellNamed ∧ u.WellNamed ∧ t.outline = u.outline) ∧ t = u := by
  intro use d t u
  have ha : d.find? "a" = some ⟨"a", "r.v", .empty, .empty, "", [use "b", use "c"]⟩ := rfl
  have hb : d.find? "b" = some ⟨"b", "r.v", .empty, .empty, "", [use "a"]⟩ := rfl
  have hc : d.find? "c" = some ⟨"c", "r.v", .empty, .empty, "", []⟩ := rfl
  have hexpand : (expand d "a").1 =
      node "a" false [node "b" false [node "a" true []], node "c" false []] := by
    rw [expand_of_find? ha, expandAll_open (i := use "b") hb (by simp [use]),
      expandAll_cycle (i := use "a") ha (by simp [use]), expandAll_nil,
      expandAll_open (i := use "c") hc (by simp [use]), expandAll_nil, expandAll_nil]
  have ht : (expand d "a").1.WellNamed := by
    rw [hexpand]
    decide +kernel
  have hu : u.WellNamed := by decide +kernel
  have houtline : (expand d "a").1.outline = u.outline := by
    rw [hexpand]
  exact ⟨⟨ht, hu, houtline⟩, (outline_determines t).2.2 u ht hu houtline⟩

end DesignAtlas.Hierarchy
