import DesignAtlas.Markdown
import DesignAtlas.Proofs.ModuleInfo.Normal

/-! # Reading the rows of a Markdown text

A line of a table is cut at the bars that do not directly follow a backslash. Writing a backslash in
front of each bar of a cell keeps the cells whole: the bar that ends a cell stands behind a space,
and no cell begins with a bar, so what is cut is what was written (`readLine?_tableLine`). The
fields of the rows hold no blanks but spaces, because the records of a design are normal, so no
field breaks a line. The whole text is the lines of its sections (`lines_render`): for each a
heading, the head of a table and a line for each of its rows. -/

namespace DesignAtlas.Markdown

/-! ### Reading a line -/

/-- The pieces of a line between the bars that do not directly follow a backslash; `escaped` tells
whether one stands in front. -/
def cutBars (escaped : Bool) : Text → List Text
  | [] => [[]]
  | c :: t =>
    if c = '|' ∧ escaped = false then [] :: cutBars false t
    else consHead c (cutBars (c == '\x5c') t)

/-- Puts a bar for each backslash that a bar follows. -/
def unbar : Text → Text
  | '\x5c' :: '|' :: t => '|' :: unbar t
  | c :: t => c :: unbar t
  | [] => []

/-- The field in a piece, which has a space on each side. -/
def readCell? : Text → Option Text
  | ' ' :: t => if t.getLast? = some ' ' then some (unbar t.dropLast) else none
  | _ => none

/-- The fields in a line of a table: nothing stands before the first bar or behind the last one. -/
def readLine? (line : Text) : Option (List Text) :=
  match cutBars false line with
  | [] :: ps => if ps.getLast? = some [] then ps.dropLast.mapM readCell? else none
  | _ => none

/-! ### Cells -/

/-- The text of a cell. -/
def cellText (t : Text) : Text := t.flatMap cellChar

theorem toList_cell (s : String) : (cell s).toList = cellText s.toList := by
  rw [cell, String.toList_ofList]
  rfl

theorem cellText_bar (t : Text) : cellText ('|' :: t) = '\x5c' :: '|' :: cellText t := rfl

theorem cellText_cons {c : Char} (h : c ≠ '|') (t : Text) :
    cellText (c :: t) = c :: cellText t := by
  rw [cellText, List.flatMap_cons, cellChar, if_neg h]
  rfl

theorem head?_cellText (t : Text) : (cellText t).head? ≠ some '|' := by
  cases t with
  | nil => exact nofun
  | cons c t =>
    by_cases hc : c = '|'
    · subst hc
      rw [cellText_bar]
      simp
    · rw [cellText_cons hc]
      exact fun h => hc (Option.some.inj h)

theorem unbar_cons {c : Char} {t : Text} (h : t.head? ≠ some '|') :
    unbar (c :: t) = c :: unbar t := by
  rw [unbar.eq_def]
  split <;> simp_all

/-- **The text of a cell is read back**: a bar behind a backslash is always one that was written so.
-/
theorem unbar_cellText (t : Text) : unbar (cellText t) = t := by
  induction t with
  | nil => rfl
  | cons c t ih =>
    by_cases hc : c = '|'
    · subst hc
      rw [cellText_bar, unbar, ih]
    · rw [cellText_cons hc, unbar_cons (head?_cellText t), ih]

/-- A cell is cut by none of its bars, whatever stands in front of it. -/
theorem cutBars_cellText {q : Text} {qs : List Text} {r : Text} (hr : cutBars false r = q :: qs) :
    ∀ (t : Text) (escaped : Bool),
      cutBars escaped (cellText t ++ ' ' :: r) = (cellText t ++ ' ' :: q) :: qs
  | [], escaped => by
    change cutBars escaped (' ' :: r) = _
    rw [cutBars, if_neg (by simp), show (' ' == '\x5c') = false from rfl, hr]
    rfl
  | c :: t, escaped => by
    have ih := cutBars_cellText hr t
    by_cases hc : c = '|'
    · subst hc
      rw [cellText_bar, List.cons_append, List.cons_append, cutBars, if_neg (by simp), cutBars,
        if_neg (by simp), ih]
      rfl
    · rw [cellText_cons hc, List.cons_append, cutBars, if_neg (by simp [hc]), ih]
      rfl

/-! ### Lines of a table -/

/-- What stands in a line behind its first bar. -/
def rowText : List Text → Text
  | [] => []
  | t :: ts => ' ' :: (cellText t ++ ' ' :: '|' :: rowText ts)

/-- A cell with a space on each side. -/
def padded (t : Text) : Text := ' ' :: (cellText t ++ [' '])

theorem readCell?_padded (t : Text) : readCell? (padded t) = some t := by
  rw [padded, readCell?, if_pos (List.getLast?_concat ..), List.dropLast_concat, unbar_cellText]

theorem cutBars_rowText : ∀ ts : List Text, cutBars false (rowText ts) = ts.map padded ++ [[]]
  | [] => rfl
  | t :: ts => by
    have hbar : cutBars false ('|' :: rowText ts) = [] :: (ts.map padded ++ [[]]) := by
      rw [cutBars, if_pos ⟨rfl, rfl⟩, cutBars_rowText ts]
    rw [rowText, cutBars, if_neg (by simp), show (' ' == '\x5c') = false from rfl,
      cutBars_cellText hbar]
    rfl

theorem mapM_readCell? : ∀ ts : List Text, (ts.map padded).mapM readCell? = some ts
  | [] => rfl
  | t :: ts => by
    rw [List.map_cons, List.mapM_cons, readCell?_padded, mapM_readCell? ts]
    rfl

/-- **A line is read back as the fields that it was written for.** -/
theorem readLine?_rowText (ts : List Text) : readLine? ('|' :: rowText ts) = some ts := by
  rw [readLine?, cutBars, if_pos ⟨rfl, rfl⟩, cutBars_rowText]
  simp only [List.getLast?_concat, List.dropLast_concat, if_true]
  exact mapM_readCell? ts

theorem rowText_cons (t : Text) (ts : List Text) : rowText (t :: ts) =
    ' ' :: (List.intercalate " | ".toList ((t :: ts).map cellText) ++ [' ', '|']) := by
  have hsep : " | ".toList = [' ', '|', ' '] := rfl
  rw [hsep]
  induction ts generalizing t with
  | nil => simp [rowText]
  | cons u ts ih =>
    rw [List.map_cons, List.map_cons, List.intercalate_cons_cons, ← List.map_cons, rowText, ih]
    simp

/-- The line that is written for some fields. -/
theorem toList_tableLine (fs : List String) (h : fs ≠ []) : (tableLine (fs.map cell)).toList =
    '|' :: rowText (fs.map String.toList) ++ ['\n'] := by
  obtain ⟨f, fs, rfl⟩ := List.exists_cons_of_ne_nil h
  have hcells : ((f :: fs).map cell).map String.toList =
      ((f :: fs).map String.toList).map cellText := by
    rw [List.map_map, List.map_map]
    exact List.map_congr_left fun s _ => toList_cell s
  rw [tableLine, String.toList_append, String.toList_append, String.toList_intercalate, hcells,
    List.map_cons, rowText_cons]
  simp

/-! ### The rows of a section -/

/-- The fields of the row of a pin. -/
def pinFields (p : PinRow) : List String :=
  [p.direction, p.dataType, p.size, p.name, p.conditionals]

/-- The fields of the row of a parameter. -/
def parameterFields (p : ParameterRow) : List String := [p.sizeOrType, p.name, p.defaultValue]

/-- The line of a pin, without its newline. -/
def pinText (p : PinRow) : Text := (pinLine p).toList.dropLast

/-- The line of a parameter, without its newline. -/
def parameterText (p : ParameterRow) : Text := (parameterLine p).toList.dropLast

/-- The line of some fields, without its newline. -/
theorem dropLast_tableLine (fs : List String) (h : fs ≠ []) :
    (tableLine (fs.map cell)).toList.dropLast = '|' :: rowText (fs.map String.toList) := by
  rw [toList_tableLine fs h, List.dropLast_concat]

theorem pinLine_eq {p : PinRow} (h : cell p.direction = p.direction) :
    pinLine p = tableLine ((pinFields p).map cell) := by
  rw [pinFields, List.map_cons, h]
  rfl

theorem pinText_eq {p : PinRow} (h : cell p.direction = p.direction) :
    pinText p = '|' :: rowText ((pinFields p).map String.toList) := by
  rw [pinText, pinLine_eq h, dropLast_tableLine _ (by simp [pinFields])]

theorem parameterText_eq (p : ParameterRow) :
    parameterText p = '|' :: rowText ((parameterFields p).map String.toList) :=
  dropLast_tableLine (parameterFields p) (by simp [parameterFields])

/-! ### Fields without line breaks -/

/-- The only blanks of the text are spaces. -/
def Spaced (t : Text) : Prop := ∀ c ∈ t, isBlank c = true → c = ' '

instance (t : Text) : Decidable (Spaced t) :=
  List.decidableBAll (fun c => isBlank c = true → c = ' ') t

section Spaced

variable {s : String} {t u : Text}

theorem Spaced.append (ht : Spaced t) (hu : Spaced u) : Spaced (t ++ u) :=
  List.forall_mem_append.mpr ⟨ht, hu⟩

theorem Spaced.newline_notMem (h : Spaced t) : '\n' ∉ t := fun hmem =>
  absurd (h _ hmem isBlank_newline) (by decide)

theorem spaced_of_unbroken (h : Unbroken s) : Spaced s.toList := fun c hc hb => by
  rw [h c hc] at hb
  cases hb

theorem spaced_of_phrase (h : Phrase s) : Spaced s.toList := fun c hc hb => by
  have hmem : c ∈ s.toList.filter isBlank := List.mem_filter.mpr ⟨hc, hb⟩
  rcases h with h | h <;> rw [h] at hmem
  · cases hmem
  · exact List.mem_singleton.mp hmem

theorem spaced_of_collapsed (h : Collapsed s) : Spaced s.toList := fun c hc hb => by
  rw [← h] at hc
  exact Text.eq_space_of_mem_collapse hc hb

theorem spaced_of_isCondition (h : IsCondition s) : Spaced s.toList := by
  have hword : ∀ k : ConditionKind, Unbroken ("`" ++ k.word) := by
    intro k
    cases k <;> decide
  obtain ⟨k, rfl | ⟨a, -, ha, rfl⟩⟩ := h
  · exact spaced_of_unbroken (hword k)
  · rw [String.toList_append, String.toList_append]
    exact ((spaced_of_unbroken (hword k)).append (by decide)).append
      (spaced_of_unbroken ha)

theorem spaced_intercalate {sep : Text} (hsep : Spaced sep) : ∀ {ts : List Text},
    (∀ t ∈ ts, Spaced t) → Spaced (List.intercalate sep ts)
  | [], _ => fun _ hc => nomatch hc
  | [t], h => by
    rw [List.intercalate_singleton]
    exact h t (by simp)
  | t :: u :: ts, h => by
    obtain ⟨ht, hrest⟩ := List.forall_mem_cons.mp h
    rw [List.intercalate_cons_cons]
    exact (ht.append hsep).append (spaced_intercalate hsep hrest)

theorem spaced_cellText (h : Spaced t) : Spaced (cellText t) := by
  intro c hc hb
  obtain ⟨d, hd, hcd⟩ := List.mem_flatMap.mp hc
  unfold cellChar at hcd
  split_ifs at hcd
  · simp only [List.mem_cons, List.not_mem_nil, or_false] at hcd
    rcases hcd with rfl | rfl
    · exact absurd hb (by decide)
    · exact absurd hb (by decide)
  · rw [List.mem_singleton.mp hcd] at hb ⊢
    exact h d hd hb

theorem spaced_rowText : ∀ {ts : List Text}, (∀ t ∈ ts, Spaced t) → Spaced ('|' :: rowText ts)
  | [], _ => by decide
  | t :: ts, h => by
    obtain ⟨ht, hts⟩ := List.forall_mem_cons.mp h
    have hfront : Spaced ['|', ' '] := by decide
    have hback : Spaced [' '] := by decide
    have hsplit : '|' :: rowText (t :: ts) =
        ['|', ' '] ++ (cellText t ++ ([' '] ++ '|' :: rowText ts)) := rfl
    rw [hsplit]
    exact hfront.append ((spaced_cellText ht).append (hback.append (spaced_rowText hts)))

end Spaced

/-- The fields of a section break no line, and the directions of its pins, which are not written as
other cells are, hold no bars. -/
structure Tidy (s : Section) : Prop where
  name : Spaced s.name.toList
  direction : ∀ p ∈ s.pins, cell p.direction = p.direction
  pins : ∀ p ∈ s.pins, ∀ f ∈ pinFields p, Spaced f.toList
  parameters : ∀ p ∈ s.parameters, ∀ f ∈ parameterFields p, Spaced f.toList

theorem spaced_getD {o : Option String} (h : ∀ s ∈ o, Spaced s.toList) :
    Spaced (o.getD "").toList := by
  cases o with
  | none => exact fun _ hc => nomatch hc
  | some s => exact h s rfl

theorem spaced_pinFields {p : Pin} (h : p.Normal) :
    ∀ f ∈ pinFields (PinRow.ofPin p), Spaced f.toList := by
  have hdirection : Spaced ((p.direction.map Direction.word).getD "").toList := by
    rcases p.direction with _ | _ | _ | _ <;> decide
  have hconditionals : Spaced (", ".intercalate p.conditionals).toList := by
    rw [String.toList_intercalate]
    refine spaced_intercalate (by decide) fun t ht => ?_
    obtain ⟨c, hc, rfl⟩ := List.mem_map.mp ht
    exact spaced_of_isCondition (h.conditionals c hc)
  simp only [pinFields, PinRow.ofPin, List.forall_mem_cons]
  exact ⟨hdirection, spaced_getD fun s hs => spaced_of_phrase (h.dataType s hs),
    spaced_getD fun s hs => spaced_of_unbroken (h.size s hs), spaced_of_unbroken h.name,
    hconditionals, fun _ hf => nomatch hf⟩

theorem spaced_parameterFields {p : Parameter} (h : p.Normal) :
    ∀ f ∈ parameterFields (ParameterRow.ofParameter p), Spaced f.toList := by
  simp only [parameterFields, ParameterRow.ofParameter, List.forall_mem_cons]
  exact ⟨spaced_getD fun s hs => spaced_of_phrase (h.sizeOrType s hs), spaced_of_unbroken h.name,
    spaced_of_collapsed h.defaultValue, fun _ hf => nomatch hf⟩

/-- **The section of a normal module is tidy.** -/
theorem tidy_ofModule (d : Design) {m : ModuleInfo} (h : m.Normal) :
    Tidy (Section.ofModule d m) := by
  refine ⟨spaced_of_unbroken h.name, fun r hr => ?_, fun r hr => ?_, fun r hr => ?_⟩
  · obtain ⟨p, -, rfl⟩ := List.mem_map.mp hr
    change cell ((p.direction.map Direction.word).getD "") =
      (p.direction.map Direction.word).getD ""
    rcases p.direction with _ | _ | _ | _ <;> decide
  · obtain ⟨p, hp, rfl⟩ := List.mem_map.mp hr
    exact spaced_pinFields (h.pins p hp)
  · obtain ⟨p, hp, rfl⟩ := List.mem_map.mp hr
    exact spaced_parameterFields (h.parameters p hp)

/-! ### The lines of a section -/

/-- The lines between the heading and the rows of the table of pins. -/
def pinHead : List Text :=
  ["", "## arguments", "", "| direction | type | size | name | conditionals |",
    "| --- | --- | --- | --- | --- |"].map String.toList

/-- The lines in front of the rows of the table of parameters. -/
def parameterHead : List Text :=
  ["## parameter", "", "| size | name | default |", "| --- | --- | --- |"].map String.toList

/-- The lines of the table of parameters, left out when there are none. -/
def parameterLines (ps : List ParameterRow) : List Text :=
  if ps.isEmpty then [] else parameterHead ++ (ps.map parameterText ++ [[]])

/-- The lines of a section: its heading, and a line for each row of its tables behind their heads,
with an empty line behind each table. -/
def sectionLines (s : Section) : List Text :=
  ("# " ++ cell s.name).toList ::
    (pinHead ++ (s.pins.map pinText ++ ([] :: parameterLines s.parameters)))

/-- Lines, each with its newline. -/
def unlines (ls : List Text) : Text := ls.flatMap fun l => l ++ ['\n']

theorem unlines_append (ls ms : List Text) : unlines (ls ++ ms) = unlines ls ++ unlines ms :=
  List.flatMap_append

theorem lines_unlines : ∀ {ls : List Text}, (∀ l ∈ ls, '\n' ∉ l) →
    Text.lines (unlines ls) = ls ++ [[]]
  | [], _ => rfl
  | l :: ls, h => by
    obtain ⟨hl, hls⟩ := List.forall_mem_cons.mp h
    have hone : Text.split (· == '\n') l = [l] :=
      Text.split_of_none fun c hc => beq_eq_false_iff_ne.mpr fun he => hl (he ▸ hc)
    have ih := lines_unlines hls
    unfold Text.lines at ih ⊢
    rw [unlines, List.flatMap_cons, List.append_assoc, List.singleton_append,
      Text.split_append_sep rfl, hone, ← unlines, ih]
    rfl

theorem toList_pinLine {p : PinRow} (h : cell p.direction = p.direction) :
    (pinLine p).toList = pinText p ++ ['\n'] := by
  rw [pinText_eq h, pinLine_eq h, toList_tableLine _ (by simp [pinFields])]

theorem toList_parameterLine (p : ParameterRow) :
    (parameterLine p).toList = parameterText p ++ ['\n'] := by
  rw [parameterText_eq]
  exact toList_tableLine (parameterFields p) (by simp [parameterFields])

/-- Rows with their newlines. -/
theorem toList_join_rows {α : Type} {line : α → String} {text : α → Text} {rows : List α}
    (h : ∀ r ∈ rows, (line r).toList = text r ++ ['\n']) :
    (String.join (rows.map line)).toList = unlines (rows.map text) := by
  rw [String.toList_join, unlines, List.flatMap_map, List.flatMap_map]
  exact congrArg List.flatten (List.map_congr_left h)

/-- The text in front of the rows of the table of parameters. -/
def parameterHeadText : String := "## parameter\n\n| size | name | default |\n| --- | --- | --- |\n"

theorem parameterTable_eq (ps : List ParameterRow) : parameterTable ps =
    if ps.isEmpty then ""
    else parameterHeadText ++ String.join (ps.map parameterLine) ++ "\n" := rfl

theorem toList_parameterTable (ps : List ParameterRow) :
    (parameterTable ps).toList = unlines (parameterLines ps) := by
  have hhead : parameterHeadText.toList = unlines parameterHead := by decide +kernel
  rw [parameterTable_eq]
  unfold parameterLines
  split_ifs
  · rfl
  · rw [unlines_append, unlines_append, ← toList_join_rows fun p _ => toList_parameterLine p,
      ← hhead, String.toList_append, String.toList_append, List.append_assoc]
    rfl

/-- The title of the table of pins, with the end of the heading in front of it. -/
def pinTitleText : String := "\n\n## arguments\n\n"

/-- The columns of the table of pins. -/
def pinColumnsText : String := "| direction | type | size | name | conditionals |\n"

/-- The line below the columns. -/
def pinRuleText : String := "| --- | --- | --- | --- | --- |\n"

theorem sectionText_eq (s : Section) : sectionText s = "# " ++ cell s.name ++ pinTitleText ++
    pinColumnsText ++ pinRuleText ++ String.join (s.pins.map pinLine) ++ "\n" ++
      parameterTable s.parameters := rfl

/-- **A section is its lines.** -/
theorem toList_sectionText {s : Section} (h : Tidy s) :
    (sectionText s).toList = unlines (sectionLines s) := by
  have hhead : pinTitleText.toList ++ (pinColumnsText.toList ++ pinRuleText.toList) =
      '\n' :: unlines pinHead := by decide +kernel
  have hsplit : unlines (sectionLines s) = ("# " ++ cell s.name).toList ++
      ('\n' :: unlines pinHead ++ (unlines (s.pins.map pinText) ++
        ('\n' :: unlines (parameterLines s.parameters)))) := by
    simp [sectionLines, unlines]
  rw [hsplit, sectionText_eq, ← hhead,
    ← toList_join_rows fun p hp => toList_pinLine (h.direction p hp), ← toList_parameterTable]
  simp only [String.toList_append, List.append_assoc]
  rfl

theorem spaced_of_mem_sectionLines {s : Section} (h : Tidy s) : ∀ l ∈ sectionLines s, Spaced l := by
  have hhash : Spaced "# ".toList := by decide
  have hpinHead : ∀ l ∈ pinHead, Spaced l := by decide +kernel
  have hparameterHead : ∀ l ∈ parameterHead, Spaced l := by decide +kernel
  have hnil : Spaced [] := fun _ hc => nomatch hc
  have hrows : ∀ fs : List String, (∀ f ∈ fs, Spaced f.toList) →
      Spaced ('|' :: rowText (fs.map String.toList)) := fun fs hfs =>
    spaced_rowText fun t ht => by
      obtain ⟨f, hf, rfl⟩ := List.mem_map.mp ht
      exact hfs f hf
  have hparameters : ∀ l ∈ parameterLines s.parameters, Spaced l := by
    unfold parameterLines
    split_ifs
    · exact fun _ hl => nomatch hl
    · refine List.forall_mem_append.mpr ⟨hparameterHead, List.forall_mem_append.mpr
        ⟨fun l hl => ?_, List.forall_mem_singleton.mpr hnil⟩⟩
      obtain ⟨p, hp, rfl⟩ := List.mem_map.mp hl
      rw [parameterText_eq]
      exact hrows _ (h.parameters p hp)
  refine List.forall_mem_cons.mpr ⟨?_, List.forall_mem_append.mpr ⟨hpinHead,
    List.forall_mem_append.mpr ⟨fun l hl => ?_, List.forall_mem_cons.mpr ⟨hnil, hparameters⟩⟩⟩⟩
  · rw [String.toList_append, toList_cell]
    exact hhash.append (spaced_cellText h.name)
  · obtain ⟨p, hp, rfl⟩ := List.mem_map.mp hl
    rw [pinText_eq (h.direction p hp)]
    exact hrows _ (h.pins p hp)

/-! ### Documents -/

theorem toList_render {doc : Document} (h : ∀ s ∈ doc.sections, Tidy s) :
    (render doc).toList = unlines (doc.sections.flatMap sectionLines) := by
  unfold render unlines
  rw [String.toList_join, List.flatMap_map, List.flatMap_assoc]
  exact congrArg List.flatten (List.map_congr_left fun s hs => toList_sectionText (h s hs))

theorem tidy_of_mem_sections (o : Options) (files : List SourceFile) (t : Hierarchy) :
    ∀ s ∈ (Document.ofDesign (Design.ofFiles o files).1 t).sections, Tidy s := by
  intro s hs
  obtain ⟨m, hm, rfl⟩ := List.mem_map.mp hs
  exact tidy_ofModule _ (Design.normal_ofFiles o files m hm)

/-- **The Markdown text can be read back.** For a document made from any files and for any root, it
is the lines of its sections, each of them a heading and a line for each row of its tables behind
their fixed heads; and the line of a row is read as exactly the fields of this row. No blanks but
spaces and newlines are in it, so the lines are the same whatever characters are taken to break
one. -/
theorem lines_render (o : Options) (files : List SourceFile) (root : String) :
    let d := (Design.ofFiles o files).1
    let doc := Document.ofDesign d (Hierarchy.expand d root).1
    Text.lines (render doc).toList = doc.sections.flatMap sectionLines ++ [[]] ∧
      (∀ s ∈ doc.sections,
        (∀ p ∈ s.pins, readLine? (pinText p) = some ((pinFields p).map String.toList)) ∧
        ∀ p ∈ s.parameters,
          readLine? (parameterText p) = some ((parameterFields p).map String.toList)) ∧
      ∀ c ∈ (render doc).toList, isBlank c = true → c = ' ' ∨ c = '\n' := by
  intro d doc
  have htidy : ∀ s ∈ doc.sections, Tidy s := tidy_of_mem_sections o files _
  have hlines : ∀ l ∈ doc.sections.flatMap sectionLines, Spaced l := by
    intro l hl
    obtain ⟨s, hs, hl⟩ := List.mem_flatMap.mp hl
    exact spaced_of_mem_sectionLines (htidy s hs) l hl
  refine ⟨?_, fun s hs => ⟨fun p hp => ?_, fun p _ => ?_⟩, fun c hc hb => ?_⟩
  · rw [toList_render htidy]
    exact lines_unlines fun l hl => (hlines l hl).newline_notMem
  · rw [pinText_eq ((htidy s hs).direction p hp)]
    exact readLine?_rowText _
  · rw [parameterText_eq]
    exact readLine?_rowText _
  · rw [toList_render htidy] at hc
    obtain ⟨l, hl, hc⟩ := List.mem_flatMap.mp hc
    rcases List.mem_append.mp hc with hc | hc
    · exact .inl (hlines l hl c hc hb)
    · exact .inr (List.mem_singleton.mp hc)

/-- Bars in names and values, one of them behind a backslash. -/
theorem lines_render_bars :
    let source : Text := "module \\m|n #(parameter P = a\\|b | c) (input \\d|\\ ); endmodule".toList
    let d := (Design.ofFiles {} [⟨"x.v", source⟩]).1
    let doc := Document.ofDesign d (Hierarchy.expand d "m|n").1
    let p : PinRow := ⟨"input", "", "", "d|\\", ""⟩
    let q : ParameterRow := ⟨"", "P", "a\\|b | c"⟩
    (∃ s ∈ doc.sections, p ∈ s.pins ∧ q ∈ s.parameters) ∧
      readLine? (pinText p) = some ((pinFields p).map String.toList) ∧
      readLine? (parameterText q) = some ((parameterFields q).map String.toList) := by
  intro source d doc p q
  have hrows : ∃ s ∈ doc.sections, p ∈ s.pins ∧ q ∈ s.parameters := by decide +kernel
  obtain ⟨s, hs, hp, hq⟩ := hrows
  obtain ⟨-, hread, -⟩ := lines_render {} [⟨"x.v", source⟩] "m|n"
  exact ⟨⟨s, hs, hp, hq⟩, (hread s hs).1 p hp, (hread s hs).2 q hq⟩

end DesignAtlas.Markdown
