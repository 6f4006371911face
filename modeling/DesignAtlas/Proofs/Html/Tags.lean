import DesignAtlas.Html
import Mathlib.Data.List.Infix

/-! # The tags on a page

Text from the sources is escaped before it is put on a page, so no tag begins in it, and a page
without drawings has the tags of the markup only. A page holds the anchor of a module exactly when
the section of this module is on it (`anchor_mem_filePage`). The index holds the frame for the page
of the top module, and no page of a source file does (`mainFrame_infix_index`,
`mainFrame_notInfix_filePage`).

A tag of some beginning is looked for from left to right. `OpensOnlyIf P` says that such a tag
begins in a text only if `P` holds, whatever stands behind the text; pages are put together from
parts of which this is known. -/

namespace DesignAtlas.Html

/-! ### Escaped text -/

theorem notMem_escapeChar (c : Char) : '<' ∉ escapeChar c ∧ '\x27' ∉ escapeChar c := by
  unfold escapeChar
  split_ifs with h1 h2 h3 h4 h5
  · decide
  · decide
  · decide
  · decide
  · decide
  · simp only [List.mem_singleton]
    exact ⟨Ne.symm h2, Ne.symm h5⟩

theorem escapeChar_ne_nil (c : Char) : escapeChar c ≠ [] := by
  unfold escapeChar
  split_ifs <;> simp

theorem toList_escape (s : String) : (escape s).toList = s.toList.flatMap escapeChar := by
  rw [escape, String.toList_ofList]

theorem notMem_escape (s : String) : '<' ∉ (escape s).toList ∧ '\x27' ∉ (escape s).toList := by
  simp only [toList_escape, List.mem_flatMap, not_exists, not_and]
  exact ⟨fun c _ => (notMem_escapeChar c).1, fun c _ => (notMem_escapeChar c).2⟩

/-- The character that stands escaped at the front of a text. -/
def front? : Text → Option Char
  | '&' :: 'a' :: _ => some '&'
  | '&' :: 'l' :: _ => some '<'
  | '&' :: 'g' :: _ => some '>'
  | '&' :: 'q' :: _ => some '\x22'
  | '&' :: '#' :: _ => some '\x27'
  | c :: _ => some c
  | [] => none

theorem front?_escapeChar (c : Char) (t : Text) : front? (escapeChar c ++ t) = some c := by
  unfold escapeChar
  split_ifs with h1 h2 h3 h4 h5
  · rw [h1]; rfl
  · rw [h2]; rfl
  · rw [h3]; rfl
  · rw [h4]; rfl
  · rw [h5]; rfl
  · rw [List.singleton_append]
    unfold front?
    split <;> simp_all

theorem escapeChar_append_inj {c c' : Char} {t t' : Text}
    (h : escapeChar c ++ t = escapeChar c' ++ t') : c = c' ∧ t = t' := by
  have hc := congrArg front? h
  rw [front?_escapeChar, front?_escapeChar] at hc
  obtain rfl := Option.some.inj hc
  exact ⟨rfl, List.append_cancel_left h⟩

theorem flatMap_escapeChar_inj : ∀ {s s' : Text},
    s.flatMap escapeChar = s'.flatMap escapeChar → s = s'
  | [], [], _ => rfl
  | [], c :: s', h => absurd h.symm (by simp [escapeChar_ne_nil])
  | c :: s, [], h => absurd h (by simp [escapeChar_ne_nil])
  | c :: s, c' :: s', h => by
    rw [List.flatMap_cons, List.flatMap_cons] at h
    obtain ⟨rfl, hs⟩ := escapeChar_append_inj h
    rw [flatMap_escapeChar_inj hs]

/-- **Different texts are escaped differently.** -/
theorem escape_injective {s s' : String} (h : escape s = escape s') : s = s' := by
  have hl := congrArg String.toList h
  rw [toList_escape, toList_escape] at hl
  exact String.toList_inj.mp (flatMap_escapeChar_inj hl)

/-! ### Tags -/

/-- A tag that begins with `w` stands in a text. -/
def Opens (w t : Text) : Prop := ('<' :: w) <:+: t

/-- A tag that begins with `w` begins in a text only if `P` holds, whatever stands behind it. -/
def OpensOnlyIf (P : Prop) (w t : Text) : Prop := ∀ r, Opens w (t ++ r) → P ∨ Opens w r

variable {P : Prop} {w : Text}

theorem opens_cons {t : Text} {c : Char} (h : Opens w (c :: t)) :
    (c = '<' ∧ w <+: t) ∨ Opens w t := by
  rcases List.infix_cons_iff.mp h with h | h
  · obtain ⟨hc, hw⟩ := List.cons_prefix_cons.mp h
    exact .inl ⟨hc.symm, hw⟩
  · exact .inr h

theorem not_opens_nil (w : Text) : ¬ Opens w [] := by
  intro h
  cases List.infix_nil.mp h

theorem OpensOnlyIf.of_opens {t : Text} (h : OpensOnlyIf P w t) (ht : Opens w t) : P := by
  rw [← List.append_nil t] at ht
  exact (h [] ht).resolve_right (not_opens_nil w)

theorem opensOnlyIf_nil : OpensOnlyIf P w [] := fun _ h => .inr h

theorem OpensOnlyIf.append {s t : String} (hs : OpensOnlyIf P w s.toList)
    (ht : OpensOnlyIf P w t.toList) : OpensOnlyIf P w (s ++ t).toList := by
  intro r h
  rw [String.toList_append, List.append_assoc] at h
  rcases hs _ h with hP | h
  · exact .inl hP
  · exact ht r h

theorem opensOnlyIf_join : ∀ {l : List String}, (∀ s ∈ l, OpensOnlyIf P w s.toList) →
    OpensOnlyIf P w (String.join l).toList
  | [], _ => opensOnlyIf_nil
  | s :: l, h => by
    rw [String.join_cons]
    exact (h s (by simp)).append (opensOnlyIf_join fun u hu => h u (by simp [hu]))

theorem opensOnlyIf_of_notMem : ∀ {t : Text}, '<' ∉ t → OpensOnlyIf P w t
  | [], _ => opensOnlyIf_nil
  | c :: t, hc => by
    intro r h
    rcases opens_cons h with ⟨rfl, -⟩ | h
    · exact absurd List.mem_cons_self hc
    · exact opensOnlyIf_of_notMem (fun hm => hc (List.mem_cons_of_mem c hm)) r h

theorem opensOnlyIf_escape (s : String) : OpensOnlyIf P w (escape s).toList :=
  opensOnlyIf_of_notMem (notMem_escape s).1

/-! ### Markup -/

/-- The tags in a text are all seen to begin otherwise than with `v`. -/
def Apart (v : Text) : Text → Bool
  | [] => true
  | c :: t => (c != '<' || (!t.isPrefixOf v && !v.isPrefixOf t)) && Apart v t

theorem opensOnlyIf_of_apart {v : Text} (x : Text) : ∀ {t : Text}, Apart v t = true →
    OpensOnlyIf P (v ++ x) t
  | [], _ => opensOnlyIf_nil
  | c :: t, hc => by
    intro r h
    rw [Apart, Bool.and_eq_true] at hc
    rcases opens_cons h with ⟨rfl, hp⟩ | h
    · have hv : v <+: t ++ r := (List.prefix_append v x).trans hp
      have hne : ¬ t <+: v ∧ ¬ v <+: t := by
        simpa [← List.isPrefixOf_iff_prefix] using hc.1
      rcases List.prefix_or_prefix_of_prefix hv (List.prefix_append t r) with h | h
      · exact absurd h hne.2
      · exact absurd h hne.1
    · exact opensOnlyIf_of_apart x hc.2 r h

/-- How the tag of an anchor begins. -/
def anchorMark : Text := ['h', '2', ' ', 'i', 'd', '=', '\x27']

/-- How the tag of a frame begins. -/
def frameMark : Text := ['f', 'r', 'a', 'm', 'e', ' ', 's', 'r', 'c', '=', '\x22']

/-- The beginnings of tags that are looked for. -/
def marks : List Text := [anchorMark, frameMark]

section Markup

variable {v : Text} (hv : v ∈ marks) (x : Text)
include hv

theorem opensOnlyIf_markup (s : String) (h : ∀ u ∈ marks, Apart u s.toList = true) :
    OpensOnlyIf P (v ++ x) s.toList := opensOnlyIf_of_apart x (h v hv)

theorem opensOnlyIf_row (cells : List String) (h : ∀ c ∈ cells, OpensOnlyIf P (v ++ x) c.toList) :
    OpensOnlyIf P (v ++ x) (row cells).toList := by
  refine ((opensOnlyIf_markup hv x "<tr>" (by decide)).append (opensOnlyIf_join ?_)).append
    (opensOnlyIf_markup hv x "</tr>\n" (by decide))
  intro s hs
  obtain ⟨c, hc, rfl⟩ := List.mem_map.mp hs
  exact ((opensOnlyIf_markup hv x "<td>" (by decide)).append (h c hc)).append
    (opensOnlyIf_markup hv x "</td>" (by decide))

theorem opensOnlyIf_pinTable (pins : List PinRow) (h : ∀ p ∈ pins, '<' ∉ p.direction.toList) :
    OpensOnlyIf P (v ++ x) (pinTable pins).toList := by
  refine (((opensOnlyIf_markup hv x _ (by decide +kernel)).append
    (opensOnlyIf_markup hv x _ (by decide +kernel))).append (opensOnlyIf_join ?_)).append
    (opensOnlyIf_markup hv x "</table>\n<br>\n" (by decide +kernel))
  intro s hs
  obtain ⟨p, hp, rfl⟩ := List.mem_map.mp hs
  refine opensOnlyIf_row hv x _ fun c hc => ?_
  rcases List.mem_cons.mp hc with rfl | hc
  · exact opensOnlyIf_of_notMem (h p hp)
  · simp only [List.mem_cons, List.not_mem_nil, or_false] at hc
    rcases hc with rfl | rfl | rfl | rfl <;> exact opensOnlyIf_escape _

theorem opensOnlyIf_parameterTable (ps : List ParameterRow) :
    OpensOnlyIf P (v ++ x) (parameterTable ps).toList := by
  unfold parameterTable
  split_ifs
  · exact opensOnlyIf_nil
  · refine ((opensOnlyIf_markup hv x _ (by decide +kernel)).append (opensOnlyIf_join ?_)).append
      (opensOnlyIf_markup hv x _ (by decide +kernel))
    intro s hs
    obtain ⟨p, -, rfl⟩ := List.mem_map.mp hs
    refine opensOnlyIf_row hv x _ fun c hc => ?_
    simp only [List.mem_cons, List.not_mem_nil, or_false] at hc
    rcases hc with rfl | rfl | rfl <;> exact opensOnlyIf_escape _

theorem opensOnlyIf_unresolvedList (names : List String) :
    OpensOnlyIf P (v ++ x) (unresolvedList names).toList := by
  unfold unresolvedList
  split_ifs
  · exact opensOnlyIf_nil
  · refine ((opensOnlyIf_markup hv x _ (by decide +kernel)).append (opensOnlyIf_join ?_)).append
      (opensOnlyIf_markup hv x _ (by decide +kernel))
    intro s hs
    obtain ⟨n, -, rfl⟩ := List.mem_map.mp hs
    exact ((opensOnlyIf_markup hv x "<li>" (by decide +kernel)).append
      (opensOnlyIf_escape n)).append (opensOnlyIf_markup hv x "</li>\n" (by decide +kernel))

theorem opensOnlyIf_flow (s : Section) : OpensOnlyIf P (v ++ x) (flow none s).toList :=
  ((opensOnlyIf_markup hv x "<pre>" (by decide +kernel)).append (opensOnlyIf_escape _)).append
    (opensOnlyIf_markup hv x "</pre>" (by decide +kernel))

theorem opensOnlyIf_style : OpensOnlyIf P (v ++ x) style.toList :=
  (opensOnlyIf_markup hv x _ (by decide +kernel)).append
    (opensOnlyIf_markup hv x _ (by decide +kernel))

theorem opensOnlyIf_title (title : String) :
    OpensOnlyIf P (v ++ x) (style ++ "<h1>" ++ escape title ++ "</h1>\n").toList :=
  (((opensOnlyIf_style hv x).append (opensOnlyIf_markup hv x "<h1>" (by decide))).append
    (opensOnlyIf_escape title)).append (opensOnlyIf_markup hv x "</h1>\n" (by decide))

end Markup

/-! ### Anchors -/

/-- The anchor to which links to a module lead. -/
def anchor (name : String) : String := "<h2 id='" ++ escape name ++ "'>"

/-- The tag of an anchor, without its first character. -/
def anchorTag (name : String) : Text :=
  anchorMark ++ ((escape name).toList ++ ['\x27', '>'])

theorem toList_anchor (name : String) : (anchor name).toList = '<' :: anchorTag name := by
  have hclose : (anchor name).toList = ("<h2 id='" ++ escape name).toList ++ ['\x27', '>'] :=
    String.toList_append
  have hopen : ("<h2 id='" ++ escape name).toList = '<' :: anchorMark ++ (escape name).toList :=
    String.toList_append
  rw [hclose, hopen, anchorTag, List.append_assoc, List.cons_append]

theorem eq_of_append_cons {c : Char} : ∀ {a b r s : Text}, c ∉ a → c ∉ b →
    a ++ c :: r = b ++ c :: s → a = b
  | [], [], _, _, _, _, _ => rfl
  | [], x :: b, _, _, _, hb, h => absurd (List.cons.inj h).1 (fun hx => hb (by simp [hx]))
  | x :: a, [], _, _, ha, _, h => absurd (List.cons.inj h).1 (fun hx => ha (by simp [hx]))
  | x :: a, y :: b, r, s, ha, hb, h => by
    obtain ⟨rfl, ht⟩ := List.cons.inj h
    rw [eq_of_append_cons (fun hm => ha (by simp [hm])) (fun hm => hb (by simp [hm])) ht]

/-- The tag of an anchor tells its module. -/
theorem eq_of_prefix_anchorTag {n m : String} {r : Text} (h : anchorTag n <+: anchorTag m ++ r) :
    m = n := by
  obtain ⟨u, hu⟩ := h
  rw [anchorTag, anchorTag, List.append_assoc, List.append_assoc, List.append_assoc,
    List.append_assoc] at hu
  have hname := eq_of_append_cons (notMem_escape n).2 (notMem_escape m).2
    (List.append_cancel_left hu)
  exact (escape_injective (String.toList_inj.mp hname)).symm

theorem opensOnlyIf_anchor (n m : String) :
    OpensOnlyIf (m = n) (anchorTag n) (anchor m).toList := by
  intro r h
  rw [toList_anchor, List.cons_append] at h
  rcases opens_cons h with ⟨-, hp⟩ | h
  · exact .inl (eq_of_prefix_anchorTag hp)
  · -- no tag begins inside the anchor
    have hplain : '<' ∉ anchorTag m := by
      have hmark : '<' ∉ anchorMark := by decide
      have hname := (notMem_escape m).1
      simp [anchorTag, hmark, hname]
    exact opensOnlyIf_of_notMem hplain r h

/-! ### Sections -/

/-- The directions of the pins hold no markup. -/
def PlainPins (s : Section) : Prop := ∀ p ∈ s.pins, '<' ∉ p.direction.toList

theorem plainPins_ofModule (d : Design) (m : ModuleInfo) : PlainPins (Section.ofModule d m) := by
  intro r hr
  obtain ⟨p, -, rfl⟩ := List.mem_map.mp hr
  change '<' ∉ ((p.direction.map Direction.word).getD "").toList
  rcases p.direction with _ | _ | _ | _ <;> decide

/-- On a section without drawings, the tags with a mark are those of its anchor. -/
theorem opensOnlyIf_section {v x : Text} (hv : v ∈ marks) {s : Section}
    (h : PlainPins s) (hs : OpensOnlyIf P (v ++ x) (anchor s.name).toList) :
    OpensOnlyIf P (v ++ x) (sectionText none s).toList := by
  have hlit := opensOnlyIf_markup (P := P) hv x
  have hhead : OpensOnlyIf P (v ++ x) (heading s.name).toList :=
    (hs.append (opensOnlyIf_escape s.name)).append (hlit "</h2>\n" (by decide))
  have hflow := ((hhead.append (hlit "<hr/>\n<h3>flow</h3>\n" (by decide +kernel))).append
    (opensOnlyIf_flow hv x s)).append (hlit "\n<br>\n" (by decide))
  have htables := ((hflow.append (opensOnlyIf_pinTable hv x _ h)).append
    (opensOnlyIf_parameterTable hv x s.parameters)).append
    (opensOnlyIf_unresolvedList hv x s.unresolved)
  exact ((htables.append (hlit "<pre>" (by decide))).append (opensOnlyIf_escape s.body)).append
    (hlit "</pre>\n" (by decide))

theorem anchor_infix_section (s : Section) :
    (anchor s.name).toList <:+: (sectionText none s).toList := by
  have step : ∀ {u t : String}, (anchor s.name).toList <:+: u.toList →
      (anchor s.name).toList <:+: (u ++ t).toList := by
    intro u t h
    rw [String.toList_append]
    exact h.trans (List.prefix_append _ _).isInfix
  have hhead : (anchor s.name).toList <:+: (heading s.name).toList :=
    step (step (List.infix_refl _))
  exact step (step (step (step (step (step (step (step (step hhead))))))))

/-! ### Pages -/

/-- On a page without drawings, the tags with a mark are those of the anchors of its sections. -/
theorem opensOnlyIf_filePage {v x : Text} (hv : v ∈ marks) {doc : Document}
    (hdoc : ∀ s ∈ doc.sections, PlainPins s) (file : String)
    (h : ∀ s ∈ doc.sectionsOf file, OpensOnlyIf P (v ++ x) (anchor s.name).toList) :
    OpensOnlyIf P (v ++ x) (filePage none doc file).toList := by
  refine (opensOnlyIf_title hv x _).append (opensOnlyIf_join fun t ht => ?_)
  obtain ⟨s, hs, rfl⟩ := List.mem_map.mp ht
  exact opensOnlyIf_section hv (hdoc s (List.mem_of_mem_filter hs)) (h s hs)

/-- **A page holds the anchor of a module exactly when its section is on the page.** -/
theorem anchor_mem_filePage {doc : Document} (hdoc : ∀ s ∈ doc.sections, PlainPins s)
    (file n : String) : (anchor n).toList <:+: (filePage none doc file).toList ↔
      ∃ s ∈ doc.sectionsOf file, s.name = n := by
  constructor
  · intro h
    have hpage : OpensOnlyIf (∃ s ∈ doc.sectionsOf file, s.name = n) (anchorTag n)
        (filePage none doc file).toList := by
      refine opensOnlyIf_filePage (by simp [marks]) hdoc file fun s hs r hr => ?_
      exact (opensOnlyIf_anchor n s.name r hr).imp_left fun hn => ⟨s, hs, hn⟩
    rw [toList_anchor] at h
    exact hpage.of_opens h
  · rintro ⟨s, hs, rfl⟩
    have hjoin : (sectionText none s).toList <:+:
        (String.join ((doc.sectionsOf file).map (sectionText none))).toList := by
      rw [String.toList_join]
      obtain ⟨a, b, hab⟩ := List.append_of_mem (List.mem_map_of_mem (f := sectionText none) hs)
      rw [hab, List.flatMap_append, List.flatMap_cons]
      exact ⟨_, _, List.append_assoc ..⟩
    refine ((anchor_infix_section s).trans hjoin).trans ?_
    rw [filePage, String.toList_append]
    exact (List.suffix_append _ _).isInfix

/-! ### Frames -/

/-- The frame of the index that shows the page of the top module. -/
def mainFrame (page : String) : String := "<frame src=\"" ++ escape page ++ "\" name=\"main\">"

theorem toList_mainFrame (page : String) : (mainFrame page).toList =
    '<' :: (frameMark ++ ((escape page).toList ++ "\" name=\"main\">".toList)) := by
  have hclose : (mainFrame page).toList =
      ("<frame src=\"" ++ escape page).toList ++ "\" name=\"main\">".toList :=
    String.toList_append
  have hopen : ("<frame src=\"" ++ escape page).toList =
      '<' :: frameMark ++ (escape page).toList := String.toList_append
  rw [hclose, hopen, List.append_assoc, List.cons_append]

/-- The index shows the page of the top module. -/
theorem mainFrame_infix_index (doc : Document) :
    (mainFrame (doc.topPage?.getD "")).toList <:+: (index doc).toList := by
  obtain ⟨a, ha⟩ : ∃ a : String, index doc = a ++ "    <frame src=\"" ++
      escape (doc.topPage?.getD "") ++ "\" name=\"main\">\n" ++ "  </frameset>\n</html>\n" :=
    ⟨_, rfl⟩
  have hopen : "    <frame src=\"".toList = [' ', ' ', ' ', ' '] ++ '<' :: frameMark := by decide
  have hclose : "\" name=\"main\">\n".toList = "\" name=\"main\">".toList ++ ['\n'] := by decide
  refine ⟨a.toList ++ [' ', ' ', ' ', ' '], ['\n'] ++ "  </frameset>\n</html>\n".toList, ?_⟩
  rw [ha, toList_mainFrame, String.toList_append, String.toList_append, String.toList_append,
    String.toList_append, hopen, hclose]
  simp only [List.append_assoc, List.cons_append, List.nil_append]

/-- No page of a source file shows the page of the top module. -/
theorem mainFrame_notInfix_filePage {doc : Document} (hdoc : ∀ s ∈ doc.sections, PlainPins s)
    (file page : String) : ¬ (mainFrame page).toList <:+: (filePage none doc file).toList := by
  intro h
  rw [toList_mainFrame] at h
  generalize (escape page).toList ++ "\" name=\"main\">".toList = x at h
  have hpage : OpensOnlyIf False (frameMark ++ x) (filePage none doc file).toList := by
    refine opensOnlyIf_filePage (by simp [marks]) hdoc file fun s _ => ?_
    have hopen : OpensOnlyIf False (frameMark ++ x) "<h2 id='".toList :=
      opensOnlyIf_of_apart x (by decide)
    have hclose : OpensOnlyIf False (frameMark ++ x) "'>".toList :=
      opensOnlyIf_of_apart x (by decide)
    exact (hopen.append (opensOnlyIf_escape s.name)).append hclose
  exact hpage.of_opens h

end DesignAtlas.Html
