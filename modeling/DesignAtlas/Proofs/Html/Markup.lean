import DesignAtlas.Html
import DesignAtlas.Proofs.Hierarchy.Expansion
import Mathlib.Data.List.Forall2
import Mathlib.Tactic.Common

/-! # The markup of a page

Angle brackets and quotes are the characters of markup. Escaping leaves none of them and loses
nothing (`markup_escape`, `unescape_escape`), so all the markup on a page comes from the forms that
the page is made of: which texts they hold makes no difference, only how many there are. Two texts
are alike when they have the same markup in the same order; what is put together from alike texts is
alike. So are the sections of two modules with equally many pins, parameters and unknown modules
(`alike_sectionText`), and so are the pages of two documents, whatever sources they are made from
(`markup_of_counts`). -/

namespace DesignAtlas.Html

/-! ### Escaped texts -/

/-- The characters of markup: angle brackets and quotes. -/
def markupChars : List Char := ['<', '>', '\x27', '\x22']

/-- The markup of a text: these characters of it, in their order. -/
def markup (s : String) : Text := s.toList.filter fun c => markupChars.contains c

theorem markup_append (s t : String) : markup (s ++ t) = markup s ++ markup t := by
  unfold markup
  rw [String.toList_append, List.filter_append]

theorem filter_escapeChar (c : Char) :
    (escapeChar c).filter (fun d => markupChars.contains d) = [] := by
  unfold escapeChar
  split_ifs with h1 h2 h3 h4 h5
  · decide
  · decide
  · decide
  · decide
  · decide
  · have hc : c ∉ markupChars := by simp [markupChars, h2, h3, h4, h5]
    simpa using hc

/-- **An escaped text holds no markup.** -/
theorem markup_escape (s : String) : markup (escape s) = [] := by
  unfold markup escape
  rw [String.toList_ofList, List.filter_flatMap, List.flatMap_eq_nil_iff]
  exact fun c _ => filter_escapeChar c

/-- Puts back the characters that are written as entities. -/
def unescape : Text → Text
  | '&' :: 'a' :: 'm' :: 'p' :: ';' :: t => '&' :: unescape t
  | '&' :: 'l' :: 't' :: ';' :: t => '<' :: unescape t
  | '&' :: 'g' :: 't' :: ';' :: t => '>' :: unescape t
  | '&' :: 'q' :: 'u' :: 'o' :: 't' :: ';' :: t => '\x22' :: unescape t
  | '&' :: '#' :: '3' :: '9' :: ';' :: t => '\x27' :: unescape t
  | c :: t => c :: unescape t
  | [] => []

theorem unescape_cons {c : Char} (h : c ≠ '&') (t : Text) :
    unescape (c :: t) = c :: unescape t := by
  rw [unescape.eq_def]
  split <;> simp_all

theorem unescape_escapeChar_append (c : Char) (t : Text) :
    unescape (escapeChar c ++ t) = c :: unescape t := by
  unfold escapeChar
  split_ifs with h1 h2 h3 h4 h5
  · rw [h1]; rfl
  · rw [h2]; rfl
  · rw [h3]; rfl
  · rw [h4]; rfl
  · rw [h5]; rfl
  · exact unescape_cons h1 t

/-- **An escaped text can be read back.** -/
theorem unescape_escape (s : String) : unescape (escape s).toList = s.toList := by
  unfold escape
  rw [String.toList_ofList]
  induction s.toList with
  | nil => rfl
  | cons c t ih => rw [List.flatMap_cons, unescape_escapeChar_append, ih]

/-! ### Texts with the same markup -/

/-- The texts have the same markup. -/
def Alike (s t : String) : Prop := markup s = markup t

theorem Alike.refl (s : String) : Alike s s := rfl

theorem Alike.append {s s' t t' : String} (hs : Alike s s') (ht : Alike t t') :
    Alike (s ++ t) (s' ++ t') := by
  unfold Alike at *
  rw [markup_append, markup_append, hs, ht]

theorem alike_escape (s t : String) : Alike (escape s) (escape t) := by
  unfold Alike
  rw [markup_escape, markup_escape]

/-- **Texts that are alike one by one** are alike when they are joined. -/
theorem alike_join {ss ts : List String} (h : List.Forall₂ Alike ss ts) :
    Alike (String.join ss) (String.join ts) := by
  induction h with
  | nil => exact Alike.refl _
  | cons hst _ ih =>
    rw [String.join_cons, String.join_cons]
    exact hst.append ih

/-- Equally many texts of one form are alike when they are joined. -/
theorem alike_join_map {α : Type} {f : α → String} {as bs : List α}
    (hlength : as.length = bs.length) (h : ∀ a ∈ as, ∀ b ∈ bs, Alike (f a) (f b)) :
    Alike (String.join (as.map f)) (String.join (bs.map f)) := by
  refine alike_join ?_
  rw [List.forall₂_map_left_iff, List.forall₂_map_right_iff, List.forall₂_iff_zip]
  exact ⟨hlength, fun {a b} hab => h a (List.of_mem_zip hab).1 b (List.of_mem_zip hab).2⟩

/-! ### Sections -/

/-- How many rows the tables of a section have and how many modules it lists as unknown. -/
structure Counts where
  pins : Nat
  parameters : Nat
  unresolved : Nat
  deriving DecidableEq, Repr

/-- The counts of a section. -/
def counts (s : Section) : Counts := ⟨s.pins.length, s.parameters.length, s.unresolved.length⟩

/-- The directions of the pins, which are not escaped, hold no markup. -/
def PlainDirections (s : Section) : Prop := ∀ p ∈ s.pins, markup p.direction = []

/-- The directions in a section of a design are plain words. -/
theorem plainDirections_ofModule (d : Design) (m : ModuleInfo) :
    PlainDirections (Section.ofModule d m) := by
  intro r hr
  obtain ⟨p, -, rfl⟩ := List.mem_map.mp hr
  change markup ((p.direction.map Direction.word).getD "") = []
  rcases p.direction with _ | _ | _ | _ <;> decide

theorem alike_row {cs ds : List String} (h : List.Forall₂ Alike cs ds) :
    Alike (row cs) (row ds) := by
  refine ((Alike.refl "<tr>").append (alike_join ?_)).append (.refl "</tr>\n")
  rw [List.forall₂_map_left_iff, List.forall₂_map_right_iff]
  exact h.imp fun _ _ hcd => ((Alike.refl "<td>").append hcd).append (.refl "</td>")

theorem alike_pinRow {p q : PinRow} (hp : markup p.direction = []) (hq : markup q.direction = []) :
    Alike (pinRow p) (pinRow q) :=
  alike_row (.cons (hp.trans hq.symm) (.cons (alike_escape _ _) (.cons (alike_escape _ _)
    (.cons (alike_escape _ _) (.cons (alike_escape _ _) .nil)))))

theorem alike_parameterRow (p q : ParameterRow) : Alike (parameterRow p) (parameterRow q) :=
  alike_row (.cons (alike_escape _ _) (.cons (alike_escape _ _) (.cons (alike_escape _ _) .nil)))

variable {s s' : Section}

theorem alike_pinTable (hs : PlainDirections s) (hs' : PlainDirections s')
    (h : s.pins.length = s'.pins.length) : Alike (pinTable s.pins) (pinTable s'.pins) :=
  ((Alike.refl _).append
    (alike_join_map h fun p hp q hq => alike_pinRow (hs p hp) (hs' q hq))).append
    (.refl _)

/-- A part that is left out when there are no rows. -/
theorem alike_rows {α : Type} {f : α → String} (opening closing : String)
    (h : ∀ a b, Alike (f a) (f b)) : ∀ {as bs : List α}, as.length = bs.length →
      Alike (if as.isEmpty then "" else opening ++ String.join (as.map f) ++ closing)
        (if bs.isEmpty then "" else opening ++ String.join (bs.map f) ++ closing)
  | [], [], _ => Alike.refl _
  | _ :: _, _ :: _, hlength =>
    ((Alike.refl opening).append (alike_join_map hlength fun a _ b _ => h a b)).append
      (.refl closing)

theorem alike_parameterTable {ps qs : List ParameterRow} (h : ps.length = qs.length) :
    Alike (parameterTable ps) (parameterTable qs) := alike_rows _ _ alike_parameterRow h

theorem alike_unresolvedList {ns ms : List String} (h : ns.length = ms.length) :
    Alike (unresolvedList ns) (unresolvedList ms) :=
  alike_rows _ _ (fun n m => ((Alike.refl _).append (alike_escape n m)).append (.refl _)) h

theorem alike_heading (n m : String) : Alike (heading n) (heading m) :=
  ((((Alike.refl _).append (alike_escape n m)).append (.refl _)).append (alike_escape n m)).append
    (.refl _)

/-- Without a renderer a flow graph is an escaped text. -/
theorem alike_flow (s s' : Section) : Alike (flow none s) (flow none s') :=
  ((Alike.refl "<pre>").append (alike_escape _ _)).append (.refl "</pre>")

/-- **Sections with the same counts are alike.** -/
theorem alike_sectionText (hs : PlainDirections s) (hs' : PlainDirections s')
    (h : counts s = counts s') : Alike (sectionText none s) (sectionText none s') := by
  obtain ⟨hpins, hparameters, hunresolved⟩ := Counts.mk.inj h
  refine .append (.append (.append ?_ (.refl _)) (alike_escape s.body s'.body)) (.refl _)
  refine .append (.append (.append ?_ (alike_pinTable hs hs' hpins))
    (alike_parameterTable hparameters)) (alike_unresolvedList hunresolved)
  exact .append (.append (.append (alike_heading s.name s'.name) (.refl _)) (alike_flow s s'))
    (.refl _)

/-! ### Pages -/

variable {doc doc' : Document}

theorem alike_filePage (hdoc : ∀ s ∈ doc.sections, PlainDirections s)
    (hdoc' : ∀ s ∈ doc'.sections, PlainDirections s) {file file' : String}
    (h : (doc.sectionsOf file).map counts = (doc'.sectionsOf file').map counts) :
    Alike (filePage none doc file) (filePage none doc' file') := by
  refine ((((Alike.refl _).append (.refl _)).append (alike_escape _ _)).append (.refl _)).append
    (alike_join ?_)
  rw [List.forall₂_map_left_iff, List.forall₂_map_right_iff]
  rw [← List.forall₂_eq_eq_eq, List.forall₂_map_left_iff, List.forall₂_map_right_iff,
    List.forall₂_iff_zip] at h
  refine List.forall₂_iff_zip.mpr ⟨h.1, fun {s s'} hmem => ?_⟩
  obtain ⟨hs, hs'⟩ := List.of_mem_zip hmem
  exact alike_sectionText (hdoc s (List.mem_of_mem_filter hs))
    (hdoc' s' (List.mem_of_mem_filter hs'))
    (h.2 hmem)

/-- The bars in front of an entry hold no markup, nor does the mark of a cycle. -/
theorem markup_indent (depth : Nat) :
    markup (String.join (List.replicate depth "|&nbsp;")) = [] := by
  induction depth with
  | zero => rfl
  | succ n ih =>
    rw [List.replicate_succ, String.join_cons, markup_append, ih]
    decide

theorem markup_cycle (cycle : Bool) : markup (if cycle then " (cycle)" else "") = [] := by
  cases cycle <;> decide

theorem alike_menuLine (e e' : MenuEntry) : Alike (menuLine e) (menuLine e') := by
  have hindent : Alike (String.join (List.replicate e.depth "|&nbsp;"))
      (String.join (List.replicate e'.depth "|&nbsp;")) :=
    (markup_indent e.depth).trans (markup_indent e'.depth).symm
  have hcycle : Alike (if e.cycle then " (cycle)" else "") (if e'.cycle then " (cycle)" else "") :=
    (markup_cycle e.cycle).trans (markup_cycle e'.cycle).symm
  refine .append (.append (.append ?_ (.refl _)) hcycle) (.refl _)
  refine .append (.append (.append ?_ (alike_escape e.name e'.name)) (.refl _))
    (alike_escape e.name e'.name)
  exact .append (.append (.append hindent (.refl _)) (alike_escape e.page e'.page)) (.refl _)

theorem alike_menu (h : doc.menu.length = doc'.menu.length) : Alike (menu doc) (menu doc') :=
  alike_join_map h fun e _ e' _ => alike_menuLine e e'

theorem alike_index (doc doc' : Document) : Alike (index doc) (index doc') :=
  .append (.append (.append (.append (.refl _) (.refl _)) (alike_escape _ _)) (.refl _)) (.refl _)

/-- **Source text brings no markup into a site.** Two documents, made from any files and for any
root, have the same markup in the same order on the pages of two files of which the sections agree
one by one in their numbers of pins, parameters and unknown modules, in their menus when these have
equally many entries, and in their indexes. An escaped text holds none of the characters of markup
and can be read back. -/
theorem markup_of_counts (o o' : Options) (files files' : List SourceFile)
    (root root' file file' : String) :
    let d := (Design.ofFiles o files).1
    let d' := (Design.ofFiles o' files').1
    let doc := Document.ofDesign d (Hierarchy.expand d root).1
    let doc' := Document.ofDesign d' (Hierarchy.expand d' root').1
    ((doc.sectionsOf file).map counts = (doc'.sectionsOf file').map counts →
        markup (filePage none doc file) = markup (filePage none doc' file')) ∧
      (doc.menu.length = doc'.menu.length → markup (menu doc) = markup (menu doc')) ∧
      markup (index doc) = markup (index doc') ∧
      ∀ s, (∀ c ∈ markupChars, c ∉ (escape s).toList) ∧ unescape (escape s).toList = s.toList := by
  intro d d' doc doc'
  have hplain : ∀ (d : Design) (t : Hierarchy), ∀ s ∈ (Document.ofDesign d t).sections,
      PlainDirections s := by
    intro d t s hs
    obtain ⟨m, -, rfl⟩ := List.mem_map.mp hs
    exact plainDirections_ofModule d m
  refine ⟨alike_filePage (hplain d _) (hplain d' _), alike_menu, alike_index doc doc', fun s => ⟨?_,
    unescape_escape s⟩⟩
  intro c hc hmem
  have hnil := List.filter_eq_nil_iff.mp (markup_escape s) c hmem
  exact hnil (by simpa using hc)

/-- Tags in names, values and instances beside a design without any. -/
theorem markup_of_counts_tags :
    let source : Text := "module \\a<b>' #(parameter P = \"<i>\") (input [1'b1:0] c);
\\u<\"> u0 (c);\nendmodule".toList
    let d := (Design.ofFiles {} [⟨"x.v", source⟩]).1
    let d' := (Design.ofFiles {}
      [⟨"y.v", "module m #(parameter W = 8) (output d); pll u0 (d); endmodule".toList⟩]).1
    let doc := Document.ofDesign d (Hierarchy.expand d "a<b>'").1
    let doc' := Document.ofDesign d' (Hierarchy.expand d' "m").1
    ((doc.sectionsOf "x.v").map counts = [⟨1, 1, 1⟩] ∧
        (doc'.sectionsOf "y.v").map counts = [⟨1, 1, 1⟩] ∧
        doc.menu.length = 1 ∧ doc'.menu.length = 1) ∧
      markup (filePage none doc "x.v") = markup (filePage none doc' "y.v") ∧
      markup (menu doc) = markup (menu doc') := by
  intro source d d' doc doc'
  obtain ⟨hcounts, hroot, hunknown⟩ : (doc.sectionsOf "x.v").map counts = [⟨1, 1, 1⟩] ∧
      (d.find? "a<b>'").map ModuleInfo.instances =
        some [⟨"u<\">", some "u0", "\\u<\"> u0 (c)", []⟩] ∧ d.find? "u<\">" = none := by
    decide +kernel
  obtain ⟨hcounts', hroot', hunknown'⟩ : (doc'.sectionsOf "y.v").map counts = [⟨1, 1, 1⟩] ∧
      (d'.find? "m").map ModuleInfo.instances = some [⟨"pll", some "u0", "pll u0 (d)", []⟩] ∧
        d'.find? "pll" = none := by
    decide +kernel
  -- the only instance is of an unknown module, so nothing stands below the root
  have hlone : ∀ (d : Design) (root : String) (i : Instance),
      (d.find? root).map ModuleInfo.instances = some [i] → d.find? i.callee = none →
        (Document.ofDesign d (Hierarchy.expand d root).1).menu.length = 1 := by
    intro d root i hroot hi
    obtain ⟨m, hm, hinstances⟩ := Option.map_eq_some_iff.mp hroot
    rw [Hierarchy.expand_of_find? hm, hinstances, Hierarchy.expandAll_unknown hi,
      Hierarchy.expandAll_nil, Document.ofDesign, List.length_map, Hierarchy.walk]
    simp [Hierarchy.walkAll, Hierarchy.children]
  have hmenu : doc.menu.length = 1 := hlone d "a<b>'" _ hroot hunknown
  have hmenu' : doc'.menu.length = 1 := hlone d' "m" _ hroot' hunknown'
  obtain ⟨hpage, hlist, -⟩ := markup_of_counts {} {} [⟨"x.v", source⟩]
    [⟨"y.v", "module m #(parameter W = 8) (output d); pll u0 (d); endmodule".toList⟩] "a<b>'" "m"
    "x.v" "y.v"
  exact ⟨⟨hcounts, hcounts', hmenu, hmenu'⟩, hpage (hcounts.trans hcounts'.symm),
    hlist (hmenu.trans hmenu'.symm)⟩

end DesignAtlas.Html
