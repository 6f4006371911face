import DesignAtlas.Proofs.Statement.Place

/-! # The conditions of a statement

A statement carries the conditions that are open where its fragment begins, that is, at the first
visible character behind the semicolon before it. Where every line with a backtick holds a directive
and no code before it, this is a place of the body, and so is the one where the text of the
statement begins. The two places differ only by words that end a task or function, which are cut off
the text; so a conditional directive between such words and the text is left out
(`Statement.conditionals_eq_openBehind`). -/

namespace DesignAtlas

open Text (split)

/-! ### Directives on lines of their own -/

namespace Directive

/-- A line with a backtick holds a directive and no code before it. -/
def Alone (body : Text) : Prop := ∀ line ∈ Text.lines body, '\x60' ∈ line →
  (cut line).2 ≠ none ∧ Text.words (cut line).1 = []

instance (body : Text) : Decidable (Alone body) :=
  inferInstanceAs (Decidable (∀ line ∈ Text.lines body, _ → _))

theorem Alone.tail {c : Char} (hc : c ≠ '\x60') {t : Text} (h : Alone (c :: t)) : Alone t := by
  intro line hline htick
  unfold Alone Text.lines at h
  rw [Text.split_cons] at h
  unfold Text.lines at hline
  obtain ⟨l, ls, hl⟩ := List.exists_cons_of_ne_nil (Text.split_ne_nil (· == '\n') t)
  rw [hl] at h hline
  split_ifs at h
  · exact h line (List.mem_cons_of_mem _ hline) htick
  · rw [consHead, List.forall_mem_cons] at h
    rcases List.mem_cons.mp hline with rfl | hline
    · have hcut := h.1 (List.mem_cons_of_mem c htick)
      rw [cut, if_neg hc, Text.words_eq_nil_iff] at hcut
      refine ⟨hcut.1, Text.words_eq_nil_iff.mpr fun d hd => ?_⟩
      exact hcut.2 d (List.mem_cons_of_mem c hd)
    · exact h.2 line hline htick

theorem Alone.below {l t : Text} (hl : '\n' ∉ l) (h : Alone (l ++ '\n' :: t)) : Alone t := by
  unfold Alone at h
  rw [Text.lines_append hl] at h
  exact (List.forall_mem_cons.mp h).2

/-- What stands in front of a cut in code is alone if the whole is. -/
theorem Alone.of_append : ∀ {a b : Text}, Alone (a ++ b) → a.InCode → Alone a
  | a, b, h, ha => by
    by_cases hline : '\n' ∈ a
    · obtain ⟨l, t, rfl, hl⟩ := List.eq_append_cons_of_mem hline
      have ht : Text.InCode t :=
        ha.of_suffix ((List.suffix_cons '\n' t).trans (List.suffix_append l _))
      rw [List.append_assoc, List.cons_append] at h
      have ih := Alone.of_append (h.below hl) ht
      unfold Alone at h ⊢
      rw [Text.lines_append hl] at h ⊢
      exact List.forall_mem_cons.mpr ⟨(List.forall_mem_cons.mp h).1, ih⟩
    · -- a cut in the first line has no backtick before it
      intro line hmem htick
      have htick' : '\x60' ∈ a := Text.mem_of_mem_split hmem htick
      obtain ⟨u, v, rfl⟩ := List.append_of_mem htick'
      have := ha ('\x60' :: v) ((List.mem_tails _ _).mpr (List.suffix_append u _)) rfl
      exact absurd (List.mem_append_right u this) hline
  termination_by a => a.length

/-- The line of a directive that is alone has no code behind its blanks. -/
theorem cut_tick {l : Text} (h : Text.words (cut ('\x60' :: l)).1 = []) :
    (cut ('\x60' :: l)).1 = [] := by
  cases hd : ofText? l with
  | some d => rw [cut, if_pos rfl, hd]
  | none =>
    rw [cut, if_pos rfl, hd, Text.words_eq_nil_iff] at h
    exact absurd (h '\x60' List.mem_cons_self) (by decide)

end Directive

namespace Statement

open Directive (Alone)

/-- A directive at the front of a body leaves the newline of its line in the code. -/
theorem code_tick {l u : Text} (hl : '\n' ∉ '\x60' :: l) (h : Alone ('\x60' :: l ++ '\n' :: u))
    (v : Text) : code ('\x60' :: l ++ '\n' :: v) = '\n' :: code v := by
  have hline := h ('\x60' :: l) (by rw [Text.lines_append hl]; exact List.mem_cons_self)
    List.mem_cons_self
  rw [code_line hl, Directive.cut_tick hline.2, List.nil_append]

theorem code_tick_of_line {l : Text} (hl : '\n' ∉ '\x60' :: l) (h : Alone ('\x60' :: l)) :
    code ('\x60' :: l) = ['\n'] := by
  have hline := h ('\x60' :: l) (by rw [Text.lines_of_line hl]; exact List.mem_cons_self)
    List.mem_cons_self
  rw [code_of_line hl, Directive.cut_tick hline.2, List.nil_append]

theorem ne_newline {c : Char} (hc : isBlank c = false) : c ≠ '\n' := by
  rintro rfl
  exact absurd hc (by decide)

/-- **A visible character of the code stands somewhere in the body.** -/
theorem exists_place : ∀ {body x z : Text} {c : Char}, Alone body → isBlank c = false →
    code body = x ++ c :: z →
      ∃ a b, body = a ++ b ∧ a.InCode ∧ code a = x ++ ['\n'] ∧ code b = c :: z
  | [], x, z, c, _, hc, h => by
    have hnl : ['\n'] = x ++ c :: z := h
    have hmem : c ∈ ['\n'] := hnl ▸ List.mem_append_right x List.mem_cons_self
    exact absurd (List.mem_singleton.mp hmem) (ne_newline hc)
  | e :: t, x, z, c, halone, hc, h => by
    by_cases he : e = '\x60'
    · subst he
      by_cases hline : '\n' ∈ t
      · -- the line of the directive is passed over
        obtain ⟨l, u, rfl, hl⟩ := List.eq_append_cons_of_mem hline
        have hnl : '\n' ∉ '\x60' :: l := by simp [hl]
        have hread := code_tick hnl halone
        rw [← List.cons_append, hread] at h
        cases x with
        | nil => exact absurd (List.cons.inj h).1.symm (ne_newline hc)
        | cons d x =>
          obtain ⟨rfl, hx⟩ := List.cons.inj h
          obtain ⟨a, b, rfl, ha, hcode, hb⟩ :=
            exists_place (halone.below (l := '\x60' :: l) hnl) hc hx
          refine ⟨'\x60' :: l ++ '\n' :: a, b, by simp, ha.line ('\x60' :: l), ?_, hb⟩
          rw [hread, hcode, List.cons_append]
      · have hnl : '\n' ∉ '\x60' :: t := by simp [hline]
        rw [code_tick_of_line hnl halone] at h
        have hmem : c ∈ ['\n'] := h ▸ List.mem_append_right x List.mem_cons_self
        exact absurd (List.mem_singleton.mp hmem) (ne_newline hc)
    · rw [code_cons he] at h
      cases x with
      | nil =>
        refine ⟨[], e :: t, rfl, Text.inCode_nil, rfl, ?_⟩
        rw [code_cons he, h]
        rfl
      | cons d x =>
        obtain ⟨rfl, hx⟩ := List.cons.inj h
        obtain ⟨a, b, rfl, ha, hcode, hb⟩ := exists_place (halone.tail he) hc hx
        refine ⟨e :: a, b, rfl, Text.inCode_cons.mpr ⟨fun htick => absurd htick he, ha⟩, ?_, hb⟩
        rw [code_cons he, hcode, List.cons_append]
  termination_by body => body.length

end Statement

/-! ### Where a fragment begins -/

/-- **The conditions of a fragment** are those open before its first visible character. -/
theorem Fragment.exists_conditionals {c : Char} (hc : isBlank c = false) (hsemi : c ≠ ';')
    (rs : List Piece) : ∀ (qs : List Piece) (ps : List Text) (s : ConditionStack)
    (begun : Option (List String)) (read : Text) {lead : Text},
    split (· == ';') (qs.filterMap Piece.char?) = ps ++ [lead] → (∀ d ∈ lead, isBlank d = true) →
      (begun = none ∨ ps ≠ []) → ∃ g,
        (ofPieces s begun read (qs ++ .char c :: rs))[ps.length]? = some g ∧
          g.conditionals = ((qs.filterMap Piece.directive?).foldl ConditionStack.advance s).snapshot
  | [], ps, s, begun, read, lead, h, _, hbegun => by
    have hps : ps = [] := by
      have hlen := congrArg List.length h
      simpa using hlen
    subst hps
    obtain rfl : begun = none := by simpa using hbegun
    obtain ⟨v, gs, hgs⟩ := exists_ofPieces_begun s.snapshot rs s
    refine ⟨⟨(c :: read).reverse ++ v, s.snapshot⟩, ?_, rfl⟩
    rw [List.nil_append, ofPieces, if_neg hsemi, if_pos (by simp [hc]), hgs]
    rfl
  | .directive d :: qs, ps, s, begun, read, lead, h, hlead, hbegun =>
    exists_conditionals hc hsemi rs qs ps (s.advance d) begun read h hlead hbegun
  | .char e :: qs, ps, s, begun, read, lead, h, hlead, hbegun => by
    have hchar : (Piece.char e :: qs).filterMap Piece.char? = e :: qs.filterMap Piece.char? := rfl
    have hdirective : (Piece.char e :: qs).filterMap Piece.directive? =
      qs.filterMap Piece.directive? := rfl
    rw [hchar, Text.split_cons] at h
    rw [List.cons_append, ofPieces, hdirective]
    by_cases he : e = ';'
    · obtain ⟨ps', lead', hsplit⟩ :=
        Text.exists_split_eq_concat (· == ';') (qs.filterMap Piece.char?)
      rw [if_pos (by simpa using he), hsplit, ← List.cons_append] at h
      obtain ⟨rfl, hl⟩ := List.append_inj' h rfl
      obtain rfl : lead' = lead := by simpa using hl
      rw [if_pos he, List.length_cons, List.getElem?_cons_succ]
      exact exists_conditionals hc hsemi rs qs ps' s none [] hsplit hlead (Or.inl rfl)
    · obtain ⟨l, ls, hsplit⟩ :=
        List.exists_cons_of_ne_nil (Text.split_ne_nil (· == ';') (qs.filterMap Piece.char?))
      rw [if_neg (by simpa using he), hsplit, consHead] at h
      rw [if_neg he]
      cases ps with
      | nil =>
        -- the fragment has not begun, and its first characters are blank
        obtain ⟨rfl, rfl⟩ := List.cons.inj h
        have hblank : isBlank e = true := hlead e List.mem_cons_self
        obtain rfl : begun = none := by simpa using hbegun
        rw [if_neg (by simp [hblank])]
        exact exists_conditionals hc hsemi rs qs [] s none (e :: read) hsplit
          (fun d hd => hlead d (List.mem_cons_of_mem e hd)) (Or.inl rfl)
      | cons p ps =>
        obtain ⟨rfl, rfl⟩ := List.cons.inj h
        have hne : l :: ps ≠ [] := List.cons_ne_nil l ps
        split_ifs
        · exact exists_conditionals hc hsemi rs qs (l :: ps) s _ _ hsplit hlead (Or.inr hne)
        · exact exists_conditionals hc hsemi rs qs (l :: ps) s _ _ hsplit hlead (Or.inr hne)

namespace ConditionStack

/-- Only conditional directives change the open conditions. -/
theorem foldl_advance_of_conditionals_eq_nil : ∀ {ds : List Directive} (s : ConditionStack),
    Directive.conditionals ds = [] → ds.foldl advance s = s
  | [], _, _ => rfl
  | d :: ds, s, h => by
    have hall := List.filter_eq_nil_iff.mp h
    rw [List.foldl_cons, advance_of_not_conditional (hall d List.mem_cons_self)]
    refine foldl_advance_of_conditionals_eq_nil s (List.filter_eq_nil_iff.mpr fun e he => ?_)
    exact hall e (List.mem_cons_of_mem d he)

end ConditionStack

namespace Statement

/-- The conditions open behind the text `a`, once its directives have been applied. -/
def openBehind (o : Options) (a : Text) : List String :=
  ((applied a).foldl ConditionStack.advance (ConditionStack.empty o.elsePolicy)).snapshot

/-- Fragment `k` begins at the cut between `f` and `r`: in code, behind `k` semicolons and blanks,
and before a visible character. -/
structure FragmentBeginsAt (k : Nat) (f r : Text) : Prop where
  inCode : f.InCode
  behind : ∃ ps lead, split (· == ';') (code f) = ps ++ [lead] ∧ ps.length = k ∧
    ∀ c ∈ lead, isBlank c = true
  visible : ∃ c ∈ (code r).head?, isBlank c = false ∧ c ≠ ';'

theorem FragmentBeginsAt.exists_conditionals (o : Options) {k : Nat} {f r : Text}
    (h : FragmentBeginsAt k f r) : ∃ g,
      (Fragment.ofPieces (ConditionStack.empty o.elsePolicy) none [] (Piece.ofBody (f ++ r)))[k]? =
          some g ∧
        g.conditionals = openBehind o f := by
  obtain ⟨qs, hf, hcut⟩ := Piece.exists_ofBody_append h.inCode
  obtain ⟨ps, lead, hsplit, hk, hlead⟩ := h.behind
  obtain ⟨c, hc, hblank, hsemi⟩ := h.visible
  obtain ⟨c', rs, hrs⟩ := Piece.exists_ofBody_eq_cons r
  obtain rfl : c' = c := by
    rw [← filterMap_char?_ofBody, hrs] at hc
    exact Option.some.inj hc
  obtain ⟨ps', lead', hqs⟩ := Text.exists_split_eq_concat (· == ';') (qs.filterMap Piece.char?)
  -- the newline at the cut makes the piece under way longer
  have hcode : code f = qs.filterMap Piece.char? ++ ['\n'] := by
    rw [← filterMap_char?_ofBody, hf, List.filterMap_append]
    rfl
  rw [hcode, split_newline hqs] at hsplit
  obtain ⟨rfl, hl⟩ := List.append_inj' hsplit rfl
  obtain rfl : lead' ++ ['\n'] = lead := by simpa using hl
  have happlied : qs.filterMap Piece.directive? = applied f := by
    rw [applied, hf, List.filterMap_append]
    exact (List.append_nil _).symm
  rw [hcut, hrs, ← hk, openBehind, ← happlied]
  exact Fragment.exists_conditionals hblank hsemi rs qs ps' _ none [] hqs
    (fun d hd => hlead d (List.mem_append_left _ hd)) (Or.inl rfl)

/-! ### Where the text of a statement begins -/

theorem afterEnd?_ne_none_iff {t : Text} :
    afterEnd? t ≠ none ↔ firstWord t = "endtask" ∨ firstWord t = "endfunction" := by
  unfold afterEnd?
  split_ifs with h <;> simp [h]

/-- Of a text whose front is cut off, the front begins with a word that ends a task or function. -/
theorem afterEnd?_of_dropEnds {y t : Text} (hy : y ≠ []) (hne : t ≠ []) (ht : t.Flush)
    (h : (dropEnds (y ++ t)).2 = t) (v : Text) : afterEnd? (y ++ '\n' :: v) ≠ none := by
  cases hr : afterEnd? (y ++ t) with
  | none =>
    rw [dropEnds_of_none hr] at h
    exact absurd (by simpa using h) hy
  | some r =>
    have hword := afterEnd?_ne_none_iff.mp (hr ▸ Option.some_ne_none r)
    -- the word stands in the front, since the text is left when it is cut off
    have hblank : ∃ d ∈ y, isBlank d = true := by
      by_contra hall
      simp only [not_exists, not_and, Bool.not_eq_true] at hall
      obtain ⟨c, u, rfl⟩ := List.exists_cons_of_ne_nil hne
      have hc : isBlank c = false := ht c rfl
      have hdrop : (y ++ c :: u).dropWhile (fun d => !isBlank d) =
          u.dropWhile fun d => !isBlank d := by
        rw [List.dropWhile_append_of_pos (by simpa using hall),
          List.dropWhile_cons_of_pos (by simp [hc])]
      have hrest : r <:+ u := by
        unfold afterEnd? at hr
        split_ifs at hr
        rw [← Option.some.inj hr, hdrop]
        exact (dropLabel_suffix _).trans ((List.dropWhile_suffix _).trans (List.dropWhile_suffix _))
      have hle := (dropEnds_suffix r).length_le
      rw [dropEnds_of_some hr] at h
      rw [h, List.length_cons] at hle
      have := hrest.length_le
      omega
    obtain ⟨d, hd, hblank⟩ := hblank
    obtain ⟨y₁, y₂, rfl⟩ := List.append_of_mem hd
    have hstop : (!isBlank d) = false := by rw [hblank, Bool.not_true]
    have hfirst : ∀ u : Text, firstWord (y₁ ++ d :: y₂ ++ u) = firstWord y₁ := by
      intro u
      rw [List.append_assoc, List.cons_append]
      exact congrArg String.ofList (Text.takeWhile_append_cons hstop _ y₁)
    rw [hfirst] at hword
    rw [afterEnd?_ne_none_iff, hfirst]
    exact hword

/-- The text of a statement begins somewhere in the body. -/
theorem exists_beginsAt {o : Options} {body : Text} (h : Directive.Alone body) {k : Nat}
    {s : Statement} (hs : (ofBody o body)[k]? = some s) (hne : s.text ≠ []) :
    ∃ a b, body = a ++ b ∧ BeginsAt k s.text a b := by
  obtain ⟨g, -, -, -, htext⟩ := exists_fragment hs
  obtain ⟨x, z, hcode, -, hz, hplace⟩ := exists_text_of_getElem? hs
  obtain ⟨c, t, ht⟩ := List.exists_cons_of_ne_nil hne
  have hc : isBlank c = false :=
    (trimmed_dropEnds (Text.trimmed_trim g.text)).front c (by rw [← htext, ht]; rfl)
  obtain ⟨w, rfl⟩ := hz
  rw [ht, List.cons_append] at hcode hplace
  obtain ⟨a, b, hbody, ha, hacode, hbcode⟩ := exists_place h hc hcode
  rw [ht]
  exact ⟨a, b, hbody, hplace a b ha hacode hbcode⟩

/-- A piece that has a visible character before the end of `a` begins at the first one. -/
theorem exists_fragmentBeginsAt {k : Nat} {a lead y : Text} {c : Char} (ha : Directive.Alone a)
    (hin : a.InCode) (hp : (split (· == ';') (code a))[k]? = some (lead ++ c :: y ++ ['\n']))
    (hlead : ∀ d ∈ lead, isBlank d = true) (hc : isBlank c = false) (b : Text) :
    ∃ f m v, a = f ++ m ∧ code m = c :: y ++ '\n' :: v ∧ FragmentBeginsAt k f (m ++ b) := by
  have hsep := Text.sep_of_mem_split (List.mem_of_getElem? hp)
  obtain ⟨u, v, ps, hcode, hu, hk, -⟩ := Text.exists_of_getElem?_split hp
  have hplace : code a = u ++ lead ++ c :: (y ++ '\n' :: v) := by
    rw [hcode]
    simp
  obtain ⟨f, m, rfl, hf, hfcode, hmcode⟩ := exists_place ha hc hplace
  have hnone : ∀ d ∈ lead ++ ['\n'], (d == ';') = false :=
    List.forall_mem_append.mpr ⟨fun d hd => hsep d (by simp [hd]), by simp⟩
  have hsplit : split (· == ';') (code f) = ps ++ [lead ++ ['\n']] := by
    rw [hfcode, List.append_assoc, Text.split_append (Text.split_of_none hnone) hu,
      List.nil_append]
  have hblank : ∀ d ∈ lead ++ ['\n'], isBlank d = true :=
    List.forall_mem_append.mpr ⟨hlead, List.forall_mem_singleton.mpr isBlank_newline⟩
  have hhead : (code (m ++ b)).head? = some c := by
    obtain ⟨w, hw, hcut⟩ := exists_code_append (hin.of_suffix (List.suffix_append f m))
    rw [hmcode] at hw
    cases w with
    | nil => exact absurd (List.cons.inj hw).1 (ne_newline hc)
    | cons d w =>
      rw [hcut, ← (List.cons.inj hw).1]
      rfl
  have hsemi : c ≠ ';' := by simpa using hsep c (by simp)
  exact ⟨f, m, v, rfl, hmcode, hf, ⟨ps, _, hsplit, hk, hblank⟩, c, hhead, hc, hsemi⟩

/-- Before the text of a statement its fragment begins, and what lies between begins with a word
that ends a task or function. -/
theorem BeginsAt.exists_fragmentBeginsAt {k : Nat} {text a b p : Text} (h : BeginsAt k text a b)
    (ha : Directive.Alone a) (hp : (split (· == ';') (code (a ++ b)))[k]? = some p)
    (htext : text = (dropEnds (Text.trim p)).2) (hne : text ≠ []) :
    ∃ f m, a = f ++ m ∧ FragmentBeginsAt k f (m ++ b) ∧
      (m = [] ∨ afterEnd? (code m) ≠ none) := by
  obtain ⟨x, ps, front, trail, -, hx, hps, hk, -, rfl, htrail⟩ := h.exists_piece hp
  have hsplit : split (· == ';') (code a) = ps ++ [front ++ ['\n']] := by
    rw [hx]
    exact split_newline hps
  have htrimmed : text.Trimmed := htext ▸ trimmed_dropEnds (Text.trimmed_trim _)
  obtain hblank | ⟨lead, c, y, rfl, hlead, hc⟩ := Text.exists_visible front
  · -- nothing is cut off
    have hfront : ∀ d ∈ front ++ ['\n'], isBlank d = true :=
      List.forall_mem_append.mpr ⟨hblank, List.forall_mem_singleton.mpr isBlank_newline⟩
    obtain ⟨c, t, rfl⟩ := List.exists_cons_of_ne_nil hne
    obtain ⟨trail', qs, hb, -⟩ := h.before
    have hsemi : c ≠ ';' := by
      simpa using Text.sep_of_mem_split (List.mem_of_getElem? hp) c (by simp)
    exact ⟨a, [], (List.append_nil a).symm, ⟨h.inCode, ⟨ps, _, hsplit, hk, hfront⟩, c,
      Text.head?_of_split hb, htrimmed.front c rfl, hsemi⟩, Or.inl rfl⟩
  · have hpiece : (split (· == ';') (code a))[k]? = some (lead ++ c :: y ++ ['\n']) := by
      rw [hsplit, ← hk]
      simp
    obtain ⟨f, m, v, rfl, hmcode, hbegin⟩ :=
      Statement.exists_fragmentBeginsAt ha h.inCode hpiece hlead hc b
    refine ⟨f, m, rfl, hbegin, Or.inr ?_⟩
    have hwhole : Text.Trimmed (c :: y ++ text) := by
      refine ⟨fun d hd => Option.some.inj hd ▸ hc, fun d hd => htrimmed.back d ?_⟩
      rwa [List.getLast?_append_of_ne_nil _ hne] at hd
    have htrim : Text.trim (lead ++ c :: y ++ (text ++ trail)) = c :: y ++ text := by
      have := Text.trim_of_trimmed hwhole hlead htrail
      simpa using this
    rw [htrim] at htext
    rw [hmcode]
    exact afterEnd?_of_dropEnds (List.cons_ne_nil c y) hne htrimmed.front htext.symm v

/-- **The conditions of a statement are those open where its fragment begins.** Its text begins in
the same place, unless words that end a task or function are cut off before it; and then too, the
conditions are those open where the text begins if no conditional directive stands behind the words
cut off. -/
theorem conditionals_eq_openBehind {o : Options} {body : Text} (h : Directive.Alone body) {k : Nat}
    {s : Statement} (hs : (ofBody o body)[k]? = some s) (hne : s.text ≠ []) :
    (∃ a b, body = a ++ b ∧ BeginsAt k s.text a b) ∧
      ∀ a b, body = a ++ b → BeginsAt k s.text a b → ∃ f m, a = f ++ m ∧
        FragmentBeginsAt k f (m ++ b) ∧ s.conditionals = openBehind o f ∧
          (m = [] ∨ afterEnd? (code m) ≠ none) ∧
            (Directive.conditionals (applied m) = [] → s.conditionals = openBehind o a) := by
  refine ⟨exists_beginsAt h hs hne, ?_⟩
  rintro a b rfl hplace
  obtain ⟨g, hg, hpiece, hconditionals, htext⟩ := exists_fragment hs
  obtain ⟨f, m, rfl, hf, hm⟩ :=
    hplace.exists_fragmentBeginsAt (h.of_append hplace.inCode) hpiece htext hne
  obtain ⟨g', hg', hopen⟩ := hf.exists_conditionals o
  rw [← List.append_assoc, hg] at hg'
  obtain rfl := Option.some.inj hg'
  have hs' : s.conditionals = openBehind o f := hconditionals.trans hopen
  refine ⟨f, m, rfl, hf, hs', hm, fun hnone => ?_⟩
  rw [hs', openBehind, openBehind, applied_append hf.inCode, List.foldl_append,
    ConditionStack.foldl_advance_of_conditionals_eq_nil _ hnone]

/-- An instantiation in a region that opens behind an `endtask` carries no condition. -/
theorem conditionals_eq_openBehind_endtask :
    Directive.Alone "task t;\nendtask\n`ifdef A\nc i (a);\n`endif\n".toList ∧
      (ofBody {} "task t;\nendtask\n`ifdef A\nc i (a);\n`endif\n".toList)[1]? =
        some ⟨"c i (a)".toList, [], false⟩ ∧
      BeginsAt 1 "c i (a)".toList "task t;\nendtask\n`ifdef A\n".toList
        "c i (a);\n`endif\n".toList ∧
      openBehind {} "task t;\nendtask\n`ifdef A\n".toList = ["`ifdef A"] ∧
      ∃ f m, "task t;\nendtask\n`ifdef A\n".toList = f ++ m ∧
        FragmentBeginsAt 1 f (m ++ "c i (a);\n`endif\n".toList) ∧ openBehind {} f = [] ∧
          (m = [] ∨ afterEnd? (code m) ≠ none) := by
  have halone : Directive.Alone "task t;\nendtask\n`ifdef A\nc i (a);\n`endif\n".toList := by
    decide +kernel
  have hs : (ofBody {} "task t;\nendtask\n`ifdef A\nc i (a);\n`endif\n".toList)[1]? =
      some ⟨"c i (a)".toList, [], false⟩ := by
    decide +kernel
  have hplace : BeginsAt 1 "c i (a)".toList "task t;\nendtask\n`ifdef A\n".toList
      "c i (a);\n`endif\n".toList :=
    ⟨by decide +kernel, by decide +kernel, [], ["\n\n\n".toList], by decide +kernel, by simp⟩
  obtain ⟨f, m, hm, hf, hopen, hends, -⟩ :=
    (conditionals_eq_openBehind halone hs (by decide)).2 _ _ (by decide +kernel) hplace
  exact ⟨halone, hs, hplace, by decide +kernel, f, m, hm, hf, hopen.symm, hends⟩

end Statement

end DesignAtlas
