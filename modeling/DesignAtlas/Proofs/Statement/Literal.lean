import DesignAtlas.Proofs.Condition.Depth
import DesignAtlas.Proofs.Statement.Directives
import DesignAtlas.Proofs.Token.Literal

/-! # String literals and the directives of a body

Directives are searched for in the lines of a body, inside string literals too. A content without
directives (`Text.Mute`) in the place of another one leaves the directives where they are: the
literal is code, or stands behind a directive of its line (`Piece.ofBody_literal`). So the
directives of both bodies have the same names, and the same ones are reported
(`Statement.bodyDiagnostics_literal`). -/

namespace DesignAtlas

open Text (literal)

/-- The text can stand between quotes in a line and holds no directive. -/
structure Text.Mute (c : Text) : Prop extends Text.Quotable c where
  directive : (Directive.cut c).2 = none

instance (c : Text) : Decidable c.Mute :=
  decidable_of_iff (c.Quotable ∧ (Directive.cut c).2 = none)
    ⟨fun h => ⟨h.1, h.2⟩, fun h => ⟨h.1, h.2⟩⟩

/-! ### The line of a literal -/

/-- The lines around a text that is a part of one line. -/
theorem Text.exists_lines_around (a z : Text) : ∃ ps x y qs, ∀ l : Text, '\n' ∉ l →
    lines (a ++ l ++ z) = ps ++ (x ++ l ++ y) :: qs := by
  obtain ⟨ps, hps⟩ := exists_split_append (· == '\n') a
  obtain ⟨y, qs, hlines, hz⟩ := exists_lines z
  have hy : ∀ c ∈ y, (c == '\n') = false :=
    sep_of_mem_split (t := z) (by rw [← lines, hlines]; exact List.mem_cons_self)
  have hfront : ∀ l : Text, '\n' ∉ l →
      lines (a ++ l ++ y) = ps ++ [a.rtakeWhile (fun c => !(c == '\n')) ++ l ++ y] := by
    intro l hl
    rw [lines, List.append_assoc, hps, List.append_assoc]
    intro c hc
    rcases List.mem_append.mp hc with hc | hc
    · simp only [beq_eq_false_iff_ne]
      rintro rfl
      exact hl hc
    · exact hy c hc
  refine ⟨ps, a.rtakeWhile fun c => !(c == '\n'), y, qs, fun l hl => ?_⟩
  rcases hz with ⟨rfl, rfl⟩ | ⟨u, rfl, rfl⟩
  · exact hfront l hl
  · have := hfront l hl
    rw [← List.append_assoc, lines, split_append_sep (by rfl), ← lines, this, List.append_assoc]
    rfl

namespace Directive

theorem name_ofText? (t : Text) : (ofText? t).map Directive.name =
    (extent? (String.ofList (t.takeWhile isDirectiveChar))).map fun _ =>
      String.ofList (t.takeWhile isDirectiveChar) := by
  unfold ofText?
  dsimp only
  split <;> simp_all

/-- A character that is in no name ends the name of a directive. -/
theorem name_ofText?_append_cons {c : Char} (hc : isDirectiveChar c = false) (t u : Text) :
    (ofText? (t ++ c :: u)).map Directive.name = (ofText? t).map Directive.name := by
  rw [name_ofText?, name_ofText?, Text.takeWhile_append_cons hc]

theorem cut_cons_of_ne {d : Char} (h : d ≠ '\x60') (t : Text) :
    cut (d :: t) = (d :: (cut t).1, (cut t).2) := by
  rw [cut, if_neg h]

theorem cut_backtick_of_none {t : Text} (h : ofText? t = none) :
    cut ('\x60' :: t) = ('\x60' :: (cut t).1, (cut t).2) := by
  rw [cut, if_pos rfl, h]

theorem cut_backtick_of_some {t : Text} {d : Directive} (h : ofText? t = some d) :
    cut ('\x60' :: t) = ([], some d) := by
  rw [cut, if_pos rfl, h]

/-- A text without a directive is no part of one when a character follows it that is in none. -/
theorem cut_append_cons {c : Char} (hc : isDirectiveChar c = false) (hne : c ≠ '\x60') (u : Text) :
    ∀ {t : Text}, (cut t).2 = none → cut (t ++ c :: u) = (t ++ c :: (cut u).1, (cut u).2)
  | [], _ => cut_cons_of_ne hne u
  | d :: t, h => by
    rw [List.cons_append]
    by_cases hd : d = '\x60'
    · subst hd
      cases ho : ofText? t with
      | some e =>
        rw [cut_backtick_of_some ho] at h
        cases h
      | none =>
        have hnone : ofText? (t ++ c :: u) = none := by
          rw [← Option.map_eq_none_iff, name_ofText?_append_cons hc, ho]
          rfl
        rw [cut_backtick_of_none ho] at h
        rw [cut_backtick_of_none hnone, cut_append_cons hc hne u h]
        rfl
    · rw [cut_cons_of_ne hd] at h
      rw [cut_cons_of_ne hd, cut_append_cons hc hne u h]
      rfl

/-- **The line of a literal** is cut behind the literal, if at all, or before it at the same place
for every content. -/
theorem cut_literal (y : Text) : ∀ x : Text,
    (∃ rest d, ∀ c, Text.Mute c → cut (x ++ literal c ++ y) = (x ++ literal c ++ rest, d)) ∨
      ∃ code name, ∀ c, ∃ argument, cut (x ++ literal c ++ y) = (code, some ⟨name, argument⟩)
  | [] => by
    refine Or.inl ⟨(cut y).1, (cut y).2, fun c hc => ?_⟩
    have hquote := cut_append_cons (c := '\x22') (by decide) (by decide) y hc.directive
    have htext : [] ++ literal c ++ y = '\x22' :: (c ++ '\x22' :: y) := by simp [literal]
    rw [htext, cut_cons_of_ne (by decide), hquote]
    simp [literal]
  | d :: x => by
    have ih := cut_literal y x
    have htext : ∀ c : Text, x ++ literal c ++ y = x ++ '\x22' :: (c ++ '\x22' :: y) := fun c => by
      simp [literal]
    have hpass : (∀ c : Text, cut (d :: (x ++ literal c ++ y)) =
        (d :: (cut (x ++ literal c ++ y)).1, (cut (x ++ literal c ++ y)).2)) →
        (∃ rest e, ∀ c, Text.Mute c →
          cut (d :: x ++ literal c ++ y) = (d :: x ++ literal c ++ rest, e)) ∨
          ∃ code name, ∀ c, ∃ argument,
            cut (d :: x ++ literal c ++ y) = (code, some ⟨name, argument⟩) := by
      intro hcut
      rcases ih with ⟨rest, e, h⟩ | ⟨code, name, h⟩
      · refine Or.inl ⟨rest, e, fun c hc => ?_⟩
        rw [List.cons_append, List.cons_append, hcut, h c hc]
        rfl
      · refine Or.inr ⟨d :: code, name, fun c => ?_⟩
        obtain ⟨argument, hc⟩ := h c
        refine ⟨argument, ?_⟩
        rw [List.cons_append, List.cons_append, hcut, hc]
    by_cases hd : d = '\x60'
    · subst hd
      cases hx : ofText? x with
      | none =>
        refine hpass fun c => cut_backtick_of_none ?_
        rw [htext, ← Option.map_eq_none_iff, name_ofText?_append_cons (by decide), hx]
        rfl
      | some e =>
        refine Or.inr ⟨[], e.name, fun c => ?_⟩
        have hname := name_ofText?_append_cons (c := '\x22') (by decide) x (c ++ '\x22' :: y)
        rw [← htext, hx, Option.map_some] at hname
        obtain ⟨e', he', hsame⟩ := Option.map_eq_some_iff.mp hname
        refine ⟨e'.argument, ?_⟩
        rw [List.cons_append, List.cons_append, cut_backtick_of_some he', ← hsame]
    · exact hpass fun c => cut_cons_of_ne hd _

end Directive

/-! ### The pieces of a body -/

/-- **A literal in a body** is code, or stands behind a directive of which it may be the argument.
-/
theorem Piece.ofBody_literal (a z : Text) :
    (∃ ps qs, ∀ c, Text.Mute c →
      ofBody (a ++ literal c ++ z) = ps ++ ((literal c).map .char ++ qs)) ∨
      ∃ ps qs name, ∀ c, Text.Mute c → ∃ argument,
        ofBody (a ++ literal c ++ z) = ps ++ .directive ⟨name, argument⟩ :: qs := by
  obtain ⟨before, x, y, behind, hlines⟩ := Text.exists_lines_around a z
  have hnewline : ∀ {c : Text}, Text.Mute c → '\n' ∉ literal c := by
    intro c hc hmem
    simp only [literal, List.mem_cons, List.mem_append, List.not_mem_nil, or_false] at hmem
    rcases hmem with h | h | h
    · cases h
    · exact hc.newline h
    · cases h
  have hbody : ∀ {c : Text}, Text.Mute c → ofBody (a ++ literal c ++ z) =
      before.flatMap ofLine ++ (ofLine (x ++ literal c ++ y) ++ behind.flatMap ofLine) := by
    intro c hc
    rw [ofBody, hlines _ (hnewline hc), List.flatMap_append, List.flatMap_cons]
  rcases Directive.cut_literal y x with ⟨rest, d, hcut⟩ | ⟨code, name, hcut⟩
  · refine Or.inl ⟨before.flatMap ofLine ++ x.map .char, rest.map .char ++
      (.char '\n' :: ((d.map Piece.directive).toList ++ behind.flatMap ofLine)), fun c hc => ?_⟩
    rw [hbody hc, ofLine, hcut c hc]
    simp
  · refine Or.inr ⟨before.flatMap ofLine ++ (code.map .char ++ [.char '\n']),
      behind.flatMap ofLine, name, fun c hc => ?_⟩
    obtain ⟨argument, hc'⟩ := hcut c
    refine ⟨argument, ?_⟩
    rw [hbody hc, ofLine, hc']
    simp

/-! ### The directives of a body -/

/-- Directives of the same names are rejected alike. -/
theorem ConditionStack.map_name_rejected : ∀ {s s' : ConditionStack} {ds ds' : List Directive},
    s'.depth = s.depth → ds'.map Directive.name = ds.map Directive.name →
      (s'.rejected ds').map Directive.name = (s.rejected ds).map Directive.name
  | _, _, [], ds', _, h => by
    rw [List.map_nil, List.map_eq_nil_iff] at h
    rw [h]
    rfl
  | s, s', d :: ds, ds', hdepth, h => by
    obtain ⟨d', ds', rfl, hd, hds⟩ := List.map_eq_cons_iff.mp h
    have hbehind : (s'.advance d').depth = (s.advance d).depth := by
      rw [depth_advance, depth_advance, hd, hdepth]
    have ih := map_name_rejected hbehind hds
    have hrejects : s'.rejects d' = s.rejects d := by rw [rejects_eq, rejects_eq, hd, hdepth]
    rw [rejected, rejected, hrejects]
    split_ifs
    · rw [List.map_cons, List.map_cons, hd, ih]
    · exact ih

namespace Statement

/-- **Another content of a literal leaves the directives of a body**, but for the argument of one.
-/
theorem map_name_applied {c c' : Text} (hc : Text.Mute c) (hc' : Text.Mute c') (a z : Text) :
    (applied (a ++ literal c' ++ z)).map Directive.name =
      (applied (a ++ literal c ++ z)).map Directive.name := by
  have hcode : ∀ t : Text, (t.map Piece.char).filterMap Piece.directive? = [] := fun t => by
    rw [List.filterMap_map, List.filterMap_eq_nil_iff]
    exact fun _ _ => rfl
  unfold applied
  rcases Piece.ofBody_literal a z with ⟨ps, qs, h⟩ | ⟨ps, qs, name, h⟩
  · rw [h c hc, h c' hc']
    simp only [List.filterMap_append, hcode]
  · obtain ⟨_, h1⟩ := h c hc
    obtain ⟨_, h2⟩ := h c' hc'
    rw [h1, h2]
    simp [List.filterMap_append, Piece.directive?]

/-- **Another content of a literal reports the same directives.** -/
theorem bodyDiagnostics_literal {c c' : Text} (hc : Text.Mute c) (hc' : Text.Mute c') (a z : Text)
    (module : String) (o : Options) :
    bodyDiagnostics module o (a ++ literal c' ++ z) =
      bodyDiagnostics module o (a ++ literal c ++ z) := by
  have hnames := @ConditionStack.map_name_rejected (.empty o.elsePolicy) (.empty o.elsePolicy) _ _
    rfl (map_name_applied hc hc' a z)
  have hmap : ∀ ds : List Directive,
      ds.map (fun d => (⟨.unbalancedEndif, module, "`" ++ d.name⟩ : Diagnostic)) =
        (ds.map Directive.name).map fun n => ⟨.unbalancedEndif, module, "`" ++ n⟩ := fun ds => by
    rw [List.map_map]
    rfl
  rw [bodyDiagnostics_eq, bodyDiagnostics_eq, hmap, hmap, hnames]

end Statement

end DesignAtlas
