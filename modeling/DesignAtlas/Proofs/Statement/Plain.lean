import DesignAtlas.Proofs.Text.Pieces
import DesignAtlas.Proofs.Token.Word
import DesignAtlas.Statement

/-! # The statements of a body without directives

A body without a backtick has no directives, so its statements are the pieces between its
semicolons, and no condition is open at any of them (`ofBody_of_plain`).

The words at the front of a statement that end tasks or functions are cut off. When a text grows at
its end, they are cut off as before (`dropEnds_glue`): what is left is the old rest followed by the
new text or, when no rest was left, the new text by itself. -/

namespace DesignAtlas

open Text (Firm split)

/-! ### Pieces and fragments -/

theorem Directive.cut_of_plain : ∀ {t : Text}, '\x60' ∉ t → Directive.cut t = (t, none)
  | [], _ => rfl
  | c :: t, h => by
    rw [List.mem_cons, not_or] at h
    rw [Directive.cut, if_neg (Ne.symm h.1), Directive.cut_of_plain h.2]

theorem Piece.ofBody_of_plain : ∀ {t : Text}, '\x60' ∉ t →
    Piece.ofBody t = (t ++ ['\n']).map .char
  | [], _ => rfl
  | c :: t, h => by
    rw [List.mem_cons, not_or] at h
    have ih := Piece.ofBody_of_plain h.2
    unfold Piece.ofBody Text.lines at ih ⊢
    rw [Text.split_cons]
    split_ifs with hc
    · obtain rfl : c = '\n' := by simpa using hc
      rw [List.flatMap_cons, ih]
      rfl
    · obtain ⟨l, ls, hs⟩ := List.exists_cons_of_ne_nil (Text.split_ne_nil (· == '\n') t)
      rw [hs, List.flatMap_cons] at ih
      rw [hs, consHead, List.flatMap_cons, List.cons_append, List.map_cons, ← ih]
      simp [ofLine, Directive.cut, Ne.symm h.1]

/-- Code alone is cut at its semicolons, and the open conditions stay. -/
theorem Fragment.ofPieces_map_char (s : ConditionStack) : ∀ (t : Text)
    (begun : Option (List String)) (read : Text), begun.getD s.snapshot = s.snapshot →
      Fragment.ofPieces s begun read (t.map .char) =
        ((split (· == ';') t).modifyHead (read.reverse ++ ·)).map (⟨·, s.snapshot⟩)
  | [], begun, read, h => by simp [ofPieces, h]
  | c :: t, begun, read, h => by
    rw [List.map_cons, ofPieces, Text.split_cons]
    by_cases hc : c = ';'
    · have ih := Fragment.ofPieces_map_char s t none [] rfl
      rw [if_pos hc, if_pos (by simpa using hc), ih, h]
      cases split (· == ';') t <;> simp
    · -- the condition of the fragment under way is the one that is open anyway
      have hgrow : ∀ {b : Option (List String)}, b.getD s.snapshot = s.snapshot →
          ofPieces s b (c :: read) (t.map .char) =
            ((consHead c (split (· == ';') t)).modifyHead (read.reverse ++ ·)).map
              (⟨·, s.snapshot⟩) := by
        intro b hb
        rw [Fragment.ofPieces_map_char s t b (c :: read) hb]
        obtain ⟨l, ls, hs⟩ := List.exists_cons_of_ne_nil (Text.split_ne_nil (· == ';') t)
        simp [hs, consHead]
      have hsep : ¬ (c == ';') = true := by simpa using hc
      rw [if_neg hc, if_neg hsep]
      by_cases hb : begun.isNone && !isBlank c
      · rw [if_pos hb]
        exact hgrow rfl
      · rw [if_neg hb]
        exact hgrow h

namespace Statement

/-- The pieces of a body as fragments under no condition. -/
def fragments (ps : List Text) : List Fragment := ps.map (⟨·, []⟩)

/-- **The statements of a body without directives** are the pieces between its semicolons. -/
theorem ofBody_of_plain (o : Options) {t : Text} (h : '\x60' ∉ t) :
    ofBody o t = ofFragments 0 (fragments (split (· == ';') (t ++ ['\n']))) := by
  unfold ofBody fragments
  rw [Piece.ofBody_of_plain h,
    Fragment.ofPieces_map_char _ _ none [] rfl]
  congr 1
  cases split (· == ';') (t ++ ['\n']) <;> rfl

/-- The statement of a fragment that stands in `depth` tasks or functions. -/
def ofFragment (depth : Nat) (f : Fragment) : Statement :=
  let ends := dropEnds (Text.trim f.text)
  ⟨ends.2, f.conditionals, opensSubprogram ends.2 || decide (0 < depth - ends.1)⟩

/-- How deep in tasks and functions a fragment leaves the reading. -/
def depthBehind (depth : Nat) (f : Fragment) : Nat :=
  let ends := dropEnds (Text.trim f.text)
  if opensSubprogram ends.2 then depth - ends.1 + 1 else depth - ends.1

theorem ofFragments_cons (depth : Nat) (f : Fragment) (fs : List Fragment) :
    ofFragments depth (f :: fs) = ofFragment depth f :: ofFragments (depthBehind depth f) fs := rfl

theorem ofFragments_append : ∀ (depth : Nat) (fs gs : List Fragment),
    ofFragments depth (fs ++ gs) =
      ofFragments depth fs ++ ofFragments (fs.foldl depthBehind depth) gs
  | _, [], _ => rfl
  | depth, f :: fs, gs => by
    rw [List.cons_append, ofFragments_cons, ofFragments_cons, ofFragments_append _ fs gs,
      List.foldl_cons, List.cons_append]

/-! ### Words that end tasks and functions -/

section Glue

/-- The text `t` set behind what is left of an earlier text, with `gap` between them. -/
def glue (gap t : Text) (rest : Text) : Text := if rest = [] then t else rest ++ (gap ++ t)

variable {gap t : Text} (hgap : ∀ c ∈ gap, isBlank c = true) (hne : gap ≠ [])
  (ht : ∃ c ∈ t.head?, isBlank c = false ∧ c ≠ ':')

theorem glue_of_ne {rest : Text} (h : rest ≠ []) : glue gap t rest = rest ++ (gap ++ t) :=
  if_neg h

include hgap ht in
theorem trimStart_append_glue {r : Text} (hr : Firm r) :
    Text.trimStart (r ++ (gap ++ t)) = glue gap t (Text.trimStart r) := by
  obtain ⟨c, hc, hb, -⟩ := ht
  obtain ⟨u, rfl⟩ := List.head?_eq_some_iff.mp hc
  unfold Text.trimStart glue
  by_cases hrn : r = []
  · subst hrn
    rw [List.nil_append, List.dropWhile_append_of_pos hgap, List.dropWhile_nil, if_pos rfl,
      List.dropWhile_cons_of_neg (by simp [hb])]
  · rw [if_neg (hr.dropWhile_ne_nil hrn), List.dropWhile_append,
      if_neg (by simpa using hr.dropWhile_ne_nil hrn)]

include hgap hne in
/-- A blank ends every run of characters that are not blank. -/
theorem dropWhile_append_gap {p : Char → Bool} (hp : ∀ c, isBlank c = true → p c = false)
    (r : Text) : (r ++ (gap ++ t)).dropWhile p = r.dropWhile p ++ (gap ++ t) := by
  obtain ⟨c, g, rfl⟩ := List.exists_cons_of_ne_nil hne
  exact Text.dropWhile_append_cons (hp c (hgap c List.mem_cons_self)) (g ++ t) r

include hgap hne in
theorem firstWord_append_gap (r : Text) : firstWord (r ++ (gap ++ t)) = firstWord r := by
  obtain ⟨c, g, rfl⟩ := List.exists_cons_of_ne_nil hne
  have hstop : (!isBlank c) = false := by rw [hgap c List.mem_cons_self]; rfl
  exact congrArg String.ofList (Text.takeWhile_append_cons hstop (g ++ t) r)

theorem firm_dropLabel {r : Text} (h : Firm r) : Firm (dropLabel r) := by
  unfold dropLabel
  split
  · rename_i r
    have hr : Firm r := h.of_append (t := [':'])
    exact (hr.trimStart.dropWhile isWordChar).trimStart
  · exact h

include hgap hne ht in
theorem dropLabel_glue {r : Text} (hr : Firm r) :
    dropLabel (glue gap t r) = glue gap t (dropLabel r) := by
  rcases r with _ | ⟨c, r⟩
  · obtain ⟨c, hc, -, hcolon⟩ := ht
    obtain ⟨u, rfl⟩ := List.head?_eq_some_iff.mp hc
    simp [glue, dropLabel, hcolon]
  rw [glue_of_ne (List.cons_ne_nil c r), List.cons_append]
  by_cases hc : c = ':'
  · subst hc
    have hfirm : Firm r := hr.of_append (t := [':'])
    have hrn : r ≠ [] := by
      rintro rfl
      exact (hr ':' (by simp)).2 rfl
    have hstart : Text.trimStart r ≠ [] := hfirm.dropWhile_ne_nil hrn
    have hlabel : Firm ((Text.trimStart r).dropWhile isWordChar) :=
      hfirm.trimStart.dropWhile isWordChar
    rw [dropLabel, dropLabel, trimStart_append_glue hgap ht hfirm, glue_of_ne hstart,
      dropWhile_append_gap hgap hne fun c => isWordChar_of_isBlank,
      trimStart_append_glue hgap ht hlabel]
  · have hkeep : ∀ u : Text, dropLabel (c :: u) = c :: u := by
      intro u
      unfold dropLabel
      split
      · rename_i h
        exact absurd (List.cons.inj h).1 hc
      · rfl
    rw [hkeep, hkeep, glue_of_ne (List.cons_ne_nil c r), List.cons_append]

theorem firm_afterEnd? {f r : Text} (hf : Firm f) (h : afterEnd? f = some r) : Firm r := by
  unfold afterEnd? at h
  split at h
  · obtain rfl := Option.some.inj h
    exact firm_dropLabel (hf.dropWhile _).trimStart
  · cases h

include hgap hne ht in
theorem afterEnd?_append_glue {f : Text} (hf : Firm f) :
    afterEnd? (f ++ (gap ++ t)) = (afterEnd? f).map (glue gap t) := by
  unfold afterEnd?
  rw [firstWord_append_gap hgap hne]
  split_ifs
  · have hrest : Firm (f.dropWhile fun c => !isBlank c) := hf.dropWhile _
    rw [dropWhile_append_gap hgap hne fun c h => by simp [h],
      trimStart_append_glue hgap ht hrest, dropLabel_glue hgap hne ht hrest.trimStart]
    rfl
  · rfl

theorem dropEnds_of_none {f : Text} (h : afterEnd? f = none) : dropEnds f = (0, f) := by
  rw [dropEnds]
  split <;> simp_all

@[simp] theorem dropEnds_nil : dropEnds [] = (0, []) := dropEnds_of_none rfl

theorem dropEnds_of_some {f r : Text} (h : afterEnd? f = some r) :
    dropEnds f = ((dropEnds r).1 + 1, (dropEnds r).2) := by
  rw [dropEnds]
  split <;> simp_all

theorem firm_dropEnds {f : Text} (hf : Firm f) : Firm (dropEnds f).2 := by
  fun_induction dropEnds f with
  | case1 f h => exact hf
  | case2 f r h ih => exact ih (firm_afterEnd? hf h)

include hgap hne ht in
/-- **Words that end tasks and functions are cut off alike** when more text follows. -/
theorem dropEnds_glue (hte : afterEnd? t = none) {f : Text} (hf : Firm f) :
    (dropEnds (glue gap t f)).2 = glue gap t (dropEnds f).2 := by
  -- by the words that are cut off: behind each of them stands a rest or the new text
  fun_induction dropEnds f with
  | case1 f h =>
    by_cases hn : f = []
    · subst hn
      rw [glue, if_pos rfl, dropEnds_of_none hte]
    · have hnone : afterEnd? (f ++ (gap ++ t)) = none := by
        rw [afterEnd?_append_glue hgap hne ht hf, h]
        rfl
      rw [glue_of_ne hn, dropEnds_of_none hnone]
  | case2 f r h ih =>
    have hn : f ≠ [] := by
      rintro rfl
      simp [afterEnd?, firstWord] at h
    have hsome : afterEnd? (f ++ (gap ++ t)) = some (glue gap t r) := by
      rw [afterEnd?_append_glue hgap hne ht hf, h]
      rfl
    rw [glue_of_ne hn, dropEnds_of_some hsome]
    exact ih (firm_afterEnd? hf h)

end Glue

end Statement

end DesignAtlas
