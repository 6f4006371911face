import DesignAtlas.Proofs.Statement.Literal
import DesignAtlas.Proofs.Statement.Plain

/-! # String literals in statements

A body is cut at its semicolons, inside string literals too. A content without semicolons and
directives (`Text.Inert`) in the place of another one leaves the cuts where they are: the literal
stands in one fragment (`Fragment.exists_ofPieces_literal`), of which the words that end tasks and
functions are cut off alike (`Statement.exists_ofFragment_literal`). So the statements of the two
bodies correspond one to one and differ at most in the literal (`Statement.forall₂_ofBody`). -/

namespace DesignAtlas

open List (Forall₂)
open Text (literal)

/-- The text can stand between quotes in a line without cutting a body: it holds no directive and no
semicolon. -/
structure Text.Inert (c : Text) : Prop extends Text.Mute c where
  semicolon : ';' ∉ c

/-! ### The fragments of a body -/

/-- The character that a piece is. -/
def Piece.char? : Piece → Option Char
  | .char c => some c
  | .directive _ => none

theorem ConditionStack.advance_of_not_conditional {d : Directive}
    (hd : ¬ d.isConditional = true) (s : ConditionStack) : s.advance d = s := by
  rw [advance, apply_of_not_conditional (by simpa using hd)]

namespace Fragment

/-- A character of code that is no semicolon belongs to the fragment under way. -/
theorem exists_ofPieces_char {c : Char} (hc : c ≠ ';') (s : ConditionStack)
    (begun : Option (List String)) (read : Text) : ∃ begun', ∀ ps,
      ofPieces s begun read (.char c :: ps) = ofPieces s begun' (c :: read) ps := by
  by_cases hb : (begun.isNone && !isBlank c) = true
  · exact ⟨some s.snapshot, fun ps => by rw [ofPieces, if_neg hc, if_pos hb]⟩
  · exact ⟨begun, fun ps => by rw [ofPieces, if_neg hc, if_neg hb]⟩

/-- Code without semicolons goes on with the fragment under way. -/
theorem ofPieces_of_code (s : ConditionStack) (k : List String) (qs : List Piece) :
    ∀ (t read : Text), ';' ∉ t →
      ofPieces s (some k) read (t.map .char ++ qs) = ofPieces s (some k) (t.reverse ++ read) qs
  | [], _, _ => rfl
  | c :: t, read, h => by
    rw [List.mem_cons, not_or] at h
    rw [List.map_cons, List.cons_append, ofPieces, if_neg (Ne.symm h.1), if_neg (by simp),
      ofPieces_of_code s k qs t _ h.2, List.reverse_cons, List.append_assoc, List.singleton_append]

/-- What has been read of a fragment that has begun stands in front of the rest of it. -/
theorem exists_ofPieces_begun (k : List String) : ∀ (ps : List Piece) (s : ConditionStack),
    ∃ v gs, ∀ read, ofPieces s (some k) read ps = ⟨read.reverse ++ v, k⟩ :: gs
  | [], s => ⟨[], [], fun read => by rw [ofPieces, List.append_nil, Option.getD_some]⟩
  | .directive d :: ps, s => exists_ofPieces_begun k ps (s.advance d)
  | .char c :: ps, s => by
    by_cases hc : c = ';'
    · refine ⟨[], ofPieces s none [] ps, fun read => ?_⟩
      rw [ofPieces, if_pos hc, List.append_nil, Option.getD_some]
    · obtain ⟨v, gs, h⟩ := exists_ofPieces_begun k ps s
      refine ⟨c :: v, gs, fun read => ?_⟩
      rw [ofPieces, if_neg hc, if_neg (by simp), h, List.reverse_cons, List.append_assoc,
        List.singleton_append]

/-- **A literal without semicolons** stands in one fragment, the same for every content. -/
theorem exists_ofPieces_literal (qs : List Piece) : ∀ (ps : List Piece) (s : ConditionStack)
    (begun : Option (List String)) (read : Text), ∃ fs u v k gs, ∀ c : Text, ';' ∉ c →
      ofPieces s begun read (ps ++ ((literal c).map .char ++ qs)) =
        fs ++ ⟨u ++ literal c ++ v, k⟩ :: gs
  | [], s, begun, read => by
    -- the quote begins a fragment, unless one is under way
    obtain ⟨v, gs, h⟩ := exists_ofPieces_begun (begun.getD s.snapshot) qs s
    refine ⟨[], read.reverse, v, begun.getD s.snapshot, gs, fun c hc => ?_⟩
    have hbegin : ofPieces s begun read ((literal c).map .char ++ qs) =
        ofPieces s (some (begun.getD s.snapshot)) read ((literal c).map .char ++ qs) := by
      have hquote : isBlank '\x22' = false := by decide
      cases begun <;> simp [literal, ofPieces, hquote]
    have hsemicolon : ';' ∉ literal c := by simp [literal, hc]
    rw [List.nil_append, hbegin, ofPieces_of_code s _ qs _ _ hsemicolon, h]
    simp
  | .directive d :: ps, s, begun, read => exists_ofPieces_literal qs ps (s.advance d) begun read
  | .char e :: ps, s, begun, read => by
    by_cases he : e = ';'
    · obtain ⟨fs, u, v, k, gs, h⟩ := exists_ofPieces_literal qs ps s none []
      refine ⟨⟨read.reverse, begun.getD s.snapshot⟩ :: fs, u, v, k, gs, fun c hc => ?_⟩
      rw [List.cons_append, ofPieces, if_pos he, h c hc, List.cons_append]
    · obtain ⟨begun', hread⟩ := exists_ofPieces_char he s begun read
      obtain ⟨fs, u, v, k, gs, h⟩ := exists_ofPieces_literal qs ps s begun' (e :: read)
      refine ⟨fs, u, v, k, gs, fun c hc => ?_⟩
      rw [List.cons_append, hread, h c hc]

/-- **The texts of fragments** are the code between the semicolons. -/
theorem map_text_ofPieces : ∀ (ps : List Piece) (s : ConditionStack)
    (begun : Option (List String)) (read : Text), (ofPieces s begun read ps).map text =
      (Text.split (· == ';') (ps.filterMap Piece.char?)).modifyHead (read.reverse ++ ·)
  | [], s, begun, read => by simp [ofPieces]
  | .directive d :: ps, s, begun, read => map_text_ofPieces ps (s.advance d) begun read
  | .char c :: ps, s, begun, read => by
    have hchar : (Piece.char c :: ps).filterMap Piece.char? = c :: ps.filterMap Piece.char? := rfl
    obtain ⟨l, ls, hl⟩ :=
      List.exists_cons_of_ne_nil (Text.split_ne_nil (· == ';') (ps.filterMap Piece.char?))
    rw [hchar, Text.split_cons, ofPieces]
    by_cases hc : c = ';'
    · rw [if_pos hc, if_pos (by simpa using hc), List.map_cons, map_text_ofPieces, hl]
      simp
    · have hsep : ¬ (c == ';') = true := by simpa using hc
      rw [if_neg hc, if_neg hsep]
      split_ifs <;> rw [map_text_ofPieces, hl] <;> simp [consHead]

/-- A directive that is no conditional one cuts nothing. -/
theorem ofPieces_directive {d : Directive} (hd : ¬ d.isConditional = true) (qs : List Piece) :
    ∀ (ps : List Piece) (s : ConditionStack) (begun : Option (List String)) (read : Text),
      ofPieces s begun read (ps ++ .directive d :: qs) = ofPieces s begun read (ps ++ qs)
  | [], s, begun, read => by
    rw [List.nil_append, List.nil_append, ofPieces, ConditionStack.advance_of_not_conditional hd]
  | .directive e :: ps, s, begun, read => ofPieces_directive hd qs ps (s.advance e) begun read
  | .char c :: ps, s, begun, read => by
    rw [List.cons_append, List.cons_append, ofPieces, ofPieces]
    split_ifs
    · rw [ofPieces_directive hd qs ps]
    · exact ofPieces_directive hd qs ps ..
    · exact ofPieces_directive hd qs ps ..

end Fragment

/-! ### The words at the front of a statement -/

namespace Statement

/-- A word without quotes at the front of a text ends before a literal. -/
theorem firstWord_quote {word : String} (hword : '\x22' ∉ word.toList) (x w : Text) :
    firstWord (x ++ '\x22' :: w) = word ↔
      (∃ b ∈ x, isBlank b = true) ∧ firstWord x = word := by
  by_cases hx : ∃ b ∈ x, isBlank b = true
  · obtain ⟨b, hb, hblank⟩ := hx
    obtain ⟨u, v, rfl⟩ := List.append_of_mem hb
    have hstop : (!isBlank b) = false := by rw [hblank, Bool.not_true]
    have hfirst : firstWord (u ++ b :: v ++ '\x22' :: w) = firstWord (u ++ b :: v) := by
      unfold firstWord
      rw [List.append_assoc, List.cons_append, Text.takeWhile_append_cons hstop,
        Text.takeWhile_append_cons hstop]
    rw [hfirst]
    exact (and_iff_right ⟨b, hb, hblank⟩).symm
  · refine iff_of_false (fun h => hword ?_) fun h => hx h.1
    have hall : ∀ b ∈ x, (!isBlank b) = true := fun b hb => by
      rw [Bool.not_eq_true']
      exact Bool.not_eq_true _ ▸ fun hblank => hx ⟨b, hb, hblank⟩
    have hquote : (!isBlank '\x22') = true := by decide
    rw [← h, firstWord, String.toList_ofList, List.takeWhile_append_of_pos hall,
      List.takeWhile_cons_of_pos (p := fun c => !isBlank c) hquote]
    simp

theorem trimStart_quote (x w : Text) :
    Text.trimStart (x ++ '\x22' :: w) = Text.trimStart x ++ '\x22' :: w :=
  Text.dropWhile_append_cons (by decide) w x

theorem dropLabel_quote (x w : Text) :
    dropLabel (x ++ '\x22' :: w) = dropLabel x ++ '\x22' :: w := by
  rcases x with _ | ⟨d, x⟩
  · rfl
  · by_cases hd : d = ':'
    · subst hd
      rw [List.cons_append, dropLabel, dropLabel, trimStart_quote,
        Text.dropWhile_append_cons (by decide), trimStart_quote]
    · have hkeep : ∀ u : Text, dropLabel (d :: u) = d :: u := by
        intro u
        unfold dropLabel
        split
        · rename_i h
          exact absurd (List.cons.inj h).1 hd
        · rfl
      rw [List.cons_append, hkeep, hkeep, List.cons_append]

/-- A word that ends a task or function is cut off before a literal, the same for every content. -/
theorem exists_afterEnd?_quote (x : Text) : ∃ r : Option Text, ∀ w,
    afterEnd? (x ++ '\x22' :: w) = r.map (· ++ '\x22' :: w) := by
  have hends : ∀ w, (firstWord (x ++ '\x22' :: w) = "endtask" ∨
      firstWord (x ++ '\x22' :: w) = "endfunction") ↔
        (∃ b ∈ x, isBlank b = true) ∧ (firstWord x = "endtask" ∨ firstWord x = "endfunction") := by
    intro w
    rw [firstWord_quote (by decide), firstWord_quote (by decide), ← and_or_left]
  by_cases hx : (∃ b ∈ x, isBlank b = true) ∧
      (firstWord x = "endtask" ∨ firstWord x = "endfunction")
  · refine ⟨some (dropLabel (Text.trimStart (x.dropWhile fun c => !isBlank c))), fun w => ?_⟩
    obtain ⟨⟨b, hb, hblank⟩, -⟩ := id hx
    obtain ⟨u, v, rfl⟩ := List.append_of_mem hb
    have hstop : (!isBlank b) = false := by rw [hblank, Bool.not_true]
    have hdrop : (u ++ b :: v ++ '\x22' :: w).dropWhile (fun c => !isBlank c) =
        (u ++ b :: v).dropWhile (fun c => !isBlank c) ++ '\x22' :: w := by
      rw [List.append_assoc, List.cons_append, Text.dropWhile_append_cons hstop,
        Text.dropWhile_append_cons hstop, List.append_assoc, List.cons_append]
    rw [afterEnd?, if_pos ((hends w).mpr hx), hdrop, trimStart_quote, dropLabel_quote,
      Option.map_some]
  · refine ⟨none, fun w => ?_⟩
    rw [afterEnd?, if_neg fun h => hx ((hends w).mp h), Option.map_none]

theorem exists_dropEnds_quote (x : Text) : ∃ n y, ∀ w,
    dropEnds (x ++ '\x22' :: w) = (n, y ++ '\x22' :: w) := by
  obtain ⟨r, h⟩ := exists_afterEnd?_quote x
  cases r with
  | none => exact ⟨0, x, fun w => dropEnds_of_none (h w)⟩
  | some r =>
    have hlength : r.length < x.length := by
      have := length_afterEnd?_lt (h [])
      simpa using this
    obtain ⟨n, y, hr⟩ := exists_dropEnds_quote r
    refine ⟨n + 1, y, fun w => ?_⟩
    rw [dropEnds_of_some (h w), hr]
  termination_by x.length

/-- **The statement of a literal** and the depth behind it are the same for every content. -/
theorem exists_ofFragment_literal (depth : Nat) (u v : Text) (k : List String) :
    ∃ x y sub below, ∀ c,
      ofFragment depth ⟨u ++ literal c ++ v, k⟩ = ⟨x ++ literal c ++ y, k, sub⟩ ∧
        depthBehind depth ⟨u ++ literal c ++ v, k⟩ = below := by
  have htrim : ∀ c, Text.trim (u ++ literal c ++ v) =
      Text.trimStart u ++ '\x22' :: (c ++ '\x22' :: Text.trimEnd v) := by
    intro c
    have hfront : u ++ literal c ++ v = u ++ '\x22' :: (c ++ '\x22' :: v) := by simp [literal]
    have hback : (Text.trimStart u ++ '\x22' :: (c ++ '\x22' :: v)).reverse =
        v.reverse ++ '\x22' :: (Text.trimStart u ++ '\x22' :: c).reverse := by simp
    rw [Text.trim, hfront, trimStart_quote, Text.trimEnd, hback,
      Text.dropWhile_append_cons (by decide)]
    simp [Text.trimEnd]
  obtain ⟨n, y, hends⟩ := exists_dropEnds_quote (Text.trimStart u)
  have hopens : ∃ opens, ∀ w, opensSubprogram (y ++ '\x22' :: w) = opens := by
    refine ⟨decide ((∃ b ∈ y, isBlank b = true) ∧ (firstWord y = "task" ∨
      firstWord y = "function")), fun w => ?_⟩
    rw [opensSubprogram, Bool.eq_iff_iff, Bool.or_eq_true, beq_iff_eq, beq_iff_eq,
      firstWord_quote (by decide), firstWord_quote (by decide), ← and_or_left, decide_eq_true_iff]
  obtain ⟨opens, hopens⟩ := hopens
  refine ⟨y, Text.trimEnd v, opens || decide (0 < depth - n),
    if opens then depth - n + 1 else depth - n, fun c => ⟨?_, ?_⟩⟩
  · simp only [ofFragment, htrim, hends, hopens]
    simp [literal]
  · simp only [depthBehind, htrim, hends, hopens]

/-! ### The statements of a body -/

/-- The bodies apply the same conditional directives. -/
def SameConditions (body body' : Text) : Prop :=
  Directive.conditionals (applied body') = Directive.conditionals (applied body)

instance (body body' : Text) : Decidable (SameConditions body body') :=
  inferInstanceAs (Decidable (_ = _))

/-- The statements stand alike and differ at most in the content of one literal; where `K` holds,
their conditions are the same. -/
structure Requoted (K : Prop) (c c' : Text) (s s' : Statement) : Prop where
  text : Text.Requoted c c' s.text s'.text
  inSubprogram : s'.inSubprogram = s.inSubprogram
  conditionals : K → s'.conditionals = s.conditionals

theorem Requoted.refl (K : Prop) (c c' : Text) (s : Statement) : Requoted K c c' s s :=
  ⟨Or.inl rfl, rfl, fun _ => rfl⟩

/-- Fragments of the same texts make statements that differ at most in their conditions. -/
theorem forall₂_ofFragments (c c' : Text) : ∀ {fs fs' : List Fragment} (depth : Nat),
    fs'.map Fragment.text = fs.map Fragment.text →
      Forall₂ (Requoted False c c') (ofFragments depth fs) (ofFragments depth fs')
  | [], fs', _, h => by
    rw [List.map_nil, List.map_eq_nil_iff] at h
    rw [h]
    exact .nil
  | f :: fs, fs', depth, h => by
    obtain ⟨f', fs', rfl, hf, hfs⟩ := List.map_eq_cons_iff.mp h
    have hbelow : depthBehind depth f' = depthBehind depth f := by
      rw [depthBehind, depthBehind, hf]
    have ih := forall₂_ofFragments c c' (depthBehind depth f) hfs
    rw [ofFragments_cons, ofFragments_cons, hbelow]
    refine .cons ⟨Or.inl ?_, ?_, False.elim⟩ ih
    · rw [ofFragment, ofFragment, hf]
    · rw [ofFragment, ofFragment, hf]

/-- Directives that differ in the argument of one: the conditional ones are the same only if this is
no conditional directive, or has the same argument. -/
theorem eq_or_of_conditionals {ps qs : List Piece} {name argument argument' : String}
    (h : Directive.conditionals ((ps ++ .directive ⟨name, argument'⟩ :: qs).filterMap
        Piece.directive?) =
      Directive.conditionals ((ps ++ .directive ⟨name, argument⟩ :: qs).filterMap
        Piece.directive?)) :
    argument' = argument ∨ ¬ Directive.isConditional ⟨name, argument⟩ = true ∧
      ¬ Directive.isConditional ⟨name, argument'⟩ = true := by
  by_cases hd : Directive.isConditional ⟨name, argument⟩ = true
  · have hd' : Directive.isConditional ⟨name, argument'⟩ = true := hd
    have hdirective : ∀ d, Piece.directive? (.directive d) = some d := fun _ => rfl
    simp only [Directive.conditionals, List.filterMap_append, List.filter_append,
      List.filterMap_cons, hdirective, List.filter_cons_of_pos hd, List.filter_cons_of_pos hd',
      List.append_cancel_left_eq, List.cons.injEq, Directive.mk.injEq, true_and, and_true] at h
    exact Or.inl h
  · exact Or.inr ⟨hd, hd⟩

/-- **The statements of a body with another content in a literal** correspond to its own: they
differ at most in the literal, and their conditions are the same if the conditional directives are.
-/
theorem forall₂_ofBody {c c' : Text} (hc : Text.Inert c) (hc' : Text.Inert c') (o : Options)
    (a z : Text) :
    Forall₂ (Requoted (SameConditions (a ++ literal c ++ z) (a ++ literal c' ++ z)) c c')
      (ofBody o (a ++ literal c ++ z)) (ofBody o (a ++ literal c' ++ z)) := by
  unfold SameConditions applied ofBody
  rcases Piece.ofBody_literal a z with ⟨ps, qs, h⟩ | ⟨ps, qs, name, h⟩
  · obtain ⟨fs, u, v, k, gs, hfragments⟩ := Fragment.exists_ofPieces_literal qs ps
      (ConditionStack.empty o.elsePolicy) none []
    obtain ⟨x, y, sub, below, hstatement⟩ :=
      exists_ofFragment_literal (fs.foldl depthBehind 0) u v k
    obtain ⟨hs, hbelow⟩ := hstatement c
    obtain ⟨hs', hbelow'⟩ := hstatement c'
    rw [h c hc.toMute, h c' hc'.toMute, hfragments c hc.semicolon, hfragments c' hc'.semicolon,
      ofFragments_append, ofFragments_append, ofFragments_cons, ofFragments_cons, hs, hs', hbelow,
      hbelow']
    refine List.rel_append (List.forall₂_same.mpr fun s _ => .refl _ c c' s) (.cons ?_ ?_)
    · exact ⟨Or.inr ⟨x, y, rfl, rfl⟩, rfl, fun _ => rfl⟩
    · exact List.forall₂_same.mpr fun s _ => .refl _ c c' s
  · obtain ⟨argument, h1⟩ := h c hc.toMute
    obtain ⟨argument', h2⟩ := h c' hc'.toMute
    rw [h1, h2]
    by_cases hK : Directive.conditionals ((ps ++ .directive ⟨name, argument'⟩ :: qs).filterMap
        Piece.directive?) = Directive.conditionals ((ps ++ .directive ⟨name, argument⟩ ::
          qs).filterMap Piece.directive?)
    · have hfragments : ∀ s begun read,
          Fragment.ofPieces s begun read (ps ++ .directive ⟨name, argument'⟩ :: qs) =
            Fragment.ofPieces s begun read (ps ++ .directive ⟨name, argument⟩ :: qs) := by
        intro s begun read
        rcases eq_or_of_conditionals hK with rfl | ⟨hd, hd'⟩
        · rfl
        · rw [Fragment.ofPieces_directive hd, Fragment.ofPieces_directive hd']
      rw [hfragments]
      exact List.forall₂_same.mpr fun s _ => .refl _ c c' s
    · refine (forall₂_ofFragments c c' 0 ?_).imp fun s s' hs => ⟨hs.text, hs.inSubprogram, ?_⟩
      · rw [Fragment.map_text_ofPieces, Fragment.map_text_ofPieces, List.filterMap_append,
          List.filterMap_append]
        rfl
      · exact fun hsame => absurd hsame hK

end Statement

end DesignAtlas
