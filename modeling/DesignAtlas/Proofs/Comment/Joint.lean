import DesignAtlas.Proofs.Comment.Clean
import DesignAtlas.Proofs.Token.Seam

/-! # What a block comment leaves between two texts

A block comment that is closed on its line leaves nothing behind: the two texts around it are
stripped by themselves and written one directly behind the other (`strip_blockComment`). A space in
its place is kept. So the comment separates the tokens around it as a space does exactly when the
last token before it does not run into the text behind it (`payload_strip_blockComment_iff`). -/

namespace DesignAtlas.Comment

/-- The block comment with the given content. -/
def blockComment (content : Text) : Text := '/' :: '*' :: content ++ ['*', '/']

/-! ### Where a text ends -/

instance : DecidablePred Mode.InComment
  | .line | .block _ => inferInstanceAs (Decidable True)
  | .code | .slash | .string | .escape => inferInstanceAs (Decidable False)

/-- The text ends neither in a comment nor in a string literal. -/
structure EndsOutside (t : Text) : Prop where
  comment : ¬ (modeAfter t).InComment
  literal : (modeAfter t).quoting = .outside

instance (t : Text) : Decidable (EndsOutside t) :=
  decidable_of_iff (¬ (modeAfter t).InComment ∧ (modeAfter t).quoting = .outside)
    ⟨fun h => ⟨h.1, h.2⟩, fun h => ⟨h.comment, h.literal⟩⟩

/-- Only a slash is held back. -/
theorem eq_slash_of_modeStep {m : Mode} {c : Char} (h : (modeStep m c).1 = .slash) : c = '/' := by
  have hcase := stepCase m c
  generalize (modeStep m c).2 = written at hcase
  rw [h] at hcase
  cases hcase with
  | hold => rfl
  | write _ _ _ pending => cases pending
  | drop _ _ pending => cases pending
  | newline _ pending => cases pending

theorem EndsOutside.modeAfter_eq {a : Text} (h : EndsOutside a) (hslash : a.getLast? ≠ some '/') :
    modeAfter a = .code := by
  cases hm : modeAfter a with
  | code => rfl
  | slash =>
    rcases List.eq_nil_or_concat a with rfl | ⟨a, c, rfl⟩
    · cases hm
    rw [List.concat_eq_append] at hm hslash
    rw [modeAfter, List.foldl_append] at hm
    exact absurd (by rw [List.getLast?_concat, eq_slash_of_modeStep hm]) hslash
  | line => exact absurd (hm ▸ trivial) h.comment
  | block star => exact absurd (hm ▸ trivial) h.comment
  | string => exact absurd (hm ▸ h.literal) (by decide)
  | escape => exact absurd (hm ▸ h.literal) (by decide)

/-! ### Stripping part by part -/

theorem strip_space (b : Text) : strip (' ' :: b) = ' ' :: strip b :=
  strip_append (a := [' ']) rfl b

/-- The content of a block comment is read to its end, and nothing of it is written. -/
theorem foldl_step_block : ∀ {c : Text} {star : Bool}, '\n' ∉ c → ¬ ['*', '/'] <:+: c →
    (star = true → c.head? ≠ some '/') → ∀ w : Text,
      ∃ star', c.foldl Reading.step ⟨.block star, w⟩ = ⟨.block star', w⟩
  | [], star, _, _, _, w => ⟨star, rfl⟩
  | d :: c, star, hline, hend, hstar, w => by
    rw [List.mem_cons, not_or] at hline
    have hopen : (star && d == '/') = false := by
      cases star with
      | false => rfl
      | true => simpa using hstar rfl
    have hstep : Reading.step ⟨.block star, w⟩ d = ⟨.block (d == '*'), w⟩ := by
      simp [Reading.step, modeStep, Ne.symm hline.1, hopen]
    -- a slash behind a star would end the comment
    have hnext : (d == '*') = true → c.head? ≠ some '/' := by
      intro hd hc
      obtain ⟨c, rfl⟩ := List.head?_eq_some_iff.mp hc
      obtain rfl : d = '*' := by simpa using hd
      exact hend ⟨[], c, rfl⟩
    rw [List.foldl_cons, hstep]
    exact foldl_step_block hline.2 (fun h => hend (List.infix_cons h)) hnext w

/-- **A block comment that is closed on its line** leaves nothing behind. -/
theorem strip_blockComment {c : Text} (hline : '\n' ∉ c) (hend : ¬ ['*', '/'] <:+: c) (b : Text) :
    strip (blockComment c ++ b) = strip b := by
  obtain ⟨star, hc⟩ : ∃ star, c.foldl Reading.step ⟨.block false, []⟩ = ⟨.block star, []⟩ :=
    foldl_step_block hline hend (fun h => absurd h Bool.false_ne_true) []
  have hread : (blockComment c).foldl Reading.step ⟨.code, []⟩ = ⟨.code, []⟩ := by
    have hopen : ('/' :: '*' :: c).foldl Reading.step ⟨.code, []⟩ =
        c.foldl Reading.step ⟨.block false, []⟩ := rfl
    rw [blockComment, List.foldl_append, hopen, hc]
    cases star <;> rfl
  rw [strip, List.foldl_append, hread, ← strip]

/-! ### The tokens around a comment -/

/-- **A block comment separates the tokens around it as a space does,** unless the last token before
it runs into the text behind it. -/
theorem payload_strip_blockComment_iff {a c : Text} (ha : EndsOutside a)
    (hslash : a.getLast? ≠ some '/') (hline : '\n' ∉ c) (hend : ¬ ['*', '/'] <:+: c) (b : Text) :
    (Token.scan (strip (a ++ blockComment c ++ b))).map Token.payload =
        (Token.scan (strip (a ++ ' ' :: b))).map Token.payload ↔
      ¬ (strip a).RunsInto (strip b) := by
  have hcode := ha.modeAfter_eq hslash
  rw [List.append_assoc, strip_append hcode, strip_append hcode, strip_blockComment hline hend,
    strip_space]
  exact Token.payload_scan_space_iff _ _

/-- A comment before a comma separates, and before a word it does not. -/
theorem payload_strip_blockComment_wire :
    (EndsOutside "wire a".toList ∧ "wire a".toList.getLast? ≠ some '/' ∧ '\n' ∉ " bus ".toList ∧
      ¬ ['*', '/'] <:+: " bus ".toList) ∧
    ((Token.scan (strip ("wire a".toList ++ blockComment " bus ".toList ++ ", b".toList))).map
        Token.payload =
      (Token.scan (strip ("wire a".toList ++ ' ' :: ", b".toList))).map Token.payload) ∧
    ((Token.scan (strip ("wire a".toList ++ blockComment " bus ".toList ++ "b".toList))).map
        Token.payload ≠
      (Token.scan (strip ("wire a".toList ++ ' ' :: "b".toList))).map Token.payload) := by
  have ha : EndsOutside "wire a".toList := by decide
  have h := fun b => payload_strip_blockComment_iff ha (c := " bus ".toList) (by decide) (by decide)
    (by decide) b
  refine ⟨⟨ha, by decide, by decide, by decide⟩, (h _).mpr (by decide +kernel), fun heq => ?_⟩
  exact (h _).mp heq (by decide +kernel)

/-- A comment between two words is no separation. -/
theorem payload_strip_blockComment_glued :
    (EndsOutside ['a'] ∧ ['a'].getLast? ≠ some '/' ∧ '\n' ∉ ([] : Text) ∧
      ¬ ['*', '/'] <:+: ([] : Text)) ∧
    (Token.scan (strip (['a'] ++ blockComment [] ++ ['b']))).map Token.payload ≠
      (Token.scan (strip (['a'] ++ ' ' :: ['b']))).map Token.payload := by
  decide +kernel

end DesignAtlas.Comment
