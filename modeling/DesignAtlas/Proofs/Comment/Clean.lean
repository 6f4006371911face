import DesignAtlas.Proofs.Comment.Newline
import Mathlib.Data.List.Induction

/-! # Texts without comments

A comment begins with two slashes, or with a slash and a star, that stand outside the string
literals of a text (`CommentFree`). String literals are found here without any regard to comments: a
quote opens one, and a quote or a newline that no backslash keeps closes it (`Quoting`).

Stripping leaves no comment behind (`commentFree_strip`). What it writes last outside a literal is
never a slash, because a slash is held back until the character behind it is known; so no two
characters that a comment held apart can begin a new one. The texts that stripping leaves as they
are are exactly those without comments (`strip_eq_self_iff`). -/

namespace DesignAtlas.Comment

/-! ### String literals -/

/-- Where a text ends with regard to its string literals. -/
inductive Quoting where
  | outside
  | inside
  /-- In a literal, behind a backslash. -/
  | escaped
  deriving DecidableEq, Repr

/-- One more character. -/
def Quoting.step : Quoting → Char → Quoting
  | .outside, c => if c = '\x22' then .inside else .outside
  | .inside, c =>
    if c = '\x5c' then .escaped else if c = '\x22' ∨ c = '\n' then .outside else .inside
  | .escaped, _ => .inside

/-- Where the text ends with regard to its string literals. -/
def quotingAfter (t : Text) : Quoting := t.foldl Quoting.step .outside

theorem quotingAfter_concat (t : Text) (c : Char) :
    quotingAfter (t ++ [c]) = (quotingAfter t).step c := by
  rw [quotingAfter, List.foldl_append, List.foldl_cons, List.foldl_nil, ← quotingAfter]

/-- A slash neither opens nor closes a literal. -/
theorem Quoting.step_slash_eq_outside_iff {q : Quoting} : q.step '/' = .outside ↔ q = .outside := by
  cases q <;> decide

/-! ### Comment marks -/

/-- Whether the character makes a slash before it the beginning of a comment. -/
def IsMark (c : Char) : Prop := c = '/' ∨ c = '*'

/-- No comment begins outside the string literals of the text. -/
def CommentFree (t : Text) : Prop :=
  ∀ a c b, t = a ++ '/' :: c :: b → IsMark c → quotingAfter a ≠ .outside

theorem commentFree_nil : CommentFree [] := by
  intro a c b h
  simp at h

theorem CommentFree.of_append {t u : Text} (h : CommentFree (t ++ u)) : CommentFree t :=
  fun a c b ht => h a c (b ++ u) (by simp [ht])

theorem commentFree_concat {t : Text} {c : Char} : CommentFree (t ++ [c]) ↔
    CommentFree t ∧ (quotingAfter t = .outside → t.getLast? = some '/' → ¬ IsMark c) := by
  constructor
  · intro h
    refine ⟨h.of_append, fun hout hlast hmark => ?_⟩
    obtain ⟨a, rfl⟩ := List.getLast?_eq_some_iff.mp hlast
    rw [quotingAfter_concat, Quoting.step_slash_eq_outside_iff] at hout
    exact h a c [] (by simp) hmark hout
  · rintro ⟨ht, hc⟩ a d b h hmark hout
    rcases List.eq_nil_or_concat b with rfl | ⟨b, e, rfl⟩
    -- the slash is the last character of `t`
    · have hsplit : t ++ [c] = (a ++ ['/']) ++ [d] := by simpa using h
      obtain ⟨rfl, hcd⟩ := List.append_inj' hsplit rfl
      obtain rfl : c = d := by simpa using hcd
      refine hc ?_ (by simp) hmark
      rwa [quotingAfter_concat, Quoting.step_slash_eq_outside_iff]
    · have hsplit : t ++ [c] = (a ++ '/' :: d :: b) ++ [e] := by simpa using h
      obtain ⟨rfl, -⟩ := List.append_inj' hsplit rfl
      exact ht a d b rfl hmark hout

/-! ### What one step can do -/

namespace Mode

/-- The place of a reading with regard to the string literals of what it has written. -/
def quoting : Mode → Quoting
  | .string => .inside
  | .escape => .escaped
  | _ => .outside

/-- Whether the mode is that of a comment. -/
def InComment : Mode → Prop
  | .line | .block _ => True
  | _ => False

theorem pending_of_inComment : ∀ {m : Mode}, m.InComment → m.pending = []
  | .line, _ | .block _, _ => rfl

theorem quoting_of_inComment : ∀ {m : Mode}, m.InComment → m.quoting = .outside
  | .line, _ | .block _, _ => rfl

end Mode

/-- What a step from one mode to another writes for the character that it reads. -/
inductive StepCase : Mode → Char → Mode → Text → Prop where
  /-- A slash is held back. -/
  | hold : StepCase .code '/' .slash []
  /-- The character is written, behind a slash that was held back. -/
  | write {m m' : Mode} {c : Char} (code : ¬ m.InComment) (mark : m = .slash → ¬ IsMark c)
    (code' : ¬ m'.InComment) (pending : m'.pending = []) (quoting : m'.quoting = m.quoting.step c)
    (slash : m'.quoting = .outside → c ≠ '/') : StepCase m c m' (m.pending ++ [c])
  /-- The character belongs to a comment, and so does a slash that was held back. -/
  | drop {m m' : Mode} {c : Char} (comment : m.InComment ∨ m = .slash ∧ IsMark c) (line : c ≠ '\n')
    (pending : m'.pending = []) (quoting : m'.quoting = .outside) : StepCase m c m' []
  /-- A newline is written though it stands in a comment. -/
  | newline {m m' : Mode} (comment : m.InComment) (pending : m'.pending = [])
    (quoting : m'.quoting = .outside) : StepCase m '\n' m' ['\n']

/-- A character other than a slash, read outside strings and comments, with a slash held back or
not. -/
theorem stepCase_codeStep {m : Mode} {c : Char} (hm : m = .code ∨ m = .slash)
    (hmark : m = .slash → ¬ IsMark c) (hslash : c ≠ '/') :
    StepCase m c (codeStep c).1 (m.pending ++ [c]) := by
  have hcode : ¬ m.InComment := by rcases hm with rfl | rfl <;> exact id
  have hout : m.quoting = .outside := by rcases hm with rfl | rfl <;> rfl
  unfold codeStep
  split_ifs with h1
  · refine .write hcode hmark id rfl (by rw [hout, h1]; rfl) fun h => ?_
    exact absurd (show Quoting.inside = .outside from h) (by decide)
  · exact .write hcode hmark id rfl (by rw [hout]; simp [Quoting.step, h1, Mode.quoting])
      fun _ => hslash

/-- A character of a string literal that does not close it. -/
theorem stepCase_inside {m m' : Mode} {c : Char} (hm : m = .string ∨ m = .escape)
    (hm' : m' = .string ∨ m' = .escape) (hquoting : m'.quoting = m.quoting.step c) :
    StepCase m c m' [c] := by
  rcases hm with rfl | rfl <;> rcases hm' with rfl | rfl <;>
    exact .write id (fun h => absurd h (by decide)) id rfl hquoting fun h => absurd h (by decide)

/-- **What one step can do.** -/
theorem stepCase (m : Mode) (c : Char) : StepCase m c (modeStep m c).1 (modeStep m c).2 := by
  have hwrites : c ≠ '/' → (codeStep c).2 = [c] := fun h => by
    unfold codeStep
    split_ifs <;> rfl
  cases m with
  | code =>
    by_cases hc : c = '/'
    · subst hc
      exact .hold
    · have : modeStep .code c = ((codeStep c).1, [c]) := Prod.ext rfl (hwrites hc)
      rw [this]
      exact stepCase_codeStep (.inl rfl) (fun h => absurd h (by decide)) hc
  | slash =>
    by_cases h1 : c = '/'
    · subst h1
      exact .drop (.inr ⟨rfl, .inl rfl⟩) (by decide) rfl rfl
    by_cases h2 : c = '*'
    · subst h2
      exact .drop (.inr ⟨rfl, .inr rfl⟩) (by decide) rfl rfl
    · rw [modeStep, if_neg h1, if_neg h2, hwrites h1]
      exact stepCase_codeStep (.inr rfl) (fun _ hmark => hmark.elim h1 h2) h1
  | line =>
    by_cases h1 : c = '\n'
    · subst h1
      exact .newline trivial rfl rfl
    · rw [modeStep, if_neg h1]
      exact .drop (.inl trivial) h1 rfl rfl
  | block star =>
    by_cases h1 : c = '\n'
    · subst h1
      exact .newline trivial rfl rfl
    · rw [modeStep, if_neg h1]
      split
      · exact .drop (.inl trivial) h1 rfl rfl
      · exact .drop (.inl trivial) h1 rfl rfl
  | string =>
    by_cases h1 : c = '\x5c'
    · subst h1
      exact stepCase_inside (.inl rfl) (.inr rfl) rfl
    by_cases h2 : c = '\x22' ∨ c = '\n'
    · rw [modeStep, if_neg h1, if_pos h2]
      refine .write id (fun h => absurd h (by decide)) id rfl ?_ fun _ => ?_
      · simp [Mode.quoting, Quoting.step, h1, h2]
      · rcases h2 with rfl | rfl <;> decide
    · rw [modeStep, if_neg h1, if_neg h2]
      refine stepCase_inside (.inl rfl) (.inl rfl) ?_
      simp [Mode.quoting, Quoting.step, h1, h2]
  | escape => exact stepCase_inside (.inr rfl) (.inl rfl) rfl

/-! ### What stripping writes -/

/-- The reading after one more character. -/
theorem exists_stepCase (m : Mode) (w : Text) (c : Char) :
    ∃ m' p, StepCase m c m' p ∧ Reading.step ⟨m, w⟩ c = ⟨m', p.reverse ++ w⟩ :=
  ⟨_, _, stepCase m c, rfl⟩

theorem finish_append_reverse (m : Mode) (p w : Text) :
    Reading.finish ⟨m, p.reverse ++ w⟩ = w.reverse ++ (p ++ m.pending) := by
  simp [Reading.finish]

/-- A reading has written no comment, and a slash that it would write last outside a literal is held
back. -/
structure Leaves (r : Reading) : Prop where
  clean : CommentFree r.finish
  quoting : quotingAfter r.finish = r.mode.quoting
  last : r.mode.quoting = .outside → r.finish.getLast? = some '/' → r.mode = .slash

section Step

variable {r r' : Reading} (h : Leaves r) {c : Char}
include h

/-- A character that is written or held back begins no comment with what stands before it. -/
theorem Leaves.concat (hfinish : r'.finish = r.finish ++ [c]) (hmark : r.mode = .slash → ¬ IsMark c)
    (hquoting : r'.mode.quoting = r.mode.quoting.step c)
    (hslash : r'.mode.quoting = .outside → c = '/' → r'.mode = .slash) : Leaves r' where
  clean := by
    rw [hfinish, commentFree_concat]
    exact ⟨h.clean, fun hout hlast => hmark (h.last (h.quoting ▸ hout) hlast)⟩
  quoting := by rw [hfinish, quotingAfter_concat, h.quoting, hquoting]
  last := fun hout hlast => by
    rw [hfinish, List.getLast?_concat, Option.some.injEq] at hlast
    exact hslash hout hlast

/-- A comment leaves behind what was written before it, without the slash that begins it. -/
theorem Leaves.drop (hm : r.mode.InComment ∨ r.mode = .slash)
    (hfinish : r'.finish = r.written.reverse) (hquoting : r'.mode.quoting = .outside) :
    Leaves r' := by
  rcases hm with hm | hm
  · have hwritten : r.written.reverse = r.finish := by
      rw [Reading.finish, Mode.pending_of_inComment hm, List.append_nil]
    have hout := Mode.quoting_of_inComment hm
    rw [hwritten] at hfinish
    refine ⟨hfinish ▸ h.clean, by rw [hfinish, h.quoting, hout, hquoting], fun _ hlast => ?_⟩
    have := h.last hout (hfinish ▸ hlast)
    rw [this] at hm
    exact absurd hm id
  · have hslash : r.finish = r.written.reverse ++ ['/'] := by
      rw [Reading.finish, hm]
      rfl
    have hquot := h.quoting
    rw [hslash, hm, quotingAfter_concat] at hquot
    have hout := Quoting.step_slash_eq_outside_iff.mp hquot
    obtain ⟨hclean, hmark⟩ := commentFree_concat.mp (hslash ▸ h.clean)
    refine ⟨hfinish ▸ hclean, by rw [hfinish, hout, hquoting], fun _ hlast => ?_⟩
    exact absurd (Or.inl rfl) (hmark hout (hfinish ▸ hlast))

end Step

/-- **One step** leaves no comment behind. -/
theorem Leaves.step {r : Reading} (h : Leaves r) (c : Char) : Leaves (r.step c) := by
  obtain ⟨m, w⟩ := r
  obtain ⟨m', p, hcase, hstep⟩ := exists_stepCase m w c
  have hfinish := finish_append_reverse m' p w
  rw [hstep]
  cases hcase with
  | hold =>
    refine h.concat (c := '/') ?_ nofun rfl fun _ _ => rfl
    simp [Reading.finish, Mode.pending]
  | write code mark code' pending quoting slash =>
    refine h.concat ?_ mark quoting fun hout hc => absurd hc (slash hout)
    rw [hfinish, pending, List.append_nil, Reading.finish, List.append_assoc]
  | drop comment line pending quoting =>
    refine h.drop (comment.imp_right And.left) ?_ quoting
    rw [hfinish, pending, List.append_nil, List.append_nil]
  | newline comment pending quoting =>
    refine h.concat (c := '\n') ?_ ?_ ?_ fun _ hc => absurd hc (by decide)
    · rw [hfinish, pending, Reading.finish, Mode.pending_of_inComment comment, List.append_nil,
        List.append_nil]
    · rintro rfl
      exact absurd comment id
    · rw [quoting, Mode.quoting_of_inComment comment]
      rfl

theorem Leaves.foldl : ∀ (t : Text) {r : Reading}, Leaves r → Leaves (t.foldl Reading.step r)
  | [], _, h => h
  | c :: t, _, h => Leaves.foldl t (h.step c)

/-- **Stripping leaves no comment behind.** -/
theorem commentFree_strip (t : Text) : CommentFree (strip t) := by
  have hbegin : Leaves ⟨.code, []⟩ := ⟨commentFree_nil, rfl, by simp [Reading.finish, Mode.pending]⟩
  exact (Leaves.foldl t hbegin).clean

/-! ### What stripping leaves alone -/

/-- A reading of `t` that has left out nothing. -/
structure Whole (t : Text) (r : Reading) : Prop where
  finish : r.finish = t
  quoting : quotingAfter t = r.mode.quoting
  code : ¬ r.mode.InComment

theorem Whole.step {t : Text} {r : Reading} (h : Whole t r) {c : Char}
    (hc : quotingAfter t = .outside → t.getLast? = some '/' → ¬ IsMark c) :
    Whole (t ++ [c]) (r.step c) := by
  obtain ⟨m, w⟩ := r
  obtain ⟨rfl, hquoting, hcode⟩ := h
  obtain ⟨m', p, hcase, hstep⟩ := exists_stepCase m w c
  have hfinish := finish_append_reverse m' p w
  rw [hstep]
  cases hcase with
  | hold =>
    refine ⟨by simp [Reading.finish, Mode.pending], ?_, id⟩
    rw [quotingAfter_concat, hquoting]
    rfl
  | write _ mark code' pending quoting slash =>
    refine ⟨?_, by rw [quotingAfter_concat, hquoting, quoting], code'⟩
    rw [hfinish, pending, List.append_nil, Reading.finish, List.append_assoc]
  -- a comment cannot have begun
  | drop comment line pending quoting =>
    obtain hm | ⟨rfl, hmark⟩ := comment
    · exact absurd hm hcode
    · exact absurd hmark (hc hquoting (by simp [Reading.finish, Mode.pending]))
  | newline comment pending quoting => exact absurd comment hcode

theorem whole_of_commentFree {t : Text} (h : CommentFree t) :
    Whole t (t.foldl Reading.step ⟨.code, []⟩) := by
  induction t using List.reverseRecOn with
  | nil => exact ⟨rfl, rfl, id⟩
  | append_singleton t c ih =>
    obtain ⟨ht, hc⟩ := commentFree_concat.mp h
    rw [List.foldl_append]
    exact (ih ht).step hc

/-- **Stripping changes a text exactly when it holds a comment.** -/
theorem strip_eq_self_iff {t : Text} : strip t = t ↔ CommentFree t := by
  constructor
  · intro h
    rw [← h]
    exact commentFree_strip t
  · intro h
    exact (whole_of_commentFree h).finish

instance (t : Text) : Decidable (CommentFree t) := decidable_of_iff _ strip_eq_self_iff

/-- **The stripped text has no comments,** so stripping it again changes nothing. -/
theorem strip_clean (t : Text) : CommentFree (strip t) ∧ strip (strip t) = strip t :=
  ⟨commentFree_strip t, strip_eq_self_iff.mpr (commentFree_strip t)⟩

end DesignAtlas.Comment
