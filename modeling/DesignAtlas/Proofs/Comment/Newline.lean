import DesignAtlas.Comment
import Mathlib.Tactic.Common

/-! # Stripping comments from two texts one after the other

Behind a text that leaves nothing open, stripping begins anew (`strip_append`). A newline ends a line
comment and a string literal. So a text that is read up to a newline, and not inside a block
comment, leaves nothing behind that the text after the newline could feel: `strip_newline`. The two
other ways to leave something behind, a slash that may yet begin a comment and an escape in a string,
show at the end of the stripped text (`getLast?_strip`). -/

namespace DesignAtlas.Comment

/-- The mode in which a text leaves the reading. -/
def modeAfter (t : Text) : Mode := (t.foldl Reading.step ⟨.code, []⟩).mode

/-- Whether a text ends inside a block comment. -/
def EndsInBlock (t : Text) : Prop := ∃ star, modeAfter t = .block star

instance (t : Text) : Decidable (EndsInBlock t) :=
  inferInstanceAs (Decidable (∃ star, modeAfter t = .block star))

/-- What has been written before stays in front of what is written later. -/
theorem foldl_step : ∀ (t : Text) (m : Mode) (w : Text),
    t.foldl Reading.step ⟨m, w⟩ =
      ⟨(t.foldl Reading.step ⟨m, []⟩).mode, (t.foldl Reading.step ⟨m, []⟩).written ++ w⟩
  | [], m, w => rfl
  | c :: t, m, w => by
    simp only [List.foldl_cons, Reading.step]
    rw [foldl_step t _ (_ ++ w), foldl_step t _ (_ ++ [])]
    simp

/-- Behind a text that leaves nothing open, stripping begins anew. -/
theorem strip_append {a : Text} (h : modeAfter a = .code) (b : Text) :
    strip (a ++ b) = strip a ++ strip b := by
  unfold strip modeAfter at *
  rw [List.foldl_append]
  generalize a.foldl Reading.step ⟨.code, []⟩ = r at h ⊢
  obtain ⟨m, w⟩ := r
  obtain rfl : m = .code := h
  rw [foldl_step]
  simp [Reading.finish, Mode.pending]

/-- The modes that a newline ends. -/
def Settled : Mode → Prop
  | .code | .line | .string => True
  | _ => False

theorem step_newline {m : Mode} (h : Settled m) (w : Text) :
    Reading.step ⟨m, w⟩ '\n' = ⟨.code, '\n' :: w⟩ := by
  cases m <;> first | rfl | exact absurd h id

theorem pending_of_settled {m : Mode} (h : Settled m) : m.pending = [] := by
  cases m <;> first | rfl | exact absurd h id

/-- **Comments are stripped from each side of a newline by itself,** unless the newline stands in a
block comment or behind a slash or an escape. -/
theorem strip_newline {a : Text} (h : Settled (modeAfter a)) (b : Text) :
    strip (a ++ '\n' :: b) = strip a ++ '\n' :: strip b := by
  have hread : (a ++ ['\n']).foldl Reading.step ⟨.code, []⟩ =
      ⟨.code, '\n' :: (a.foldl Reading.step ⟨.code, []⟩).written⟩ := by
    rw [List.foldl_append]
    exact step_newline h _
  have hline : strip (a ++ ['\n']) = strip a ++ ['\n'] := by
    have hpending := pending_of_settled h
    unfold modeAfter at hpending
    rw [strip, hread, strip, Reading.finish, Reading.finish, hpending, List.reverse_cons]
    simp [Mode.pending]
  rw [← List.singleton_append, ← List.append_assoc, strip_append (congrArg Reading.mode hread),
    hline, List.append_assoc, List.singleton_append]

/-- An escape begins with the backslash that was just written. -/
theorem modeStep_escape {m : Mode} {c : Char} (h : (modeStep m c).1 = .escape) :
    (modeStep m c).2 = ['\x5c'] := by
  unfold modeStep codeStep at *
  split at h <;> (try split_ifs at h) <;> simp_all

/-- A text that leaves a slash or an escape behind shows it at its end. -/
theorem getLast?_strip {a : Text} (h : ¬ Settled (modeAfter a)) (hb : ¬ EndsInBlock a) :
    (strip a).getLast? = some '/' ∨ (strip a).getLast? = some '\x5c' := by
  unfold EndsInBlock at hb
  unfold strip modeAfter at *
  rcases List.eq_nil_or_concat a with rfl | ⟨a', c, rfl⟩
  · exact absurd trivial h
  rw [List.concat_eq_append, List.foldl_append] at h hb ⊢
  generalize a'.foldl Reading.step ⟨.code, []⟩ = r at h hb ⊢
  simp only [List.foldl_cons, List.foldl_nil] at h hb ⊢
  rcases hm : (r.step c).mode with _ | _ | _ | star | _ | _
  · rw [hm] at h; exact absurd trivial h
  · left; simp [Reading.finish, hm, Mode.pending]
  · rw [hm] at h; exact absurd trivial h
  · exact absurd ⟨star, hm⟩ hb
  · rw [hm] at h; exact absurd trivial h
  · right
    have hw : (modeStep r.mode c).2 = ['\x5c'] := modeStep_escape hm
    simp only [Reading.finish, hm, Mode.pending, List.append_nil]
    simp [Reading.step, hw]

/-! ### Texts without comments -/

/-- The text has no slashes and no quotes. -/
def Plain (t : Text) : Prop := ∀ c ∈ t, c ≠ '/' ∧ c ≠ '\x22'

instance (t : Text) : Decidable (Plain t) :=
  List.decidableBAll (fun c => c ≠ '/' ∧ c ≠ '\x22') t

@[simp] theorem plain_nil : Plain [] := by simp [Plain]

@[simp] theorem plain_cons {c : Char} {t : Text} :
    Plain (c :: t) ↔ (c ≠ '/' ∧ c ≠ '\x22') ∧ Plain t := by
  simp only [Plain, List.forall_mem_cons]

@[simp] theorem plain_append {a b : Text} : Plain (a ++ b) ↔ Plain a ∧ Plain b := by
  simp only [Plain, List.forall_mem_append]

/-- A plain text is read as code. -/
theorem foldl_step_of_plain : ∀ {t : Text}, Plain t → ∀ w : Text,
    t.foldl Reading.step ⟨.code, w⟩ = ⟨.code, t.reverse ++ w⟩
  | [], _, _ => rfl
  | c :: t, h, w => by
    obtain ⟨⟨h1, h2⟩, ht⟩ := plain_cons.mp h
    have hstep : Reading.step ⟨.code, w⟩ c = ⟨.code, c :: w⟩ := by
      simp [Reading.step, modeStep, codeStep, h1, h2]
    rw [List.foldl_cons, hstep, foldl_step_of_plain ht]
    simp

theorem strip_of_plain {t : Text} (h : Plain t) : strip t = t := by
  unfold strip
  rw [foldl_step_of_plain h]
  simp [Reading.finish, Mode.pending]

theorem not_endsInBlock_of_plain {t : Text} (h : Plain t) : ¬ EndsInBlock t := by
  rintro ⟨star, hm⟩
  rw [modeAfter, foldl_step_of_plain h] at hm
  cases hm

end DesignAtlas.Comment
