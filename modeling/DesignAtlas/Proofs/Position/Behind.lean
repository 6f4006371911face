import DesignAtlas.Position
import Mathlib.Tactic.Common

/-! # Places in a text that is part of a longer one

A text may stand behind another one, and another one may stand behind it. A place of the text is
then a place of the longer text, and a span covers the same characters in both.

* `behind q p` is the place `p` of a text that begins at `q` (`advance_eq_behind`); the slice of a
  span moved in this way is the old slice (`slice_behind`).
* Text behind the end changes no slice between two cuts of the text, that is, between two places
  where a character begins (`slice_append_right`). -/

namespace DesignAtlas

namespace Position

/-- The place `p` of a text that begins at the place `q`. -/
def behind (q p : Position) : Position :=
  ⟨q.offset + p.offset, q.line + (p.line - 1),
    if p.line = 1 then q.column + (p.column - 1) else p.column⟩

/-- Lines and columns count from one. -/
def Counted (p : Position) : Prop := 1 ≤ p.line ∧ 1 ≤ p.column

theorem counted_start : Counted start := ⟨Nat.le_refl 1, Nat.le_refl 1⟩

theorem Counted.step {p : Position} (h : Counted p) (c : Char) : Counted (p.step c) := by
  obtain ⟨h1, h2⟩ := h
  unfold Position.step
  split_ifs
  · exact ⟨by simp, Nat.le_refl 1⟩
  · exact ⟨h1, by simp⟩

theorem Counted.advance : ∀ {p : Position}, Counted p → ∀ t : Text, Counted (p.advance t)
  | _, h, [] => h
  | _, h, c :: t => by rw [advance_cons]; exact (h.step c).advance t

theorem behind_start (q : Position) : behind q start = q := rfl

theorem behind_step {p : Position} (h : Counted p) (q : Position) (c : Char) :
    (behind q p).step c = behind q (p.step c) := by
  obtain ⟨h1, h2⟩ := h
  unfold Position.step behind
  by_cases hc : c = '\n'
  · rw [if_pos hc, if_pos hc, Position.mk.injEq]
    refine ⟨by simp only; omega, by simp only; omega, ?_⟩
    rw [if_neg (by simp only; omega)]
  · rw [if_neg hc, if_neg hc, Position.mk.injEq]
    refine ⟨by simp only; omega, rfl, ?_⟩
    simp only
    split_ifs <;> omega

theorem behind_advance : ∀ {p : Position}, Counted p → ∀ (q : Position) (t : Text),
    (behind q p).advance t = behind q (p.advance t)
  | _, _, _, [] => rfl
  | _, h, q, c :: t => by
    rw [advance_cons, advance_cons, behind_step h, behind_advance (h.step c)]

/-- **A place of a text that begins at `q`.** -/
theorem advance_eq_behind (q : Position) (t : Text) : q.advance t = behind q (start.advance t) := by
  rw [← behind_advance counted_start, behind_start]

end Position

/-! ### Bytes -/

namespace Text

theorem dropBytes_add (a b : Text) (n : Nat) :
    dropBytes (byteLength a + n) (a ++ b) = dropBytes n b := by
  induction a with
  | nil => simp
  | cons c a ih =>
    have h := c.utf8Size_pos
    obtain ⟨k, hk⟩ : ∃ k, byteLength (c :: a) + n = k + 1 :=
      ⟨c.utf8Size + byteLength a + n - 1, by rw [byteLength_cons]; omega⟩
    rw [hk, List.cons_append, dropBytes, ← hk, byteLength_cons,
      show c.utf8Size + byteLength a + n - c.utf8Size = byteLength a + n by omega, ih]

/-- `n` bytes from the front of the text a character begins, or the text ends. -/
def IsCut (t : Text) (n : Nat) : Prop := ∃ a b, t = a ++ b ∧ n = byteLength a

theorem isCut_zero (t : Text) : IsCut t 0 := ⟨[], t, rfl, rfl⟩

theorem byteLength_pos {t : Text} (h : t ≠ []) : 0 < byteLength t := by
  obtain ⟨c, t', rfl⟩ := List.exists_cons_of_ne_nil h
  have := c.utf8Size_pos
  rw [byteLength_cons]; omega

/-- Of two beginnings of a text, the one with fewer bytes begins the other. -/
theorem exists_append_of_byteLength_le {a b a' b' : Text} (h : a ++ b = a' ++ b')
    (hle : byteLength a ≤ byteLength a') : ∃ d, a' = a ++ d := by
  rcases List.append_eq_append_iff.mp h with ⟨d, rfl, -⟩ | ⟨d, rfl, -⟩
  · exact ⟨d, rfl⟩
  · rcases d with _ | ⟨c, d⟩
    · exact ⟨[], by simp⟩
    · have := c.utf8Size_pos
      rw [byteLength_append, byteLength_cons] at hle
      omega

end Text

/-! ### Slices -/

namespace Span

/-- The span with its ends moved. -/
def relocate (f : Position → Position) (s : Span) : Span := ⟨f s.start, f s.limit⟩

theorem slice_behind {q : Position} {a : Text} (hq : q.offset = a.byteLength) (s : Span)
    (b : Text) : (s.relocate (Position.behind q)).slice (a ++ b) = s.slice b := by
  unfold slice relocate Position.behind
  simp only [hq, Text.dropBytes_add, Nat.add_sub_add_left]

theorem slice_append_right {t : Text} {s : Span} (hs : t.IsCut s.start.offset)
    (hl : t.IsCut s.limit.offset) (u : Text) : s.slice (t ++ u) = s.slice t := by
  obtain ⟨a, b, rfl, ha⟩ := hs
  obtain ⟨a', b', hab, ha'⟩ := hl
  unfold slice
  rw [ha, ha', List.append_assoc, Text.dropBytes_append, Text.dropBytes_append]
  rcases Nat.le_or_ge a.byteLength a'.byteLength with hle | hge
  · obtain ⟨d, rfl⟩ := Text.exists_append_of_byteLength_le hab hle
    rw [List.append_assoc, List.append_cancel_left_eq] at hab
    rw [hab, Text.byteLength_append, Nat.add_sub_cancel_left, List.append_assoc,
      Text.takeBytes_append, Text.takeBytes_append]
  · rw [Nat.sub_eq_zero_of_le hge, Text.takeBytes_zero, Text.takeBytes_zero]

end Span

end DesignAtlas
