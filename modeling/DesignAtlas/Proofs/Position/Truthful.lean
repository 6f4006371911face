import DesignAtlas.Proofs.Position.Behind
import DesignAtlas.Proofs.Text.Cut
import Mathlib.Algebra.Group.Nat.Defs

/-! # Positions that tell the truth

A position is truthful for a text if its offset stands between two characters and its line and
column are counted from what stands before it. These are the positions that are reached by reading a
beginning of the text (`truthful_iff`).

So the line is one of the text's, and the column is at most one behind its end (`exists_line`).
Counters of 32 bits are truthful too as long as they can count the lines of the text and the columns
of each line, the one behind its last character included (`Truthful.counters`). -/

namespace DesignAtlas

/-- The position says where it stands in the text. -/
structure Position.Truthful (t : Text) (p : Position) : Prop where
  /-- A character begins at the offset, or the text ends there. -/
  cut : t.IsCut p.offset
  /-- The line is one more than the newlines before the offset. -/
  line : p.line = 1 + (t.takeBytes p.offset).count '\n'
  /-- The column is one more than the characters between the last of them and the offset. -/
  column : p.column = 1 + ((t.takeBytes p.offset).rtakeWhile (· != '\n')).length

/-- Both ends of the span are truthful. -/
structure Span.Truthful (t : Text) (s : Span) : Prop where
  start : s.start.Truthful t
  limit : s.limit.Truthful t

/-- The counters say where they stand in the text. -/
structure Counters.Truthful (t : Text) (k : Counters) : Prop where
  cut : t.IsCut k.offset
  line : k.line.toNat = 1 + (t.takeBytes k.offset).count '\n'
  column : k.column.toNat = 1 + ((t.takeBytes k.offset).rtakeWhile (· != '\n')).length

namespace Position

theorem offset_start_advance (t : Text) : (start.advance t).offset = t.byteLength := by
  rw [offset_advance]
  exact Nat.zero_add _

theorem line_advance (p : Position) (t : Text) :
    (p.advance t).line = p.line + t.count '\n' := by
  induction t generalizing p with
  | nil => simp
  | cons c t ih =>
    rw [Position.advance_cons, ih, List.count_cons, Position.step]
    by_cases hc : c = '\n'
    · simp [hc]
      omega
    · simp [hc]

/-- The column counts the characters behind the last newline. -/
theorem column_start_advance (t : Text) :
    (start.advance t).column = 1 + (t.rtakeWhile (· != '\n')).length := by
  induction t using List.reverseRecOn with
  | nil => rfl
  | append_singleton t c ih =>
    rw [advance_append, advance_cons, advance_nil, step]
    by_cases hc : c = '\n'
    · rw [if_pos hc, List.rtakeWhile_concat_neg _ _ _ (by simp [hc])]
      rfl
    · rw [if_neg hc, List.rtakeWhile_concat_pos _ _ _ (by simpa using hc), List.length_append, ih]
      rfl

variable {t : Text} {p : Position}

/-- **The truthful positions** are those behind a beginning of the text. -/
theorem truthful_iff : p.Truthful t ↔ ∃ a b, t = a ++ b ∧ p = start.advance a := by
  constructor
  · rintro ⟨⟨a, b, rfl, hoffset⟩, hline, hcolumn⟩
    rw [hoffset, Text.takeBytes_append] at hline hcolumn
    refine ⟨a, b, rfl, ?_⟩
    obtain ⟨offset, line, column⟩ := p
    rw [← offset_start_advance] at hoffset
    rw [← column_start_advance] at hcolumn
    have hline' : line = (start.advance a).line := hline.trans (line_advance start a).symm
    exact (Position.mk.injEq ..).mpr ⟨hoffset, hline', hcolumn⟩
  · rintro ⟨a, b, rfl, rfl⟩
    refine ⟨⟨a, b, rfl, offset_start_advance a⟩, ?_, ?_⟩
    · rw [offset_start_advance, Text.takeBytes_append, line_advance]
      rfl
    · rw [offset_start_advance, Text.takeBytes_append, column_start_advance]

end Position

theorem Text.length_lines (t : Text) : t.lines.length = 1 + t.count '\n' := by
  unfold lines
  induction t with
  | nil => rfl
  | cons c t ih =>
    obtain ⟨l, ls, hlines⟩ := List.exists_cons_of_ne_nil (split_ne_nil (· == '\n') t)
    rw [split_cons, List.count_cons]
    split
    · rw [List.length_cons, ih, Nat.add_assoc]
    · rw [Nat.add_zero, ← ih, hlines]
      rfl

/-- **A truthful position stands on a line of the text**, at one of its characters or at its end. -/
theorem Position.Truthful.exists_line {t : Text} {p : Position} (h : p.Truthful t) :
    ∃ l, t.lines[p.line - 1]? = some l ∧ p.column ≤ 1 + l.length := by
  obtain ⟨a, b, rfl, rfl⟩ := truthful_iff.mp h
  -- the line of the position is made of the end of `a` and the first line `q` of `b`
  obtain ⟨ps, hps⟩ := Text.exists_split_append (· == '\n') a
  obtain ⟨q, qs, hq⟩ := List.exists_cons_of_ne_nil (Text.split_ne_nil (· == '\n') b)
  have ha := hps [] (by simp)
  rw [List.append_nil, List.append_nil] at ha
  have hlength : ps.length = a.count '\n' := by
    have hlines := Text.length_lines a
    rw [Text.lines, ha, List.length_append, List.length_singleton] at hlines
    omega
  have hindex : (start.advance a).line - 1 = ps.length := by
    rw [line_advance, hlength]
    exact Nat.add_sub_cancel_left 1 _
  refine ⟨a.rtakeWhile (· != '\n') ++ q, ?_, ?_⟩
  · rw [hindex, Text.lines, Text.split_append hq ha, List.getElem?_append_right (Nat.le_refl _),
      Nat.sub_self]
    rfl
  · rw [column_start_advance, List.length_append]
    omega

/-! ### Counters -/

namespace Position.Truthful

variable {t : Text} {p : Position}

theorem fits (h : p.Truthful t) (hlines : t.lines.length < 2 ^ 32)
    (hcolumns : ∀ l ∈ t.lines, l.length ≤ 2 ^ 32 - 2) : p.line < 2 ^ 32 ∧ p.column < 2 ^ 32 := by
  obtain ⟨l, hl, hcolumn⟩ := h.exists_line
  obtain ⟨hindex, -⟩ := List.getElem?_eq_some_iff.mp hl
  have hlength := hcolumns l (List.mem_of_getElem? hl)
  exact ⟨by omega, by omega⟩

/-- **Counters are truthful where the position is**, if they can count what is in the text. -/
theorem counters (h : p.Truthful t) (hlines : t.lines.length < 2 ^ 32)
    (hcolumns : ∀ l ∈ t.lines, l.length ≤ 2 ^ 32 - 2) : p.counters.Truthful t := by
  obtain ⟨hline, hcolumn⟩ := h.fits hlines hcolumns
  exact ⟨h.cut, (UInt32.toNat_ofNat_of_lt' hline).trans h.line,
    (UInt32.toNat_ofNat_of_lt' hcolumn).trans h.column⟩

end Position.Truthful

end DesignAtlas
