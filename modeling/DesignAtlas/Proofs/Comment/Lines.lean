import DesignAtlas.Proofs.Comment.Clean
import DesignAtlas.Proofs.ModuleDecl.Runs
import DesignAtlas.Proofs.Token.Between
import DesignAtlas.Proofs.Token.Lines

/-! # Comments and lines

Stripping leaves out characters, but no newline (`Kept`). So the stripped text has the lines of the
text, each without some of its characters, and every character of the stripped text stands on the
line on which it stood (`strip_lines`). Which character of the text it is tells `keptPlaces`: what a
step of the reading writes are the last characters read. -/

namespace DesignAtlas.Comment

open List (Forall₂)

/-! ### Texts with characters left out -/

/-- The text `o` is `u` without some of its characters, none of which is a newline. The characters
of `o` stand in `u` at the places `ps`, if `u` itself stands at `i`. -/
inductive Kept : Nat → Text → Text → List Nat → Prop where
  | nil (i : Nat) : Kept i [] [] []
  | keep {i : Nat} {c : Char} {u o : Text} {ps : List Nat} (h : Kept (i + 1) u o ps) :
    Kept i (c :: u) (c :: o) (i :: ps)
  | drop {i : Nat} {c : Char} {u o : Text} {ps : List Nat} (hc : c ≠ '\n')
    (h : Kept (i + 1) u o ps) : Kept i (c :: u) o ps

namespace Kept

variable {i : Nat} {u o : Text} {ps : List Nat}

theorem keepAll : ∀ (a : Text) {i : Nat}, Kept (i + a.length) u o ps →
    Kept i (a ++ u) (a ++ o) (List.range' i a.length ++ ps)
  | [], _, h => h
  | c :: a, i, h => by
    rw [List.length_cons, List.range'_succ]
    refine .keep (keepAll a ?_)
    rwa [List.length_cons, Nat.add_comm a.length, ← Nat.add_assoc] at h

theorem dropAll : ∀ {a : Text} {i : Nat}, '\n' ∉ a → Kept (i + a.length) u o ps →
    Kept i (a ++ u) o ps
  | [], _, _, h => h
  | c :: a, i, ha, h => by
    rw [List.mem_cons, not_or] at ha
    refine .drop (Ne.symm ha.1) (dropAll ha.2 ?_)
    rwa [List.length_cons, Nat.add_comm a.length, ← Nat.add_assoc] at h

theorem count_newline (h : Kept i u o ps) : o.count '\n' = u.count '\n' := by
  induction h with
  | nil => rfl
  | keep _ ih => rw [List.count_cons, List.count_cons, ih]
  | drop hc _ ih => rw [List.count_cons_of_ne hc, ih]

theorem lines (h : Kept i u o ps) : Forall₂ List.Sublist (Text.lines o) (Text.lines u) := by
  unfold Text.lines
  induction h with
  | nil => exact .cons (.refl _) .nil
  | @keep _ c u o _ _ ih =>
    rw [Text.split_cons, Text.split_cons]
    split
    · exact .cons (.refl _) ih
    · obtain ⟨l, ls, hu⟩ := List.exists_cons_of_ne_nil (Text.split_ne_nil (· == '\n') u)
      obtain ⟨l', ls', ho⟩ := List.exists_cons_of_ne_nil (Text.split_ne_nil (· == '\n') o)
      rw [hu, ho] at ih ⊢
      obtain ⟨hl, hls⟩ := List.forall₂_cons.mp ih
      exact .cons (hl.cons_cons c) hls
  | @drop _ c u o _ hc _ ih =>
    rw [Text.split_cons, if_neg (by simpa using hc)]
    obtain ⟨l, ls, hu⟩ := List.exists_cons_of_ne_nil (Text.split_ne_nil (· == '\n') u)
    obtain ⟨l', ls', ho⟩ := List.exists_cons_of_ne_nil (Text.split_ne_nil (· == '\n') o)
    rw [hu, ho] at ih ⊢
    obtain ⟨hl, hls⟩ := List.forall₂_cons.mp ih
    exact .cons (hl.cons c) hls

theorem le_of_mem (h : Kept i u o ps) : ∀ n ∈ ps, i ≤ n := by
  induction h with
  | nil => simp
  | keep _ ih =>
    intro n hn
    rcases List.mem_cons.mp hn with rfl | hn
    · exact le_rfl
    · exact (Nat.le_succ _).trans (ih n hn)
  | drop _ _ ih => exact fun n hn => (Nat.le_succ _).trans (ih n hn)

theorem pairwise (h : Kept i u o ps) : ps.Pairwise (· < ·) := by
  induction h with
  | nil => exact .nil
  | keep h ih => exact List.pairwise_cons.mpr ⟨fun n hn => h.le_of_mem n hn, ih⟩
  | drop _ _ ih => exact ih

/-- Each character that is left, at its place: as many newlines stand before it as before. -/
theorem exists_place (h : Kept i u o ps) : ∀ {k : Nat} {c : Char}, o[k]? = some c →
    ∃ n, ps[k]? = some (i + n) ∧ u[n]? = some c ∧
      (u.take n).count '\n' = (o.take k).count '\n' := by
  induction h with
  | nil => intro k c hk; cases hk
  | @keep i d u o ps _ ih =>
    intro k c hk
    cases k with
    | zero => exact ⟨0, rfl, hk, rfl⟩
    | succ k =>
      obtain ⟨n, hps, hu, hcount⟩ := ih hk
      refine ⟨n + 1, ?_, hu, ?_⟩
      · rw [List.getElem?_cons_succ, hps, Nat.add_assoc, Nat.add_comm 1 n]
      · rw [List.take_succ_cons, List.take_succ_cons, List.count_cons, List.count_cons, hcount]
  | @drop i d u o ps hd _ ih =>
    intro k c hk
    obtain ⟨n, hps, hu, hcount⟩ := ih hk
    refine ⟨n + 1, by rw [hps, Nat.add_assoc, Nat.add_comm 1 n], hu, ?_⟩
    rw [List.take_succ_cons, List.count_cons_of_ne hd, hcount]

end Kept

/-! ### What stripping keeps -/

/-- What a reading in the mode `m` writes for a text. -/
def stripFrom (m : Mode) (t : Text) : Text := (t.foldl Reading.step ⟨m, []⟩).finish

theorem stripFrom_nil (m : Mode) : stripFrom m [] = m.pending := rfl

theorem stripFrom_cons (m : Mode) (c : Char) (t : Text) :
    stripFrom m (c :: t) = (modeStep m c).2 ++ stripFrom (modeStep m c).1 t := by
  rw [stripFrom, List.foldl_cons, Reading.step, foldl_step]
  simp [stripFrom, Reading.finish]

/-- The places of the characters that a reading in the mode `m` writes for a text at the place `i`.
What a step writes are the last characters read. -/
def placesFrom : Mode → Nat → Text → List Nat
  | m, i, [] => List.range' (i - m.pending.length) m.pending.length
  | m, i, c :: t =>
    List.range' (i + 1 - (modeStep m c).2.length) (modeStep m c).2.length ++
      placesFrom (modeStep m c).1 (i + 1) t

/-- The places in a text of the characters that stripping keeps. -/
def keptPlaces (t : Text) : List Nat := placesFrom .code 0 t

/-- **Stripping leaves out no newline.** A slash that is held back has not been written yet. -/
theorem kept_stripFrom : ∀ (t : Text) (m : Mode) (i : Nat),
    Kept i (m.pending ++ t) (stripFrom m t) (placesFrom m (i + m.pending.length) t)
  | [], m, i => by
    rw [stripFrom_nil, placesFrom, Nat.add_sub_cancel]
    simpa using Kept.keepAll (i := i) m.pending (.nil _)
  | c :: t, m, i => by
    rw [stripFrom_cons, placesFrom]
    have ih := kept_stripFrom t (modeStep m c).1
    have hcase := stepCase m c
    generalize (modeStep m c).1 = m' at ih hcase ⊢
    generalize (modeStep m c).2 = p at hcase ⊢
    rw [List.append_cons]
    cases hcase with
    | hold => exact ih i
    | write code mark code' pending quoting slash =>
      have hrest := ih (i + (m.pending ++ [c]).length)
      rw [pending] at hrest
      simpa [Nat.add_assoc] using Kept.keepAll (m.pending ++ [c]) hrest
    | drop comment line pending quoting =>
      have hrest := ih (i + (m.pending ++ [c]).length)
      rw [pending] at hrest
      have hdropped : '\n' ∉ m.pending ++ [c] := by
        cases m <;> simp [Mode.pending, Ne.symm line]
      simpa [Nat.add_assoc] using Kept.dropAll hdropped hrest
    | newline comment pending quoting =>
      have hrest := ih (i + 1)
      rw [pending] at hrest
      rw [Mode.pending_of_inComment comment]
      exact .keep hrest

theorem kept_strip (t : Text) : Kept 0 t (strip t) (keptPlaces t) := kept_stripFrom t .code 0

/-! ### Lines -/

/-- The line of the character at index `n` of the text. -/
def lineAt (t : Text) (n : Nat) : Nat := (Position.start.advance (t.take n)).line

/-- The character at index `k` of the stripped text is the one at index `n` of the text, and it
stands on the same line. -/
structure Origin (t : Text) (k n : Nat) : Prop where
  place : (keptPlaces t)[k]? = some n
  char : ∃ c, (strip t)[k]? = some c ∧ t[n]? = some c
  line : lineAt (strip t) k = lineAt t n

theorem exists_origin {t : Text} {k : Nat} (hk : k < (strip t).length) : ∃ n, Origin t k n := by
  obtain ⟨n, hplace, hchar, hcount⟩ := (kept_strip t).exists_place (List.getElem?_eq_getElem hk)
  rw [Nat.zero_add] at hplace
  refine ⟨n, hplace, ⟨_, List.getElem?_eq_getElem hk, hchar⟩, ?_⟩
  rw [lineAt, lineAt, Position.line_advance, Position.line_advance, hcount]

/-- The span begins in the stripped text with a character that stands in the text on the line where
the span says that it begins. -/
def BeginsTruly (t : Text) (s : Span) : Prop :=
  ∃ k n, Origin t k n ∧ s.start = Position.start.advance ((strip t).take k) ∧
    s.start.line = lineAt t n

theorem beginsTruly_of_mem_scan {t : Text} {tok : Token} (h : tok ∈ Token.scan (strip t)) :
    BeginsTruly t tok.span := by
  obtain ⟨before, after, hscan⟩ := List.append_of_mem h
  have hinfix : [tok] <:+: Token.scan (strip t) := ⟨before, after, by simp [hscan]⟩
  obtain ⟨pre, gs, post, htext, hplace, hreads⟩ := Token.exists_layout_of_infix hinfix
  obtain ⟨g, rfl⟩ : ∃ g, gs = [g] := by
    match gs, hplace with
    | [g], _ => exact ⟨g, rfl⟩
  obtain ⟨c, cs, hg, -, -⟩ := hreads.1.lexeme
  -- the first character of the token stands behind the blanks before it
  have hstart : tok.span.start = Position.start.advance (pre ++ g.gap) := by
    rw [Glyph.place_cons, List.cons.injEq] at hplace
    rw [← hplace.1, Glyph.start_token, Position.advance_append]
  have hstrip : strip t = (pre ++ g.gap) ++ c :: (cs ++ post) := by
    rw [htext]
    simp [Glyph.spelling, hg]
  obtain ⟨n, hn⟩ := exists_origin (t := t) (k := (pre ++ g.gap).length) (by simp [hstrip])
  have htake : (strip t).take (pre ++ g.gap).length = pre ++ g.gap := by
    rw [hstrip, List.take_left]
  refine ⟨_, n, hn, by rw [htake, hstart], ?_⟩
  rw [← hn.line, lineAt, htake, hstart]

/-- **Stripping keeps the lines.** The stripped text has as many newlines as the text, and its lines
are those of the text without some of their characters. So the characters that are kept stand on
their lines, and the line of a token, and of the name of a module, is the line of its first
character in the text. -/
theorem strip_lines (t : Text) :
    (strip t).count '\n' = t.count '\n' ∧
    Forall₂ List.Sublist (strip t).lines t.lines ∧
    (keptPlaces t).Pairwise (· < ·) ∧
    (∀ k < (strip t).length, ∃ n, Origin t k n) ∧
    (∀ tok ∈ Token.scan (strip t), BeginsTruly t tok.span) ∧
    ∀ d ∈ ModuleDecl.ofSource (strip t), BeginsTruly t d.nameSpan := by
  have hkept := kept_strip t
  refine ⟨hkept.count_newline, hkept.lines, hkept.pairwise, fun k => exists_origin,
    fun tok => beginsTruly_of_mem_scan, fun d hd => ?_⟩
  obtain ⟨r, hrun, rfl⟩ := ModuleDecl.exists_run hd
  have hname : ⟨.identifier r.name, r.nameSpan⟩ ∈ r.tokens := by simp [DeclRun.tokens]
  exact beginsTruly_of_mem_scan (hrun.subset hname)

end DesignAtlas.Comment
