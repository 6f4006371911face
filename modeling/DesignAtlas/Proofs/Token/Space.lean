import DesignAtlas.Proofs.Token.Display
import DesignAtlas.Proofs.Token.Shorten
import DesignAtlas.Proofs.Token.Skeleton

/-! # A space behind a token

A token that stands at the end of a text may go on with what is written behind the text. If a space
is written in between, it does not, and it has another payload; a token that does not go on stays
the same (`Lexeme.SpaceMatters`). A token goes on when the two characters that meet are visible and
the second one is of a kind that the token takes (`Payload.goesOn`), and a string literal without an
end always does (`spaceMatters_recognise`). -/

namespace DesignAtlas

/-- Whether a token that ends with a visible character goes on with the visible character `y`. An
escaped word goes on up to a blank, and so does the argument of a directive that owns a line. -/
def Payload.goesOn (escaped : Bool) (y : Char) : Payload → Bool
  | .identifier _ | .keyword _ => escaped || isWordChar y
  | .number _ => isNumberChar y
  | .directive d =>
    isWordChar y || (Directive.extent? d.name == some .line && d.argument != "")
  | .macroUse _ => isWordChar y
  | .other c => c == '\x27' && isWordChar y
  | .string _ | .symbol _ => false

namespace Payload

/-- The text `b` goes on with the token that `t` ends with: the characters that meet are visible,
and the second one is of the kind that the token goes on with. -/
def RunsOn (escaped : Bool) (t b : Text) (p : Payload) : Prop :=
  ∃ x ∈ t.getLast?, ∃ y ∈ b.head?, isBlank x = false ∧ isBlank y = false ∧
    p.goesOn escaped y = true

instance (escaped : Bool) (t b : Text) (p : Payload) : Decidable (p.RunsOn escaped t b) :=
  decidable_of_iff (t.getLast?.any (fun x => b.head?.any fun y =>
    !isBlank x && (!isBlank y && p.goesOn escaped y)) = true) (by simp [RunsOn, Option.any_eq_true])

variable {e : Bool} {t b : Text} {p : Payload}

/-- A token that ends with visible characters goes on with the characters of one kind. -/
theorem runsOn_iff {q : Char → Bool} (hne : t ≠ []) (ht : ∀ c ∈ t, isBlank c = false)
    (hgo : ∀ y, isBlank y = false → p.goesOn e y = q y)
    (hq : ∀ y, q y = true → isBlank y = false) : p.RunsOn e t b ↔ ∃ y ∈ b.head?, q y = true := by
  constructor
  · rintro ⟨x, -, y, hy, -, hyv, hgoes⟩
    exact ⟨y, hy, by rw [← hgo y hyv, hgoes]⟩
  · rintro ⟨y, hy, hqy⟩
    exact ⟨t.getLast hne, List.getLast?_eq_some_getLast hne, y, hy, ht _ (List.getLast_mem hne),
      hq y hqy, by rw [hgo y (hq y hqy), hqy]⟩

theorem not_runsOn_of_blank (h : ∀ x ∈ t.getLast?, isBlank x = true) : ¬ p.RunsOn e t b := by
  rintro ⟨x, hx, y, -, hvisible, -⟩
  rw [h x hx] at hvisible
  cases hvisible

theorem not_runsOn (h : ∀ y, p.goesOn e y = false) : ¬ p.RunsOn e t b := by
  rintro ⟨x, -, y, -, -, -, hgoes⟩
  rw [h y] at hgoes
  cases hgoes

/-- Only the end of the first text counts. -/
theorem runsOn_append (hne : t ≠ []) {a : Text} : p.RunsOn e (a ++ t) b ↔ p.RunsOn e t b := by
  rw [RunsOn, RunsOn, List.getLast?_append_of_ne_nil _ hne]

theorem isOpen_of_ne {c : Char} (hc : c ≠ '\x22') : p.isOpen (c :: t) = false := by
  cases p <;> simp [isOpen, hc]

theorem goesOn_ofWord (w : String) (y : Char) : (ofWord w).goesOn e y = (e || isWordChar y) := by
  unfold ofWord
  split <;> rfl

end Payload

namespace Lexeme

/-! ### What a space changes in one token -/

/-- With a space in front of what follows, the token has another payload if `on` holds; else it has
the same, and what is left behind it is the same but for blanks at the front. -/
structure SpaceMatters (f : Text → Lexeme) (b : Text) (on : Prop) : Prop where
  payload_ne : on → (f b).payload ≠ (f (' ' :: b)).payload
  payload_eq : ¬ on → (f b).payload = (f (' ' :: b)).payload
  rest : ¬ on → (f b).rest.trimStart = (f (' ' :: b)).rest.trimStart

variable {b : Text}

theorem SpaceMatters.congr {f : Text → Lexeme} {on on' : Prop} (h : SpaceMatters f b on)
    (hon : on' ↔ on) : SpaceMatters f b on' := by rwa [propext hon]

theorem trimStart_space (t : Text) : Text.trimStart (' ' :: t) = Text.trimStart t :=
  List.dropWhile_cons_of_pos isBlank_space

/-- A token that nothing behind it belongs to. -/
theorem spaceMatters_of_rest {f : Text → Lexeme} (p : Payload) (hpayload : ∀ u, (f u).payload = p)
    (hrest : ∀ u, (f u).rest = u) : SpaceMatters f b False where
  payload_ne := nofun
  payload_eq _ := by rw [hpayload, hpayload]
  rest _ := by rw [hrest, hrest, trimStart_space]

/-- A token that goes on with characters of one kind, to which the space does not belong. -/
theorem spaceMatters_of_run {f : Text → Lexeme} {q : Char → Bool} (hq : q ' ' = false)
    {g : Text → Payload} (hg : ∀ w, g w = g [] → w = [])
    (hpayload : ∀ u, (f u).payload = g (u.takeWhile q)) (hrest : ∀ u, (f u).rest = u.dropWhile q) :
    SpaceMatters f b (∃ y ∈ b.head?, q y = true) := by
  have hspace : (' ' :: b).takeWhile q = [] := List.takeWhile_cons_of_neg (by simp [hq])
  have hstop : (¬ ∃ y ∈ b.head?, q y = true) → b.takeWhile q = [] ∧ b.dropWhile q = b := by
    intro hnot
    cases b with
    | nil => exact ⟨rfl, rfl⟩
    | cons y b =>
      have hy : ¬ q y = true := fun hy => hnot ⟨y, rfl, hy⟩
      exact ⟨List.takeWhile_cons_of_neg hy, List.dropWhile_cons_of_neg hy⟩
  constructor
  · rintro ⟨y, hy, hqy⟩ heq
    obtain ⟨b, rfl⟩ := List.head?_eq_some_iff.mp hy
    rw [hpayload, hpayload, hspace] at heq
    have := hg _ heq
    rw [List.takeWhile_cons_of_pos hqy] at this
    cases this
  · intro hnot
    rw [hpayload, hpayload, hspace, (hstop hnot).1]
  · intro hnot
    rw [hrest, hrest, (hstop hnot).2, List.dropWhile_cons_of_neg (by simp [hq]), trimStart_space]

/-! ### Words, numbers and characters -/

theorem ofWord_injective {v w : Text}
    (h : Payload.ofWord (String.ofList v) = Payload.ofWord (String.ofList w)) : v = w := by
  have := congrArg (fun p => p.display.toList) h
  simpa [Payload.display_ofWord] using this

variable {c : Char} {cs : Text} {p : Payload}

theorem spaceMatters_word (hc : isBlank c = false) (h : word c cs = ⟨p, c :: cs, []⟩) :
    SpaceMatters (fun u => word c (cs ++ u)) b (p.RunsOn false (c :: cs) b) := by
  simp only [word, Lexeme.mk.injEq, List.cons.injEq, true_and] at h
  obtain ⟨rfl, hcs, -⟩ := h
  have hword := List.takeWhile_eq_self_iff.mp hcs
  have hrun : SpaceMatters (fun u => word c (cs ++ u)) b (∃ y ∈ b.head?, isWordChar y = true) := by
    refine spaceMatters_of_run (by decide) (g := fun w => .ofWord (String.ofList (c :: (cs ++ w))))
      (fun w h => ?_) (fun u => ?_) fun u => ?_
    · simpa using ofWord_injective h
    · rw [word, List.takeWhile_append_of_pos hword]
    · rw [word, List.dropWhile_append_of_pos hword]
  have hall : ∀ d ∈ c :: cs, isBlank d = false :=
    List.forall_mem_cons.mpr ⟨hc, fun d hd => isBlank_of_isWordChar (hword d hd)⟩
  exact hrun.congr (Payload.runsOn_iff (by simp) hall (fun y _ => Payload.goesOn_ofWord _ y)
    fun y => isBlank_of_isWordChar)

theorem spaceMatters_number (hc : isBlank c = false) (h : number c cs = ⟨p, c :: cs, []⟩) :
    SpaceMatters (fun u => number c (cs ++ u)) b (p.RunsOn false (c :: cs) b) := by
  simp only [number, Lexeme.mk.injEq, List.cons.injEq, true_and] at h
  obtain ⟨rfl, hcs, -⟩ := h
  have hnumber := List.takeWhile_eq_self_iff.mp hcs
  have hrun : SpaceMatters (fun u => number c (cs ++ u)) b
      (∃ y ∈ b.head?, isNumberChar y = true) := by
    refine spaceMatters_of_run (by decide) (g := fun w => .number (String.ofList (c :: (cs ++ w))))
      (fun w h => ?_) (fun u => ?_) fun u => ?_
    · simpa using h
    · rw [number, List.takeWhile_append_of_pos hnumber]
    · rw [number, List.dropWhile_append_of_pos hnumber]
  have hall : ∀ d ∈ c :: cs, isBlank d = false :=
    List.forall_mem_cons.mpr ⟨hc, fun d hd => isBlank_of_isNumberChar (hnumber d hd)⟩
  exact hrun.congr (Payload.runsOn_iff (by simp) hall (fun _ _ => rfl)
    fun y => isBlank_of_isNumberChar)

/-- An escaped word that no blank ends yet. -/
theorem spaceMatters_escaped_end (hcs : ∀ d ∈ cs, (!isBlank d) = true) :
    SpaceMatters (fun u => escaped (cs ++ u)) b (∃ y ∈ b.head?, (!isBlank y) = true) := by
  have hpayload : ∀ u, (escaped (cs ++ u)).payload =
      .ofWord (String.ofList (cs ++ u.takeWhile fun d => !isBlank d)) := fun u => by
    rw [escaped, List.takeWhile_append_of_pos hcs]
  have hrest : ∀ u, (escaped (cs ++ u)).rest = (u.dropWhile fun d => !isBlank d).drop 1 :=
    fun u => by rw [escaped, List.dropWhile_append_of_pos hcs]
  have hblank : ∀ {y : Char} (u : Text), isBlank y = true →
      (y :: u).takeWhile (fun d => !isBlank d) = [] ∧
        ((y :: u).dropWhile fun d => !isBlank d).drop 1 = u := fun u hy => by
    rw [List.takeWhile_cons_of_neg (by simp [hy]), List.dropWhile_cons_of_neg (by simp [hy])]
    exact ⟨rfl, rfl⟩
  constructor
  · rintro ⟨y, hy, hvisible⟩ heq
    obtain ⟨b, rfl⟩ := List.head?_eq_some_iff.mp hy
    rw [hpayload, hpayload, (hblank _ isBlank_space).1] at heq
    have := ofWord_injective heq
    rw [List.takeWhile_cons_of_pos (p := fun d => !isBlank d) hvisible] at this
    simp at this
  · intro hnot
    rw [hpayload, hpayload, (hblank _ isBlank_space).1]
    cases b with
    | nil => rfl
    | cons y b => rw [(hblank b (by simpa using hnot)).1]
  · intro hnot
    rw [hrest, hrest, (hblank _ isBlank_space).2]
    cases b with
    | nil => rfl
    | cons y b =>
      have hy : isBlank y = true := by simpa using hnot
      rw [(hblank b hy).2]
      exact (List.dropWhile_cons_of_pos hy).symm

/-- An escaped word with the blank that ends it. -/
theorem spaceMatters_escaped_blank {z : Char} (hcs : ∀ d ∈ cs, (!isBlank d) = true)
    (hz : isBlank z = true) : SpaceMatters (fun u => escaped (cs ++ [z] ++ u)) b False := by
  have hspan : ∀ u, (cs ++ [z] ++ u).takeWhile (fun d => !isBlank d) = cs ∧
      (cs ++ [z] ++ u).dropWhile (fun d => !isBlank d) = z :: u := fun u => by
    rw [List.append_assoc]
    exact Text.span_exact (p := fun d => !isBlank d) hcs (by simp [hz])
  refine spaceMatters_of_rest (.ofWord (String.ofList cs)) (fun u => ?_) fun u => ?_
  · rw [escaped, (hspan u).1]
  · rw [escaped, (hspan u).2, List.drop_succ_cons, List.drop_zero]

theorem spaceMatters_escaped (h : escaped cs = ⟨p, '\x5c' :: cs, []⟩) :
    SpaceMatters (fun u => escaped (cs ++ u)) b (p.RunsOn true ('\x5c' :: cs) b) := by
  obtain ⟨w, a, rfl, hw, ha⟩ := Text.exists_span (fun d => !isBlank d) cs
  obtain ⟨h1, h2⟩ := Text.span_exact hw ha
  simp only [escaped, h1, h2, Lexeme.mk.injEq] at h
  obtain ⟨rfl, -, hrest⟩ := h
  cases a with
  | nil =>
    rw [List.append_nil]
    have hall : ∀ d ∈ '\x5c' :: w, isBlank d = false :=
      List.forall_mem_cons.mpr ⟨by decide, fun d hd => by simpa using hw d hd⟩
    refine (spaceMatters_escaped_end hw).congr
      (Payload.runsOn_iff (by simp) hall (fun y hy => ?_) fun y hy => ?_)
    · rw [Payload.goesOn_ofWord, hy]
      rfl
    · simpa using hy
  | cons z a =>
    obtain rfl : a = [] := hrest
    have hblank : isBlank z = true := by simpa using ha z rfl
    refine (spaceMatters_escaped_blank hw hblank).congr
      (iff_false_intro (Payload.not_runsOn_of_blank fun x hx => ?_))
    rw [← List.cons_append, List.getLast?_concat, Option.mem_some] at hx
    rwa [← hx]

/-! ### Directives -/

theorem dropWhile_isInlineBlank_space (u : Text) :
    (' ' :: u).dropWhile isInlineBlank = u.dropWhile isInlineBlank :=
  List.dropWhile_cons_of_pos (by decide)

/-- A space is of the line on which it stands. -/
theorem span_line_space (u : Text) :
    (' ' :: u).takeWhile (· != '\n') = ' ' :: u.takeWhile (· != '\n') ∧
      (' ' :: u).dropWhile (· != '\n') = u.dropWhile (· != '\n') :=
  ⟨List.takeWhile_cons_of_pos (by decide), List.dropWhile_cons_of_pos (by decide)⟩

section Directive

theorem takeWhile_of_payload_directive {t u : Text}
    (h : (directive t).payload = (directive u).payload) :
    t.takeWhile isWordChar = u.takeWhile isWordChar := by
  have hname : ∀ t, (directive t).payload = .macroUse (String.ofList (t.takeWhile isWordChar)) ∨
      ∃ a, (directive t).payload = .directive ⟨String.ofList (t.takeWhile isWordChar), a⟩ := by
    intro t
    unfold directive
    simp only
    split
    · exact .inl rfl
    all_goals exact .inr ⟨_, rfl⟩
  apply String.ofList_injective
  rcases hname t with ht | ⟨a, ht⟩ <;> rcases hname u with hu | ⟨a', hu⟩ <;> rw [ht, hu] at h
  · exact Payload.macroUse.inj h
  · cases h
  · cases h
  · exact (Directive.mk.inj (Payload.directive.inj h)).1

variable {n : Text} (hn : ∀ c ∈ n, isWordChar c = true)
include hn

/-- A space behind the whole name of a directive is not of its argument. -/
theorem directive_space {u : Text} (hu : ∀ c ∈ u.head?, isWordChar c = false) :
    (directive (n ++ u)).payload = (directive (n ++ ' ' :: u)).payload ∧
      (directive (n ++ u)).rest.trimStart = (directive (n ++ ' ' :: u)).rest.trimStart := by
  obtain ⟨h1, h2⟩ := Text.span_exact hn hu
  obtain ⟨h3, h4⟩ := span_name (a := u) hn
  unfold directive
  simp only [h1, h2, h3, h4]
  split <;> simp only [dropWhile_isInlineBlank_space, span_line_space,
    Text.collapse_cons_blank isBlank_space, trimStart_space, and_self]

theorem goesOn_name (y : Char) : (directive n).payload.goesOn false y = isWordChar y := by
  by_cases hext : Directive.extent? (String.ofList n) = none
  · rw [directive_macroUse hn hext]
    rfl
  · rw [directive_name hn hext]
    simp [Payload.goesOn]

/-- A directive with nothing but its name. -/
theorem spaceMatters_name :
    SpaceMatters (fun u => directive (n ++ u)) b (∃ y ∈ b.head?, isWordChar y = true) := by
  have hstop : (¬ ∃ y ∈ b.head?, isWordChar y = true) → ∀ c ∈ b.head?, isWordChar c = false :=
    fun hnot c hc => Bool.not_eq_true _ ▸ fun h => hnot ⟨c, hc, h⟩
  refine ⟨?_, fun hnot => (directive_space hn (hstop hnot)).1,
    fun hnot => (directive_space hn (hstop hnot)).2⟩
  rintro ⟨y, hy, hword⟩ heq
  obtain ⟨b, rfl⟩ := List.head?_eq_some_iff.mp hy
  have := takeWhile_of_payload_directive heq
  rw [List.takeWhile_append_of_pos hn, List.takeWhile_append_of_pos hn,
    List.takeWhile_cons_of_pos hword, List.takeWhile_cons_of_neg (by decide)] at this
  simp at this

section Argument

variable {g a : Text}

/-- The argument of a directive that owns one word stands behind blanks. -/
theorem directive_gap (hext : Directive.extent? (String.ofList n) = some .word) (hne : g ≠ [])
    (hg : ∀ c ∈ g, isInlineBlank c = true) (u : Text) :
    (directive (n ++ (g ++ u))).payload = .directive ⟨String.ofList n,
        String.ofList ((u.dropWhile isInlineBlank).takeWhile isWordChar)⟩ ∧
      (directive (n ++ (g ++ u))).rest = (u.dropWhile isInlineBlank).dropWhile isWordChar := by
  have hstop : ∀ c ∈ (g ++ u).head?, isWordChar c = false := by
    intro c hc
    rw [List.head?_append_of_ne_nil _ hne] at hc
    exact isWordChar_of_isBlank (isBlank_of_isInlineBlank (hg c (List.mem_of_mem_head? hc)))
  obtain ⟨h1, h2⟩ := Text.span_exact hn hstop
  unfold directive
  simp only [h1, h2, hext, List.dropWhile_append_of_pos hg, and_self]

theorem spaceMatters_gap (hext : Directive.extent? (String.ofList n) = some .word) (hne : g ≠ [])
    (hg : ∀ c ∈ g, isInlineBlank c = true) :
    SpaceMatters (fun u => directive (n ++ (g ++ u))) b False := by
  have h := directive_gap hn hext hne hg
  refine ⟨nofun, fun _ => ?_, fun _ => ?_⟩
  · rw [(h b).1, (h (' ' :: b)).1, dropWhile_isInlineBlank_space]
  · rw [(h b).2, (h (' ' :: b)).2, dropWhile_isInlineBlank_space]

theorem spaceMatters_argument (hext : Directive.extent? (String.ofList n) = some .word)
    (hne : g ≠ []) (hg : ∀ c ∈ g, isInlineBlank c = true) (hane : a ≠ [])
    (ha : ∀ c ∈ a, isWordChar c = true) :
    SpaceMatters (fun u => directive (n ++ (g ++ (a ++ u)))) b
      (∃ y ∈ b.head?, isWordChar y = true) := by
  have hblank : ∀ u, (a ++ u).dropWhile isInlineBlank = a ++ u := by
    intro u
    obtain ⟨d, a, rfl⟩ := List.exists_cons_of_ne_nil hane
    have := isBlank_of_isWordChar (ha d (by simp))
    exact List.dropWhile_cons_of_neg (by simp [isInlineBlank, this])
  refine spaceMatters_of_run (by decide)
    (g := fun w => .directive ⟨String.ofList n, String.ofList (a ++ w)⟩) (fun w h => ?_)
    (fun u => ?_) fun u => ?_
  · simpa using h
  · rw [(directive_gap hn hext hne hg _).1, hblank, List.takeWhile_append_of_pos ha]
  · rw [(directive_gap hn hext hne hg _).2, hblank, List.dropWhile_append_of_pos ha]

/-- The argument of a directive that owns its line. -/
theorem spaceMatters_line (hext : Directive.extent? (String.ofList n) = some .line)
    (hhead : ∀ c ∈ a.head?, isWordChar c = false) (hne : a ≠ [])
    (ha : ∀ c ∈ a, (c != '\n') = true) :
    SpaceMatters (fun u => directive (n ++ (a ++ u))) b
      (∃ x ∈ a.getLast?, ∃ y ∈ b.head?, isBlank x = false ∧ isBlank y = false) := by
  have hdir : ∀ u, (directive (n ++ (a ++ u))).payload = .directive ⟨String.ofList n,
        String.ofList (Text.collapse (a ++ u.takeWhile (· != '\n')))⟩ ∧
      (directive (n ++ (a ++ u))).rest = u.dropWhile (· != '\n') := by
    intro u
    have hstop : ∀ c ∈ (a ++ u).head?, isWordChar c = false := by
      rwa [List.head?_append_of_ne_nil _ hne]
    obtain ⟨h1, h2⟩ := Text.span_exact hn hstop
    unfold directive
    simp only [h1, h2, hext, List.takeWhile_append_of_pos ha, List.dropWhile_append_of_pos ha,
      and_self]
  -- what is visible is no newline
  have hmeet : (∃ x ∈ a.getLast?, ∃ y ∈ b.head?, isBlank x = false ∧ isBlank y = false) ↔
      ∃ x ∈ a.getLast?, ∃ y ∈ (b.takeWhile (· != '\n')).head?,
        isBlank x = false ∧ isBlank y = false := by
    cases b with
    | nil => rfl
    | cons y b =>
      by_cases hy : y = '\n'
      · subst hy
        simp [isBlank_newline]
      · rw [List.takeWhile_cons_of_pos (by simpa using hy)]
        rfl
  have hiff := Text.collapse_space_iff (a := a) (t := b.takeWhile (· != '\n'))
  rw [← hmeet] at hiff
  refine ⟨fun hon heq => ?_, fun hnot => ?_, fun _ => ?_⟩
  · rw [(hdir _).1, (hdir _).1, (span_line_space b).1, Payload.directive.injEq,
      Directive.mk.injEq] at heq
    exact hiff.mp (String.ofList_injective heq.2) hon
  · rw [(hdir _).1, (hdir _).1, (span_line_space b).1, hiff.mpr hnot]
  · rw [(hdir _).2, (hdir _).2, (span_line_space b).2]

theorem spaceMatters_directive_word (hext : Directive.extent? (String.ofList n) = some .word)
    (ha : ∀ c ∈ a.head?, isWordChar c = false) (hne : a ≠ [])
    (h : directive (n ++ a) = ⟨p, '\x60' :: (n ++ a), []⟩) :
    SpaceMatters (fun u => directive (n ++ (a ++ u))) b (p.RunsOn false a b) := by
  obtain ⟨g, v, rfl, hg, hv⟩ := Text.exists_span isInlineBlank a
  obtain ⟨h1, h2⟩ := Text.span_exact hn ha
  obtain ⟨h3, h4⟩ := Text.span_exact hg hv
  simp only [directive, h1, h2, h3, h4, hext, Lexeme.mk.injEq] at h
  obtain ⟨rfl, -, hrest⟩ := h
  have hword := List.dropWhile_eq_nil_iff.mp hrest
  -- the argument does not stand directly behind the name
  have hgne : g ≠ [] := by
    rintro rfl
    obtain ⟨c, v, rfl⟩ := List.exists_cons_of_ne_nil hne
    have := ha c rfl
    rw [hword c (by simp)] at this
    cases this
  by_cases hvne : v = []
  · subst hvne
    rw [List.append_nil]
    refine (spaceMatters_gap hn hext hgne hg).congr
      (iff_false_intro (Payload.not_runsOn_of_blank fun x hx => ?_))
    exact isBlank_of_isInlineBlank (hg x (List.mem_of_mem_getLast? hx))
  · simp only [List.append_assoc]
    refine (spaceMatters_argument hn hext hgne hg hvne hword).congr
      ((Payload.runsOn_append hvne).trans (Payload.runsOn_iff hvne (fun c hc => ?_) (fun y _ => ?_)
        fun y => isBlank_of_isWordChar))
    · exact isBlank_of_isWordChar (hword c hc)
    · simp [Payload.goesOn, hext]

theorem spaceMatters_directive_line (hext : Directive.extent? (String.ofList n) = some .line)
    (ha : ∀ c ∈ a.head?, isWordChar c = false) (hne : a ≠ [])
    (h : directive (n ++ a) = ⟨p, '\x60' :: (n ++ a), []⟩) :
    SpaceMatters (fun u => directive (n ++ (a ++ u))) b (p.RunsOn false a b) := by
  obtain ⟨h1, h2⟩ := Text.span_exact hn ha
  simp only [directive, h1, h2, hext, Lexeme.mk.injEq] at h
  obtain ⟨rfl, -, hrest⟩ := h
  have hline := List.dropWhile_eq_nil_iff.mp hrest
  refine (spaceMatters_line hn hext ha hne hline).congr ?_
  refine ⟨fun ⟨x, hx, y, hy, hxv, hyv, _⟩ => ⟨x, hx, y, hy, hxv, hyv⟩, ?_⟩
  rintro ⟨x, hx, y, hy, hxv, hyv⟩
  refine ⟨x, hx, y, hy, hxv, hyv, ?_⟩
  -- a visible character makes an argument
  have hargument : Text.collapse a ≠ [] := by
    intro hnil
    have hwords := Text.words_collapse a
    rw [hnil] at hwords
    have := Text.words_eq_nil_iff.mp hwords.symm x (List.mem_of_mem_getLast? hx)
    rw [hxv] at this
    cases this
  rw [List.takeWhile_eq_self_iff.mpr hline]
  simp [Payload.goesOn, hext, hargument]

end Argument

end Directive

theorem spaceMatters_directive (h : directive cs = ⟨p, '\x60' :: cs, []⟩) :
    SpaceMatters (fun u => directive (cs ++ u)) b (p.RunsOn false ('\x60' :: cs) b) := by
  obtain ⟨n, a, rfl, hn, ha⟩ := Text.exists_span isWordChar cs
  by_cases hne : a = []
  · subst hne
    rw [List.append_nil] at h ⊢
    have hall : ∀ c ∈ '\x60' :: n, isBlank c = false :=
      List.forall_mem_cons.mpr ⟨by decide, fun c hc => isBlank_of_isWordChar (hn c hc)⟩
    refine (spaceMatters_name hn).congr
      (Payload.runsOn_iff (by simp) hall (fun y _ => ?_) fun y => isBlank_of_isWordChar)
    rw [← goesOn_name hn, h]
  obtain ⟨h1, h2⟩ := Text.span_exact hn ha
  simp only [List.append_assoc]
  rw [← List.cons_append, Payload.runsOn_append hne]
  cases hext : Directive.extent? (String.ofList n) with
  | none => exact absurd (by simpa [directive, h1, h2, hext] using congrArg rest h) hne
  | some e =>
    cases e with
    | bare => exact absurd (by simpa [directive, h1, h2, hext] using congrArg rest h) hne
    | word => exact spaceMatters_directive_word hn hext ha hne h
    | line => exact spaceMatters_directive_line hn hext ha hne h

/-! ### String literals -/

theorem splitString_space (u : Text) : (splitString (' ' :: u)).1 = ' ' :: (splitString u).1 := by
  cases u <;> simp [splitString]

/-- A string literal without an end goes on with all that follows it; a backslash at its end keeps
one more character. -/
theorem splitString_append_open {t : Text} (h : (splitString t).2 = []) :
    (∀ u, (splitString (t ++ u)).1 = t ++ (splitString u).1) ∨
      ∀ d u, (splitString (t ++ d :: u)).1 = t ++ d :: (splitString u).1 := by
  fun_induction splitString t with
  | case1 => exact .inl fun u => rfl
  | case2 => cases h
  | case3 c hc =>
    by_cases hback : c = '\x5c'
    · exact .inr fun d u => by simp [splitString, hback]
    · exact .inl fun u => by cases u <;> simp [splitString, hc, hback]
  | case4 => cases h
  | case5 d t hc ih =>
    refine (ih h).imp (fun ih u => ?_) fun ih e u => ?_
    · simp only [List.cons_append, splitString, hc, ↓reduceIte, ih]
    · simp only [List.cons_append, splitString, hc, ↓reduceIte, ih]
  | case6 c d t hc hc' ih =>
    refine (ih h).imp (fun ih u => ?_) fun ih e u => ?_
    · rw [List.cons_append, List.cons_append, splitString, if_neg hc, if_neg hc',
        ← List.cons_append, ih]
      rfl
    · rw [List.cons_append, List.cons_append, splitString, if_neg hc, if_neg hc',
        ← List.cons_append, ih]
      rfl

theorem spaceMatters_open (h : (splitString cs).2 = []) :
    SpaceMatters (fun u => string (cs ++ u)) b True := by
  refine ⟨fun _ heq => ?_, fun hnot => absurd trivial hnot, fun hnot => absurd trivial hnot⟩
  have hcontent : (splitString (cs ++ b)).1 = (splitString (cs ++ ' ' :: b)).1 :=
    String.ofList_injective (Payload.string.inj heq)
  rcases splitString_append_open h with hall | hall
  · rw [hall, hall, splitString_space] at hcontent
    simpa using congrArg List.length hcontent
  rw [hall] at hcontent
  cases b with
  | nil =>
    have hcs := splitString_append cs
    rw [h, List.append_nil] at hcs
    rw [List.append_nil, hcs] at hcontent
    simp at hcontent
  | cons d u =>
    rw [hall, List.append_cancel_left_eq, List.cons.injEq] at hcontent
    obtain ⟨rfl, htail⟩ := hcontent
    rw [splitString_space] at htail
    simpa using congrArg List.length htail

theorem spaceMatters_string (h : string cs = ⟨p, '\x22' :: cs, []⟩) :
    SpaceMatters (fun u => string (cs ++ u)) b (p.isOpen ('\x22' :: cs) = true) := by
  have happ := splitString_append cs
  simp only [string, Lexeme.mk.injEq] at h
  obtain ⟨rfl, -, hrest⟩ := h
  cases hclose : (splitString cs).2 with
  | nil =>
    rw [hclose, List.append_nil] at happ
    refine (spaceMatters_open hclose).congr (iff_true_intro ?_)
    simp [Payload.isOpen, happ]
  | cons q after =>
    rw [hclose] at hrest happ
    obtain rfl : after = [] := hrest
    have hne : (splitString cs).2 ≠ [] := by rw [hclose]; exact List.cons_ne_nil _ _
    have hsplit := splitString_append_right hne
    rw [hclose] at hsplit
    refine (spaceMatters_of_rest (.string (String.ofList (splitString cs).1)) (fun u => ?_)
      fun u => ?_).congr (iff_false_intro ?_)
    · rw [string, hsplit]
    · rw [string, hsplit]
      rfl
    · intro hopen
      simp only [Payload.isOpen, String.toList_ofList, beq_iff_eq, List.cons.injEq, true_and]
        at hopen
      rw [← hopen] at happ
      simp at happ

/-! ### Single characters -/

theorem recognise_apostrophe (u : Text) : recognise '\x27' u =
    if u.head?.any isWordChar = true then number '\x27' u else single '\x27' u := by
  simp [recognise, beginsNumber, show isWordStart '\x27' = false by decide]

theorem spaceMatters_apostrophe :
    SpaceMatters (fun u => recognise '\x27' u) b (∃ y ∈ b.head?, isWordChar y = true) := by
  have hspace : recognise '\x27' (' ' :: b) = single '\x27' (' ' :: b) := by
    rw [recognise_apostrophe, List.head?_cons, Option.any_some]
    exact if_neg (by decide)
  have hstop : (¬ ∃ y ∈ b.head?, isWordChar y = true) →
      recognise '\x27' b = single '\x27' b := fun hnot => by
    rw [recognise_apostrophe, if_neg (by simpa [Option.any_eq_true] using hnot)]
  refine ⟨fun hon heq => ?_, fun hnot => ?_, fun hnot => ?_⟩
  · rw [hspace, recognise_apostrophe, if_pos (by simpa [Option.any_eq_true] using hon)] at heq
    cases heq
  · rw [hspace, hstop hnot]
    rfl
  · rw [hspace, hstop hnot]
    exact (trimStart_space b).symm

/-- Any other character is a token whatever follows. -/
theorem spaceMatters_single (h1 : c ≠ '\x60') (h2 : ¬ isWordStart c = true) (h3 : c ≠ '\x5c')
    (h4 : ¬ beginsNumber c [] = true) (h5 : c ≠ '\x22') :
    SpaceMatters (recognise c) b ((Payload.ofChar c).RunsOn false [c] b) := by
  by_cases happ : c = '\x27'
  · subst happ
    refine spaceMatters_apostrophe.congr (Payload.runsOn_iff (by simp)
      (List.forall_mem_singleton.mpr (by decide)) (fun y _ => ?_) fun y => isBlank_of_isWordChar)
    rw [show Payload.ofChar '\x27' = .other '\x27' by decide]
    rfl
  · have hsingle : ∀ u, recognise c u = single c u := by
      intro u
      have hnumber : ¬ beginsNumber c u = true := by
        rw [beginsNumber_nil] at h4
        simpa [beginsNumber, happ] using h4
      rw [recognise, if_neg h1, if_neg h2, if_neg h3, if_neg hnumber, if_neg h5]
    refine (spaceMatters_of_rest (.ofChar c) (fun u => by rw [hsingle]; rfl)
      fun u => by rw [hsingle]; rfl).congr (iff_false_intro (Payload.not_runsOn fun y => ?_))
    unfold Payload.ofChar
    split
    · rfl
    · simp [Payload.goesOn, happ]

/-- **What a space changes in a token** that stands at the end of a text. -/
theorem spaceMatters_recognise (hc : isBlank c = false) (h : recognise c cs = ⟨p, c :: cs, []⟩) :
    SpaceMatters (fun u => recognise c (cs ++ u)) b
      (p.isOpen (c :: cs) = true ∨ p.RunsOn (c == '\x5c') (c :: cs) b) := by
  have hclosed : c ≠ '\x22' → (p.isOpen (c :: cs) = true ∨ p.RunsOn (c == '\x5c') (c :: cs) b ↔
      p.RunsOn (c == '\x5c') (c :: cs) b) := fun hquote =>
    or_iff_right (by rw [Payload.isOpen_of_ne hquote]; exact Bool.false_ne_true)
  unfold recognise at h
  split_ifs at h with h1 h2 h3 h4 h5
  · subst h1
    exact (spaceMatters_directive h).congr (hclosed (by decide))
  · have hrec : ∀ u, recognise c u = word c u := fun u => by rw [recognise, if_neg h1, if_pos h2]
    have hquote : c ≠ '\x22' := by rintro rfl; cases h2
    have hback : c ≠ '\x5c' := by rintro rfl; cases h2
    rw [hclosed hquote, beq_false_of_ne hback]
    simp only [hrec]
    exact spaceMatters_word hc h
  · subst h3
    exact (spaceMatters_escaped h).congr (hclosed (by decide))
  · have hquote : c ≠ '\x22' := by rintro rfl; simp [beginsNumber] at h4
    -- an apostrophe that begins a number has a character of the number behind it
    have hrec : ∀ u, recognise c (cs ++ u) = number c (cs ++ u) := fun u => by
      have hbegins : beginsNumber c (cs ++ u) = true := by
        by_cases hne : cs = []
        · subst hne
          rw [beginsNumber_nil] at h4
          simp [beginsNumber, h4]
        · rw [beginsNumber_shorten hne, h4]
      rw [recognise, if_neg h1, if_neg h2, if_neg h3, if_pos hbegins]
    rw [hclosed hquote, beq_false_of_ne h3]
    simp only [hrec]
    exact spaceMatters_number hc h
  · subst h5
    have hrun : ¬ p.RunsOn ('\x22' == '\x5c') ('\x22' :: cs) b := by
      obtain rfl : Payload.string _ = p := congrArg payload h
      exact Payload.not_runsOn fun _ => rfl
    exact (spaceMatters_string h).congr (or_iff_left hrun)
  · simp only [single, Lexeme.mk.injEq, List.cons.injEq, true_and] at h
    obtain ⟨rfl, rfl, -⟩ := h
    rw [hclosed h5, beq_false_of_ne h3]
    exact spaceMatters_single h1 h2 h3 h4 h5

end Lexeme

end DesignAtlas
