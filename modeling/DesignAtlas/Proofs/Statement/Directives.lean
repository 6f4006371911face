import DesignAtlas.Proofs.Token.Lines
import DesignAtlas.Statement

/-! # Conditional directives of a body and of its tokens

A body is read line by line, and the first directive of a line takes effect. The tokens of a text
are read without regard to lines. Both readers tell a directive by its name, but they take different
characters for one: a `$` belongs to a token's word, and punctuation behind the argument of a
condition belongs to the argument of a body's directive. Where the first directive of each line is
`Spelled` so that this makes no difference, the conditional directives that a body applies are those
of the tokens that lead their lines (`conditionals_applied`). -/

namespace DesignAtlas

/-- Whether the directive opens, divides or closes a conditional region. -/
def Directive.isConditional (d : Directive) : Bool :=
  ["ifdef", "ifndef", "elsif", "else", "endif"].contains d.name

theorem ConditionStack.apply_of_not_conditional {d : Directive} (h : d.isConditional = false)
    (s : ConditionStack) : s.apply d = (.ok (), s) := by
  have hname : ∀ w ∈ ["ifdef", "ifndef", "elsif", "else", "endif"], d.name ≠ w := by
    rintro w hw rfl
    rw [Directive.isConditional, List.contains_iff_mem.mpr hw] at h
    cases h
  simp only [List.forall_mem_cons] at hname
  simp [apply, hname]

/-- The conditional ones among some directives. -/
def Directive.conditionals (ds : List Directive) : List Directive := ds.filter isConditional

/-- The directives that take effect in a body, in order. -/
def Statement.applied (body : Text) : List Directive :=
  (Piece.ofBody body).filterMap Piece.directive?

/-- The diagnostics of a body are about those of its directives that are rejected. -/
theorem Statement.bodyDiagnostics_eq (module : String) (o : Options) (body : Text) :
    bodyDiagnostics module o body =
      ((ConditionStack.empty o.elsePolicy).rejected (applied body)).map fun d =>
        ⟨.unbalancedEndif, module, "`" ++ d.name⟩ := rfl

/-- The conditional directives of some tokens, in order. -/
def Token.conditionals (ts : List Token) : List Directive :=
  Directive.conditionals (ts.filterMap Token.directive?)

namespace Directive

/-- The directive behind a backtick ends where both readers end it: no `$` follows its name, and the
argument of a condition holds characters of words only. -/
def Spelled (t : Text) : Prop :=
  (t.dropWhile isDirectiveChar).head? ≠ some '$' ∧
    (["ifdef", "ifndef", "elsif"].contains (String.ofList (t.takeWhile isDirectiveChar)) = true →
      ((Text.trimStart (t.dropWhile isDirectiveChar)).takeWhile fun c => !isBlank c).all
        isWordChar = true)

instance (t : Text) : Decidable (Spelled t) := inferInstanceAs (Decidable (_ ∧ (_ → _)))

/-- The text behind the backtick of the first directive of a line; empty without one. -/
def behind (line : Text) : Text := line.drop ((cut line).1.length + 1)

/-- The first directive of each line is spelled alike for both readers. -/
def Clear (body : Text) : Prop := ∀ line ∈ Text.lines body, Spelled (behind line)

instance (body : Text) : Decidable (Clear body) :=
  inferInstanceAs (Decidable (∀ line ∈ Text.lines body, _))

/-! ### One directive -/

theorem isWordChar_of_isDirectiveChar {c : Char} (h : isDirectiveChar c = true) :
    isWordChar c = true := by
  unfold isWordChar
  unfold isDirectiveChar at h
  rw [h, Bool.true_or]

/-- No directive has a name with a `$`. -/
theorem extent?_of_dollar {name : String} (h : '$' ∈ name.toList) : extent? name = none := by
  have hfree : ∀ names : List String, (∀ w ∈ names, '$' ∉ w.toList) →
      names.contains name = false := by
    intro names hnames
    rw [← Bool.not_eq_true, List.contains_iff_mem]
    exact fun hmem => hnames name hmem h
  unfold extent?
  rw [hfree _ (by decide), hfree _ (by decide), hfree _ (by decide)]
  rfl

theorem takeWhile_isWordChar (t : Text) : t.takeWhile isWordChar =
    t.takeWhile isDirectiveChar ++ (t.dropWhile isDirectiveChar).takeWhile isWordChar := by
  conv_lhs => rw [← List.takeWhile_append_dropWhile (p := isDirectiveChar) (l := t)]
  rw [List.takeWhile_append_of_pos]
  exact fun c hc => isWordChar_of_isDirectiveChar (List.mem_takeWhile_imp hc)

theorem dropWhile_isWordChar (t : Text) :
    t.dropWhile isWordChar = (t.dropWhile isDirectiveChar).dropWhile isWordChar := by
  conv_lhs => rw [← List.takeWhile_append_dropWhile (p := isDirectiveChar) (l := t)]
  rw [List.dropWhile_append_of_pos]
  exact fun c hc => isWordChar_of_isDirectiveChar (List.mem_takeWhile_imp hc)

/-- A name that no `$` follows ends where the word ends. -/
theorem dropWhile_of_head? {t : Text} (h : (t.dropWhile isDirectiveChar).head? ≠ some '$') :
    (t.dropWhile isDirectiveChar).takeWhile isWordChar = [] ∧
      (t.dropWhile isDirectiveChar).dropWhile isWordChar = t.dropWhile isDirectiveChar := by
  cases hd : t.dropWhile isDirectiveChar with
  | nil => exact ⟨rfl, rfl⟩
  | cons c r =>
    have hc : isDirectiveChar c = false := by
      have := List.head?_dropWhile_not isDirectiveChar t
      rw [hd] at this
      simpa using this
    have hw : ¬ isWordChar c = true := by
      rw [hd] at h
      unfold isDirectiveChar at hc
      simp only [isWordChar, hc, Bool.false_or, beq_iff_eq]
      rintro rfl
      exact h rfl
    exact ⟨List.takeWhile_cons_of_neg hw, List.dropWhile_cons_of_neg hw⟩

/-- What is no directive in a body is none as a token. -/
theorem atFront?_of_ofText?_none {t : Text} (h : ofText? t = none) :
    atFront? ('\x60' :: t) = none := by
  have hname : extent? (String.ofList (t.takeWhile isDirectiveChar)) = none := by
    unfold ofText? at h
    simp only at h
    split at h
    · assumption
    all_goals cases h
  have hword : extent? (String.ofList (t.takeWhile isWordChar)) = none := by
    by_cases hd : (t.dropWhile isDirectiveChar).head? = some '$'
    · obtain ⟨r, hr⟩ := List.head?_eq_some_iff.mp hd
      refine extent?_of_dollar ?_
      rw [String.toList_ofList, takeWhile_isWordChar, hr, List.takeWhile_cons_of_pos (by decide)]
      simp
    · rw [takeWhile_isWordChar, (dropWhile_of_head? hd).1, List.append_nil]
      exact hname
  rw [atFront?_backtick]
  unfold Lexeme.directive
  simp only [hword]
  rfl

theorem dropWhile_isInlineBlank {t : Text} (h : '\n' ∉ t) :
    t.dropWhile isInlineBlank = Text.trimStart t := by
  induction t with
  | nil => rfl
  | cons c t ih =>
    rw [List.mem_cons, not_or] at h
    have hc : isInlineBlank c = isBlank c := by simp [isInlineBlank, Ne.symm h.1]
    rw [Text.trimStart, List.dropWhile_cons, List.dropWhile_cons, hc, ih h.2]
    rfl

/-- The argument of a condition is the same word for both readers. -/
theorem argument_eq {t : Text} (hline : '\n' ∉ t)
    (h : ∀ c ∈ (Text.trimStart t).takeWhile (fun c => !isBlank c), isWordChar c = true) :
    (Text.words (Text.trim t)).head?.getD [] =
      (t.dropWhile isInlineBlank).takeWhile isWordChar := by
  rw [dropWhile_isInlineBlank hline, Text.words_trim, ← Text.words_trimStart]
  have hflush := Text.flush_trimStart t
  generalize Text.trimStart t = v at h hflush ⊢
  by_cases hnil : v = []
  · rw [hnil]
    rfl
  · -- a blank or the end stops both runs of characters
    have hstop : ∀ c ∈ (v.dropWhile fun c => !isBlank c).head?, isWordChar c = false := by
      intro c hc
      have hc' := List.head?_dropWhile_not (fun c => !isBlank c) v
      rw [show (v.dropWhile fun c => !isBlank c).head? = some c from hc] at hc'
      exact isWordChar_of_isBlank (by simpa using hc')
    have hrun := (Text.span_exact h hstop).1
    rw [List.takeWhile_append_dropWhile] at hrun
    rw [Text.head?_words hflush hnil, Option.getD_some, hrun]

/-- A conditional directive with an argument states a condition. -/
theorem condition_of_word {d : Directive} (he : extent? d.name = some .word)
    (hd : d.isConditional = true) : ["ifdef", "ifndef", "elsif"].contains d.name = true := by
  have hall : ∀ w ∈ ["ifdef", "ifndef", "elsif", "else", "endif"], extent? w = some .word →
      ["ifdef", "ifndef", "elsif"].contains w = true := by decide
  exact hall d.name (List.contains_iff_mem.mp hd) he

/-- No conditional directive owns the rest of its line. -/
theorem not_conditional_of_line {d : Directive} (he : extent? d.name = some .line) :
    ¬ d.isConditional = true := by
  have hall : ∀ w ∈ ["ifdef", "ifndef", "elsif", "else", "endif"], extent? w ≠ some .line := by
    decide
  exact fun hd => hall d.name (List.contains_iff_mem.mp hd) he

/-- **Both readers find a directive behind a backtick**, of one name; if it is conditional, it has
one argument. -/
theorem exists_of_ofText? {t : Text} {d : Directive} (hline : '\n' ∉ t) (h : Spelled t)
    (hd : ofText? t = some d) : ∃ d', atFront? ('\x60' :: t) = some d' ∧ d'.name = d.name ∧
      (d.isConditional = true → d' = d) := by
  obtain ⟨hword, hrest⟩ := dropWhile_of_head? h.1
  have hafter : '\n' ∉ t.dropWhile isDirectiveChar :=
    fun hmem => hline ((List.dropWhile_sublist _).subset hmem)
  rw [atFront?_backtick]
  unfold Lexeme.directive
  unfold ofText? at hd
  simp only [takeWhile_isWordChar t, dropWhile_isWordChar t, hword, hrest, List.append_nil]
  simp only at hd
  cases he : extent? (String.ofList (t.takeWhile isDirectiveChar)) with
  | none =>
    rw [he] at hd
    cases hd
  | some e =>
    rw [he] at hd
    cases e with
    | bare =>
      obtain rfl := Option.some.inj hd
      exact ⟨_, rfl, rfl, fun _ => rfl⟩
    | word =>
      obtain rfl := Option.some.inj hd
      refine ⟨_, rfl, rfl, fun hc => ?_⟩
      rw [argument_eq hafter (List.all_eq_true.mp (h.2 (condition_of_word he hc)))]
    | line =>
      obtain rfl := Option.some.inj hd
      exact ⟨_, rfl, rfl, fun hc => absurd hc (not_conditional_of_line he)⟩

/-! ### The first directive of a line -/

/-- Directives of one name that are the same if they are conditional. -/
theorem filter_isConditional {d d' : Directive} (hname : d'.name = d.name)
    (h : d.isConditional = true → d' = d) :
    (some d').filter isConditional = (some d).filter isConditional := by
  have hsame : d'.isConditional = d.isConditional := by rw [isConditional, hname, isConditional]
  rw [Option.filter_some, Option.filter_some, hsame]
  split_ifs with hd
  · rw [h hd]
  · rfl

/-- **The first directive of a line is the same for both readers**, if it is a conditional one. -/
theorem cut_filter_eq {line : Text} (hline : '\n' ∉ line) (h : Spelled (behind line)) :
    (cut line).2.filter isConditional = (first? line).filter isConditional := by
  induction line with
  | nil => rfl
  | cons c t ih =>
    rw [List.mem_cons, not_or] at hline
    have hbehind : ∀ x, cut (c :: t) = (c :: (cut t).1, x) → behind (c :: t) = behind t := by
      intro x hx
      rw [behind, hx]
      rfl
    rw [first?_cons]
    by_cases hc : c = '\x60'
    · subst hc
      cases hd : ofText? t with
      | some d =>
        have hcut : cut ('\x60' :: t) = ([], some d) := by rw [cut, if_pos rfl, hd]
        have ht : behind ('\x60' :: t) = t := by rw [behind, hcut]; rfl
        obtain ⟨d', hfront, hname, hsame⟩ := exists_of_ofText? hline.2 (ht ▸ h) hd
        rw [hcut, hfront, Option.some_or, filter_isConditional hname hsame]
      | none =>
        have hcut : cut ('\x60' :: t) = ('\x60' :: (cut t).1, (cut t).2) := by
          rw [cut, if_pos rfl, hd]
        rw [hcut, atFront?_of_ofText?_none hd, Option.none_or]
        exact ih hline.2 (hbehind _ hcut ▸ h)
    · have hcut : cut (c :: t) = (c :: (cut t).1, (cut t).2) := by rw [cut, if_neg hc]
      rw [hcut, atFront?_of_ne hc, Option.none_or]
      exact ih hline.2 (hbehind _ hcut ▸ h)

end Directive

/-! ### The directives of a body -/

theorem Statement.applied_eq (body : Text) :
    applied body = (Text.lines body).filterMap fun line => (Directive.cut line).2 := by
  have hline : ∀ line : Text, (Piece.ofLine line).filterMap Piece.directive? =
      (Directive.cut line).2.toList := by
    intro line
    rw [Piece.ofLine, List.filterMap_append, List.filterMap_map, List.filterMap_cons]
    cases (Directive.cut line).2 <;> simp [Function.comp_def, Piece.directive?]
  unfold applied Piece.ofBody
  rw [List.filterMap_flatMap, List.filterMap_eq_flatMap_toList]
  simp only [hline]

/-- Leaving out elements changes nothing when none of them is mapped to anything. -/
theorem filterMap_filter_eq_iff {α β : Type} {p : α → Bool} {f : α → Option β} {l : List α} :
    (l.filter p).filterMap f = l.filterMap f ↔ ∀ a ∈ l, ∀ b, f a = some b → p a = true := by
  induction l with
  | nil => simp
  | cons a l ih =>
    rw [List.forall_mem_cons, ← ih]
    by_cases ha : p a = true
    · rw [List.filter_cons_of_pos ha, List.filterMap_cons, List.filterMap_cons]
      cases f a <;> simp [ha]
    · rw [List.filter_cons_of_neg ha, List.filterMap_cons]
      cases f a with
      | none => simp
      | some b =>
        -- one element is mapped to something and left out, so the lists differ in length
        have hle := ((List.filter_sublist (p := p) (l := l)).filterMap f).length_le
        refine iff_of_false (fun he => ?_) fun hall => ha (hall.1 b rfl)
        have hlen := congrArg List.length he
        rw [List.length_cons] at hlen
        omega

/-- **The conditional directives of a body are those of its tokens that lead their lines**, where
the first directive of each line is spelled alike for both readers. They are found line by line by
reading a token at each character, inside strings too; when no string and no escaped identifier
holds a backtick, they are found among the tokens of the body, and are all of the conditional ones
exactly when each of those leads its line. -/
theorem Statement.conditionals_applied {body : Text} (h : Directive.Clear body) :
    Directive.conditionals (applied body) =
        Directive.conditionals ((Text.lines body).filterMap Directive.first?) ∧
      (Token.Unquoted body →
        Directive.conditionals (applied body) =
            Token.conditionals (Token.leading (Token.scan body)) ∧
          (Directive.conditionals (applied body) = Token.conditionals (Token.scan body) ↔
            ∀ t ∈ Token.scan body, ∀ d, t.directive? = some d → d.isConditional = true →
              Token.Leads (Token.scan body) t)) := by
  have hlines : Directive.conditionals (applied body) =
      Directive.conditionals ((Text.lines body).filterMap Directive.first?) := by
    rw [applied_eq, Directive.conditionals, Directive.conditionals, List.filter_filterMap,
      List.filter_filterMap]
    refine List.filterMap_congr fun line hline => Directive.cut_filter_eq ?_ (h line hline)
    exact fun hmem => by simpa using Text.sep_of_mem_split hline _ hmem
  refine ⟨hlines, fun hq => ?_⟩
  have hleading : Directive.conditionals (applied body) =
      Token.conditionals (Token.leading (Token.scan body)) := by
    rw [hlines, Directive.filterMap_first?_lines hq]
    rfl
  refine ⟨hleading, ?_⟩
  rw [hleading, Token.leading]
  unfold Token.conditionals Directive.conditionals
  rw [List.filter_filterMap, List.filter_filterMap, filterMap_filter_eq_iff]
  simp only [Option.filter_eq_some_iff, decide_eq_true_eq, and_imp]

/-- The `endif` that shares its line closes no region in the body. -/
theorem Statement.conditionals_applied_shared_line :
    Directive.Clear "`ifdef A `endif\n`else".toList ∧
      Token.Unquoted "`ifdef A `endif\n`else".toList ∧
      Directive.conditionals (applied "`ifdef A `endif\n`else".toList) =
        Token.conditionals (Token.leading (Token.scan "`ifdef A `endif\n`else".toList)) := by
  have hclear : Directive.Clear "`ifdef A `endif\n`else".toList := by decide +kernel
  have hunquoted : Token.Unquoted "`ifdef A `endif\n`else".toList := by decide +kernel
  exact ⟨hclear, hunquoted, ((conditionals_applied hclear).2 hunquoted).1⟩

/-- Of two directives on a line, the tokens show both and the body applies one. -/
theorem Statement.applied_ne_of_shared_line :
    Directive.conditionals (applied "`ifdef A `endif".toList) ≠
      Token.conditionals (Token.scan "`ifdef A `endif".toList) := by
  decide +kernel

end DesignAtlas
