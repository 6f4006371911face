import DesignAtlas.Proofs.Text.Normal
import DesignAtlas.Proofs.Token.Word
import DesignAtlas.Statement

/-! # Names and conditions without blanks

The names that tokens carry have no blanks, and neither have the arguments of the directives that own
one word (`Token.allTidy_scan`). These are the directives that state conditions, so a condition
on a stack is displayed as its directive alone, or with one space and an argument without blanks
(`ConditionStack.isCondition_of_mem_snapshot`). Both readers of directives, that of tokens and that
of lines (`Directive.tidy_of_ofText?`), keep a stack so. -/

namespace DesignAtlas

/-- If the directive owns one word, then its argument has no blanks. -/
def Directive.Tidy (d : Directive) : Prop :=
  Directive.extent? d.name = some .word → Unbroken d.argument

/-- The name of an identifier has no blanks, and a directive is tidy. -/
def Payload.Tidy : Payload → Prop
  | .identifier name => Unbroken name
  | .directive d => d.Tidy
  | _ => True

/-- The text is a directive that states a condition, alone or with its argument. -/
def IsCondition (s : String) : Prop :=
  ∃ k : ConditionKind, s = "`" ++ k.word ∨
    ∃ a : String, a ≠ "" ∧ Unbroken a ∧ s = "`" ++ k.word ++ " " ++ a

/-- A run of word characters has no blanks. -/
theorem unbroken_takeWhile_isWordChar (t : Text) :
    Unbroken (String.ofList (t.takeWhile isWordChar)) :=
  unbroken_ofList.mpr fun _ hc => isBlank_of_isWordChar (List.mem_takeWhile_imp hc)

/-! ### Tokens -/

theorem Payload.tidy_ofWord {w : String} (h : Unbroken w) : (ofWord w).Tidy := by
  unfold ofWord
  split
  · trivial
  · exact h

namespace Lexeme

theorem tidy_directive (t : Text) : (directive t).payload.Tidy := by
  unfold directive
  simp only
  split <;> rename_i he
  · trivial
  · intro h
    rw [he] at h
    cases h
  · exact fun _ => unbroken_takeWhile_isWordChar _
  · intro h
    rw [he] at h
    cases h

/-- **What is recognised is tidy.** -/
theorem tidy_recognise (c : Char) (t : Text) : (recognise c t).payload.Tidy := by
  unfold recognise
  split_ifs with _ hw
  · exact tidy_directive t
  · refine Payload.tidy_ofWord (unbroken_ofList.mpr fun d hd => ?_)
    rcases List.mem_cons.mp hd with rfl | hd
    · exact isBlank_of_isWordChar (isWordChar_of_isWordStart hw)
    · exact isBlank_of_isWordChar (List.mem_takeWhile_imp hd)
  · refine Payload.tidy_ofWord (unbroken_ofList.mpr fun d hd => ?_)
    simpa using List.mem_takeWhile_imp hd
  · trivial
  · trivial
  · unfold single Payload.ofChar
    simp only
    split <;> trivial

end Lexeme

namespace Token

/-- What holds of every payload recognised holds of every token of a text. -/
theorem forall_mem_scanFrom {P : Payload → Prop}
    (h : ∀ c t, P (Lexeme.recognise c t).payload) :
    ∀ (p : Position) (t : Text), ∀ u ∈ scanFrom p t, P u.payload := by
  intro p t
  fun_induction scanFrom p t with
  | case1 => exact fun _ hu => nomatch hu
  | case2 p t tok rest hnext ih =>
    intro u hu
    rcases List.mem_cons.mp hu with rfl | hu
    · unfold next? at hnext
      split at hnext
      · cases hnext
      · cases hnext
        exact h _ _
    · exact ih u hu

/-- All the tokens are tidy. -/
def AllTidy (ts : List Token) : Prop := ∀ t ∈ ts, t.payload.Tidy

theorem AllTidy.of_run {ts us : List Token} (h : AllTidy us) (hts : ts <:+: us) : AllTidy ts :=
  fun t ht => h t (hts.subset ht)

/-- **The tokens of a text are tidy.** -/
theorem allTidy_scan (text : Text) : AllTidy (scan text) :=
  forall_mem_scanFrom Lexeme.tidy_recognise _ text

/-- The name that a tidy token carries. -/
theorem unbroken_of_identifier? {t : Token} (h : t.payload.Tidy) {name : String}
    (hname : t.identifier? = some name) : Unbroken name := by
  unfold identifier? Payload.identifier? at hname
  split at hname
  · rename_i hp
    cases hname
    rw [hp] at h
    exact h
  · cases hname

end Token

/-! ### Lines -/

/-- A directive read from a line of a body is tidy. -/
theorem Directive.tidy_of_ofText? {t : Text} {d : Directive} (h : ofText? t = some d) : d.Tidy := by
  unfold ofText? at h
  simp only at h
  split at h <;> rename_i he
  · cases h
  · cases h
    intro hw
    rw [he] at hw
    cases hw
  · cases h
    intro _
    refine unbroken_ofList.mpr fun c hc => ?_
    cases hwords : Text.words (Text.trim (t.dropWhile isDirectiveChar)) with
    | nil =>
      rw [hwords] at hc
      cases hc
    | cons w ws =>
      rw [hwords] at hc
      exact (Text.solid_of_mem_words (hwords ▸ List.mem_cons_self)).2 c hc
  · cases h
    intro hw
    rw [he] at hw
    cases hw

theorem Directive.tidy_of_cut : ∀ {t : Text} {d : Directive}, (cut t).2 = some d → d.Tidy
  | [], _, h => nomatch h
  | c :: t, d, h => by
    rw [cut] at h
    split_ifs at h
    · cases he : ofText? t with
      | some e =>
        rw [he] at h
        cases h
        exact tidy_of_ofText? he
      | none =>
        rw [he] at h
        exact tidy_of_cut h
    · exact tidy_of_cut h

theorem Piece.tidy_of_mem_ofBody {body : Text} {d : Directive}
    (h : .directive d ∈ Piece.ofBody body) : d.Tidy := by
  obtain ⟨line, -, hd⟩ := List.mem_flatMap.mp h
  refine Directive.tidy_of_cut (t := line) ?_
  simpa [ofLine] using hd

/-! ### Stacks -/

/-- A condition whose argument has no blanks is displayed with at most one. -/
theorem Condition.isCondition_display {c : Condition} (h : Unbroken c.argument) :
    IsCondition c.display := by
  refine ⟨c.kind, ?_⟩
  unfold display Directive.display
  simp only
  split_ifs with hc
  · exact Or.inl rfl
  · exact Or.inr ⟨c.argument, hc, h, rfl⟩

namespace ConditionStack

/-- The arguments of the open conditions have no blanks. -/
def Tidy (s : ConditionStack) : Prop := ∀ c ∈ s.regions, Unbroken c.argument

theorem tidy_empty (policy : ElsePolicy) : (empty policy).Tidy := fun _ h => nomatch h

theorem isCondition_of_mem_snapshot {s : ConditionStack} (h : s.Tidy) :
    ∀ c ∈ s.snapshot, IsCondition c := by
  intro c hc
  obtain ⟨r, hr, rfl⟩ := List.mem_map.mp hc
  exact Condition.isCondition_display (h r (List.mem_reverse.mp hr))

theorem Tidy.push {s : ConditionStack} (h : s.Tidy) {c : Condition} (hc : Unbroken c.argument) :
    (s.push c).Tidy := by
  intro r hr
  rcases List.mem_cons.mp hr with rfl | hr
  · exact hc
  · exact h r hr

theorem Tidy.amend {s : ConditionStack} (h : s.Tidy) {f : Condition → Condition}
    (hf : ∀ c, Unbroken c.argument → Unbroken (f c).argument) : (s.amend f).Tidy := by
  unfold ConditionStack.amend
  split
  · rename_i _ c cs _ hcs
    intro r hr
    rcases List.mem_cons.mp hr with rfl | hr
    · exact hf c (h c (hcs ▸ List.mem_cons_self))
    · exact h r (hcs ▸ List.mem_cons_of_mem c hr)
  · exact h

/-- **A tidy directive keeps a stack tidy.** -/
theorem Tidy.advance {s : ConditionStack} (h : s.Tidy) {d : Directive} (hd : d.Tidy) :
    (s.advance d).Tidy := by
  have hword : ∀ n, Directive.extent? n = some .word → d.name = n → Unbroken d.argument :=
    fun n hn hdn => hd (hdn ▸ hn)
  unfold ConditionStack.advance apply
  split_ifs with h1 h2 h3 h4 h5
  · exact h.push (hword "ifdef" (by decide) h1)
  · exact h.push (hword "ifndef" (by decide) h2)
  · exact fun r hm => h r (List.mem_of_mem_tail hm)
  · refine h.amend fun c hc => ?_
    unfold Condition.negate
    split <;> exact hc
  · exact h.amend fun _ _ => hword "elsif" (by decide) h5
  · exact h

end ConditionStack

end DesignAtlas
