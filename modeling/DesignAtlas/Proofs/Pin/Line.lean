import DesignAtlas.Pin.List
import DesignAtlas.Proofs.Pin.Form

/-! # Lines of a pin list

A line of a printed pin list is a pin form or a conditional directive. Every line is sealed
(`PinLine.sealed_print`) and acts on a pin list as the item read from it (`PinLine.foldl_step_line`),
so lines one after the other act in turn (`PinLine.foldl_step`): a form declares its pin, a directive
opens, divides or closes a region. -/

namespace DesignAtlas

/-! ### Directives as they are read -/

namespace Lexeme

variable {name u : Text}

/-- A directive that owns nothing. -/
theorem directive_of_bare (hname : name.all isWordChar = true)
    (hu : ∀ c ∈ u.head?, isWordChar c = false)
    (he : Directive.extent? (String.ofList name) = some .bare) :
    directive (name ++ u) = ⟨.directive ⟨String.ofList name, ""⟩, '\x60' :: name, u⟩ := by
  obtain ⟨htake, hdrop⟩ := Text.span_exact (List.all_eq_true.mp hname) hu
  unfold directive
  simp only [htake, hdrop, he]

/-- A directive that owns a word, with a space before the word. -/
theorem directive_of_word (hname : name.all isWordChar = true) (w : Word)
    (hu : ∀ c ∈ u.head?, isWordChar c = false)
    (he : Directive.extent? (String.ofList name) = some .word) :
    directive (name ++ ' ' :: (w.text ++ u)) =
      ⟨.directive ⟨String.ofList name, w.name⟩, '\x60' :: name ++ [' '] ++ w.text, u⟩ := by
  have hspace : ∀ c ∈ (' ' :: (w.text ++ u)).head?, isWordChar c = false := by
    intro c hc
    cases hc
    decide
  obtain ⟨htake, hdrop⟩ := Text.span_exact (List.all_eq_true.mp hname) hspace
  have hfirst : ∀ c ∈ (w.text ++ u).head?, isInlineBlank c = false := by
    intro c hc
    rw [List.head?_append_of_ne_nil _ w.text_ne_nil] at hc
    have hblank : isBlank c = false := Word.isBlank_of_mem (List.mem_of_head? hc)
    simp [isInlineBlank, hblank]
  have hgap := Text.span_exact (p := isInlineBlank) (t := [' '])
    (by simp [isInlineBlank, isBlank_space]) hfirst
  obtain ⟨hword, hrest⟩ := Text.span_exact (fun _ hc => w.isWordChar_of_mem hc) hu
  rw [List.singleton_append] at hgap
  unfold directive
  simp only [htake, hdrop, he, hgap.1, hgap.2, hword, hrest]
  rfl

end Lexeme

/-! ### Lines -/

/-- The directives that open a region. -/
inductive Opening where
  | ifdef
  | ifndef
  deriving DecidableEq, Repr

namespace Opening

/-- The directive that states the opposite. -/
def flip : Opening → Opening
  | ifdef => ifndef
  | ifndef => ifdef

/-- The condition that the directive states. -/
def kind : Opening → ConditionKind
  | ifdef => .ifdef
  | ifndef => .ifndef

end Opening

/-- The condition of a region as it is listed. -/
def Opening.condition (k : Opening) (symbol : Word) : String :=
  "`" ++ k.kind.word ++ " " ++ symbol.name

/-- A line of a printed pin list. -/
inductive PinLine where
  | declaration (d : PinForm)
  | opening (k : Opening) (symbol : Word)
  | alternative
  | ending

namespace PinLine

/-- The line as it is written. -/
def print : PinLine → Text
  | declaration d => d.print
  | opening k symbol => '\x60' :: (k.kind.word.toList ++ ' ' :: symbol.text) ++ ['\n']
  | alternative => "`else\n".toList
  | ending => "`endif\n".toList

/-- Lines as they are written. -/
def printAll (ls : List PinLine) : Text := ls.flatMap print

/-- Reads the line. -/
def run (module : String) (s : PinList) : PinLine → PinList
  | declaration d => s.stepDecl d.decl
  | opening k symbol => s.stepDirective module ⟨k.kind.word, symbol.name⟩
  | alternative => s.stepDirective module ⟨"else", ""⟩
  | ending => s.stepDirective module ⟨"endif", ""⟩

/-- A directive on a line of its own is sealed and scanned as one token. -/
theorem scanFrom_directive {d : Directive} {t : Text}
    (h : ∀ u, Lexeme.directive (t ++ '\n' :: u) = ⟨.directive d, '\x60' :: t, '\n' :: u⟩) :
    Text.Sealed ('\x60' :: t ++ ['\n']) ∧ ∀ p, ∃ k : Token,
      Token.scanFrom p ('\x60' :: t ++ ['\n']) = [k] ∧ k.payload = .directive d := by
  let g : Glyph := ⟨[], .directive d, '\x60' :: t⟩
  have hspell : Glyph.spell [g] = '\x60' :: t := by simp [g, Glyph.spelling]
  have hreads : ∀ u, Glyph.ReadAll [g] (['\n'] ++ u) := fun u => by
    refine ⟨⟨blank_nil, '\x60', t, rfl, by decide, ?_⟩, trivial⟩
    exact h u
  rw [← hspell]
  refine ⟨Text.sealed_of_readAll blank_newline hreads, fun p => ⟨g.token p, ?_, rfl⟩⟩
  exact Glyph.scanFrom_spell_blank (hreads []) blank_newline p

theorem newline_stops (u : Text) : ∀ c ∈ ('\n' :: u).head?, isWordChar c = false := by
  intro c hc
  cases hc
  decide

/-- A directive on a line of its own acts on a pin list. -/
theorem foldl_step_directive (module : String) {d : Directive} {t : Text}
    (h : ∀ v, Lexeme.directive (t ++ '\n' :: v) = ⟨.directive d, '\x60' :: t, '\n' :: v⟩)
    (p : Position) (us : List Token) (s : PinList) (text : Text) :
    (PinItem.ofTokens (Token.scanFrom p ('\x60' :: t ++ ['\n']) ++ us)).foldl
        (PinList.step module text) s =
      (PinItem.ofTokens us).foldl (PinList.step module text) (s.stepDirective module d) := by
  obtain ⟨k, hk, hp⟩ := (scanFrom_directive h).2 p
  rw [hk, List.singleton_append, PinItem.ofTokens_directive hp, List.foldl_cons]
  rfl

theorem directive_opening (k : Opening) (symbol : Word) (u : Text) :
    Lexeme.directive (k.kind.word.toList ++ ' ' :: symbol.text ++ '\n' :: u) =
      ⟨.directive ⟨k.kind.word, symbol.name⟩, '\x60' :: (k.kind.word.toList ++ ' ' :: symbol.text),
        '\n' :: u⟩ := by
  have hname : k.kind.word.toList.all isWordChar = true := by cases k <;> decide
  have he : Directive.extent? (String.ofList k.kind.word.toList) = some .word := by
    cases k <;> decide
  have := Lexeme.directive_of_word hname symbol (newline_stops u) he
  rw [String.ofList_toList] at this
  simpa only [List.append_assoc, List.cons_append, List.nil_append] using this

theorem directive_else (u : Text) : Lexeme.directive ("else".toList ++ '\n' :: u) =
    ⟨.directive ⟨"else", ""⟩, '\x60' :: "else".toList, '\n' :: u⟩ :=
  Lexeme.directive_of_bare (by decide) (newline_stops u) (by decide)

theorem directive_ending (u : Text) : Lexeme.directive ("endif".toList ++ '\n' :: u) =
    ⟨.directive ⟨"endif", ""⟩, '\x60' :: "endif".toList, '\n' :: u⟩ :=
  Lexeme.directive_of_bare (by decide) (newline_stops u) (by decide)

/-- **A line is sealed.** -/
theorem sealed_print (l : PinLine) : l.print.Sealed := by
  cases l with
  | declaration d => exact d.sealed_print
  | opening k symbol => exact (scanFrom_directive (directive_opening k symbol)).1
  | alternative => exact (scanFrom_directive directive_else).1
  | ending => exact (scanFrom_directive directive_ending).1

/-- **A line acts as the item read from it,** with all other items behind it. -/
theorem foldl_step_line (module : String) (l : PinLine) (a u : Text) (us : List Token)
    (s : PinList) :
    (PinItem.ofTokens (Token.scanFrom (Position.start.advance a) l.print ++ us)).foldl
        (PinList.step module (a ++ l.print ++ u)) s =
      (PinItem.ofTokens us).foldl (PinList.step module (a ++ l.print ++ u)) (l.run module s) := by
  cases l with
  | declaration d =>
    have hne : d.run (Position.start.advance a) ≠ [] := by simp [PinForm.run]
    have hitems := PinItem.ofTokens_append_comma hne (d.joins_run _)
      (t := d.commaToken (Position.start.advance a)) rfl us
    have hread := d.ofTokens?_run a u
    rw [List.append_cons, ← d.scanFrom_print] at hitems
    unfold print
    rw [hitems, List.foldl_cons, PinList.step, hread]
    rfl
  | opening k symbol => exact foldl_step_directive module (directive_opening k symbol) _ us s _
  | alternative => exact foldl_step_directive module directive_else _ us s _
  | ending => exact foldl_step_directive module directive_ending _ us s _

/-- **Lines act on a pin list** as the items read from them. -/
theorem foldl_step (module : String) : ∀ (ls : List PinLine) (a : Text) (s : PinList),
    (PinItem.ofTokens (Token.scanFrom (Position.start.advance a) (printAll ls))).foldl
        (PinList.step module (a ++ printAll ls)) s = ls.foldl (run module) s
  | [], a, s => by
    rw [printAll, List.flatMap_nil, Glyph.scanFrom_blank blank_nil]
    rfl
  | l :: ls, a, s => by
    have hline := foldl_step_line module l a (printAll ls)
    have ih := foldl_step module ls (a ++ l.print)
    have hcons : printAll (l :: ls) = l.print ++ printAll ls := List.flatMap_cons
    rw [Position.advance_append] at ih
    rw [hcons, l.sealed_print, ← List.append_assoc, hline, ih]
    rfl

end PinLine

end DesignAtlas
