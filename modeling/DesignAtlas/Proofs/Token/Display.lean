import DesignAtlas.Proofs.Text.Normal
import DesignAtlas.Proofs.Token.Lines
import DesignAtlas.Proofs.Token.Literal
import DesignAtlas.Proofs.Token.Sealed
import DesignAtlas.Proofs.Token.Tidy

/-! # Tokens read back from their display

The display of a token, with a newline behind it, is read as that token again
(`Payload.ReadsBack`). So writing the display of each token of a text in a line of its own and
scanning what is written gives the same payloads (`scan_displayLines`). Two kinds of tokens are
displayed otherwise than they are read: the display of an escaped identifier has no backslash, and
an apostrophe is a number only before the dollar sign that is the next token. -/

namespace DesignAtlas

namespace Payload

/-- The display of the payload as a glyph. -/
def glyph (p : Payload) : Glyph := ⟨[], p, p.display.toList⟩

/-- The display of the payload, with a newline behind it, is read as the payload. -/
def ReadsBack (p : Payload) : Prop := ∀ u, p.glyph.Reads ('\n' :: u)

/-- The displays of the payloads, each in a line of its own. -/
def displayLines (ps : List Payload) : Text := ps.flatMap fun p => p.display.toList ++ ['\n']

theorem displayLines_cons (p : Payload) (ps : List Payload) :
    displayLines (p :: ps) = p.glyph.spelling ++ '\n' :: displayLines ps := by
  simp [displayLines, glyph, Glyph.spelling]

/-- **Payloads are read back line by line.** -/
theorem map_payload_displayLines : ∀ {ps : List Payload}, (∀ p ∈ ps, p.ReadsBack) →
    (Token.scan (displayLines ps)).map Token.payload = ps
  | [], _ => congrArg (List.map Token.payload) (Glyph.scanFrom_blank blank_nil)
  | p :: ps, h => by
    obtain ⟨hp, hps⟩ := List.forall_mem_cons.mp h
    have hline : Glyph.ReadAll [p.glyph] ('\n' :: displayLines ps) := ⟨hp _, trivial⟩
    have hrest := Token.map_payload_blanks blank_newline (displayLines ps)
    have hscan := Token.map_payload_spell hline
    rw [Glyph.spell_cons, Glyph.spell_nil, List.append_nil] at hscan
    rw [List.singleton_append] at hrest
    rw [displayLines_cons, hscan, hrest, map_payload_displayLines hps]
    rfl

/-- A display that is one token by itself is that token before a newline. -/
theorem readsBack_of_recognise {p : Payload} {c : Char} (cs : Text)
    (hdisplay : p.display.toList = c :: cs) (hblank : isBlank c = false) (hb : c ≠ '\x5c')
    (hq : c ≠ '\x22') (h : Lexeme.recognise c cs = ⟨p, c :: cs, []⟩) : p.ReadsBack := by
  intro u
  refine ⟨blank_nil, c, cs, hdisplay, hblank, ?_⟩
  rw [Lexeme.recognise_newline hb hq, h, glyph, hdisplay]
  rfl

end Payload

/-! ### One kind of token after the other -/

namespace Lexeme

open Payload

/-! #### Directives -/

section Directive

variable {n a : Text} (hn : ∀ c ∈ n, isWordChar c = true)
include hn

theorem directive_macroUse (hext : Directive.extent? (String.ofList n) = none) :
    directive n = ⟨.macroUse (String.ofList n), '\x60' :: n, []⟩ := by
  unfold directive
  simp only [List.takeWhile_eq_self_iff.mpr hn, List.dropWhile_eq_nil_iff.mpr hn, hext]

/-- The name of a directive by itself. -/
theorem directive_name (hext : Directive.extent? (String.ofList n) ≠ none) :
    directive n = ⟨.directive ⟨String.ofList n, ""⟩, '\x60' :: n, []⟩ := by
  unfold directive
  simp only [List.takeWhile_eq_self_iff.mpr hn, List.dropWhile_eq_nil_iff.mpr hn]
  cases h : Directive.extent? (String.ofList n) with
  | none => exact absurd h hext
  | some e => cases e <;> simp [Text.collapse, Text.words]

/-- The name with a space and an argument. -/
theorem span_name : (n ++ ' ' :: a).takeWhile isWordChar = n ∧
    (n ++ ' ' :: a).dropWhile isWordChar = ' ' :: a :=
  Text.span_exact hn (by simp [show isWordChar ' ' = false by decide])

theorem directive_word (hext : Directive.extent? (String.ofList n) = some .word)
    (ha : ∀ c ∈ a, isWordChar c = true) : directive (n ++ ' ' :: a) =
      ⟨.directive ⟨String.ofList n, String.ofList a⟩, '\x60' :: (n ++ ' ' :: a), []⟩ := by
  obtain ⟨htake, hdrop⟩ := span_name (a := a) hn
  have hgap : (' ' :: a).takeWhile isInlineBlank = [' '] ∧
      (' ' :: a).dropWhile isInlineBlank = a := by
    refine Text.span_exact (p := isInlineBlank) (t := [' '])
      (List.forall_mem_singleton.mpr (by decide)) fun c hc => ?_
    have := isBlank_of_isWordChar (ha c (List.mem_of_mem_head? hc))
    simp [isInlineBlank, this]
  unfold directive
  simp only [htake, hdrop, hext, hgap, List.takeWhile_eq_self_iff.mpr ha,
    List.dropWhile_eq_nil_iff.mpr ha]
  simp

theorem directive_line (hext : Directive.extent? (String.ofList n) = some .line)
    (hline : '\n' ∉ a) (ha : Text.collapse a = a) : directive (n ++ ' ' :: a) =
      ⟨.directive ⟨String.ofList n, String.ofList a⟩, '\x60' :: (n ++ ' ' :: a), []⟩ := by
  obtain ⟨htake, hdrop⟩ := span_name (a := a) hn
  have hall : ∀ c ∈ ' ' :: a, (c != '\n') = true := by
    intro c hc
    rw [bne_iff_ne]
    rintro rfl
    exact hline (by simpa using hc)
  have hcollapse : Text.collapse (' ' :: a) = a :=
    (Text.collapse_cons_blank isBlank_space a).trans ha
  unfold directive
  simp only [htake, hdrop, hext, List.takeWhile_eq_self_iff.mpr hall,
    List.dropWhile_eq_nil_iff.mpr hall, hcollapse]
  simp

end Directive

theorem readsBack_directive (t : Text) : (directive t).payload.ReadsBack := by
  have hn : ∀ c ∈ t.takeWhile isWordChar, isWordChar c = true :=
    fun c hc => List.mem_takeWhile_imp hc
  have hread : ∀ {p : Payload} {cs : Text}, p.display.toList = '\x60' :: cs →
      directive cs = ⟨p, '\x60' :: cs, []⟩ → p.ReadsBack := fun hdisplay h =>
    readsBack_of_recognise _ hdisplay (by decide) (by decide) (by decide)
      (by rw [recognise_backtick, h])
  unfold directive
  simp only
  split <;> rename_i hext
  · exact hread (by simp [display]) (directive_macroUse hn hext)
  · exact hread (by simp [display, Directive.display]) (directive_name hn (by simp [hext]))
  · generalize ha : ((t.dropWhile isWordChar).dropWhile isInlineBlank).takeWhile isWordChar = a
    by_cases hnil : a = []
    · subst hnil
      exact hread (by simp [display, Directive.display]) (directive_name hn (by simp [hext]))
    · refine hread ?_ (directive_word hn hext (a := a) ?_)
      · simp [display, Directive.display, hnil]
      · rw [← ha]
        exact fun c hc => List.mem_takeWhile_imp hc
  · generalize ha : Text.collapse ((t.dropWhile isWordChar).takeWhile (· != '\n')) = a
    by_cases hnil : a = []
    · subst hnil
      exact hread (by simp [display, Directive.display]) (directive_name hn (by simp [hext]))
    · refine hread ?_ (directive_line hn hext (a := a) ?_ ?_)
      · simp [display, Directive.display, hnil]
      · intro hnewline
        have := Text.eq_space_of_mem_collapse (ha ▸ hnewline) isBlank_newline
        exact absurd this (by decide)
      · rw [← ha, Text.collapse_collapse]

/-! #### The others -/

theorem readsBack_word {c : Char} (hc : isWordStart c = true) (t : Text) :
    (word c t).payload.ReadsBack := by
  have hall : ∀ d ∈ t.takeWhile isWordChar, isWordChar d = true :=
    fun d hd => List.mem_takeWhile_imp hd
  have hbacktick : c ≠ '\x60' := by rintro rfl; cases hc
  have hbackslash : c ≠ '\x5c' := by rintro rfl; cases hc
  have hquote : c ≠ '\x22' := by rintro rfl; cases hc
  refine readsBack_of_recognise (t.takeWhile isWordChar) ?_
    (isBlank_of_isWordChar (isWordChar_of_isWordStart hc)) hbackslash hquote ?_
  · rw [word, display_ofWord, String.toList_ofList]
  · rw [recognise, if_neg hbacktick, if_pos hc, word, word, List.takeWhile_eq_self_iff.mpr hall,
      List.dropWhile_eq_nil_iff.mpr hall]

theorem readsBack_number {c : Char} {t : Text} (hblank : isBlank c = false)
    (hbacktick : c ≠ '\x60') (hword : isWordStart c = false) (hbackslash : c ≠ '\x5c')
    (hc : beginsNumber c t = true) (hdollar : c = '\x27' → t.head? ≠ some '$') :
    (number c t).payload.ReadsBack := by
  have hall : ∀ d ∈ t.takeWhile isNumberChar, isNumberChar d = true :=
    fun d hd => List.mem_takeWhile_imp hd
  have hquote : c ≠ '\x22' := by
    rintro rfl
    simp [beginsNumber] at hc
  -- what follows an apostrophe is a character of the number
  have hbegins : beginsNumber c (t.takeWhile isNumberChar) = true := by
    unfold beginsNumber at hc ⊢
    rw [Bool.or_eq_true, Bool.and_eq_true, beq_iff_eq] at hc ⊢
    refine hc.imp_right fun happ => ⟨happ.1, ?_⟩
    obtain ⟨d, hd, hdw⟩ := (Option.any_eq_true _ _).mp happ.2
    obtain ⟨t, rfl⟩ := List.head?_eq_some_iff.mp hd
    have hdn : isNumberChar d = true := by
      by_contra hnot
      rw [Bool.not_eq_true] at hnot
      exact hdollar happ.1 (by rw [eq_dollar_of_isWordChar hdw hnot]; rfl)
    rw [List.takeWhile_cons_of_pos hdn]
    simpa using hdw
  refine readsBack_of_recognise (t.takeWhile isNumberChar) ?_ hblank hbackslash
    hquote ?_
  · rw [number, display, String.toList_ofList]
  · rw [recognise, if_neg hbacktick, hword, if_neg Bool.false_ne_true, if_neg hbackslash, hbegins,
      if_pos rfl, number, number, List.takeWhile_eq_self_iff.mpr hall,
      List.dropWhile_eq_nil_iff.mpr hall]

/-- The content of a literal without backslashes has no quotes. -/
theorem quote_notMem_splitString {t : Text} (ht : '\x5c' ∉ t) : '\x22' ∉ (splitString t).1 := by
  fun_induction splitString t with
  | case1 => simp
  | case2 => simp
  | case3 c hc => simpa using Ne.symm hc
  | case4 => simp
  | case5 => simp at ht
  | case6 c d t hc hc' ih =>
    rw [List.mem_cons, not_or]
    exact ⟨Ne.symm hc, ih fun h => ht (List.mem_cons_of_mem c h)⟩

theorem readsBack_string {t : Text} (ht : '\x5c' ∉ t) : (string t).payload.ReadsBack := by
  have hb : '\x5c' ∉ (splitString t).1 := fun h =>
    ht (by rw [← splitString_append t]; exact List.mem_append_left _ h)
  have hsplit := fun u => splitString_quote ('\n' :: u) (quote_notMem_splitString ht) hb
  have hdisplay : (string t).payload.display.toList =
      '\x22' :: ((splitString t).1 ++ ['\x22']) := by
    simp [string, display]
  intro u
  refine ⟨blank_nil, '\x22', _, hdisplay, by decide, ?_⟩
  rw [recognise_quote, glyph, hdisplay, List.append_assoc, List.singleton_append]
  conv_lhs => rw [string, hsplit u]
  simp [string]

theorem readsBack_single {c : Char} {t : Text} (hblank : isBlank c = false)
    (hbacktick : c ≠ '\x60') (hword : isWordStart c = false) (hbackslash : c ≠ '\x5c')
    (hnumber : beginsNumber c t = false) (hquote : c ≠ '\x22') :
    (single c t).payload.ReadsBack := by
  have hdigit : beginsNumber c [] = false := by
    rw [beginsNumber, Bool.or_eq_false_iff] at hnumber
    rw [beginsNumber_nil, hnumber.1]
  refine readsBack_of_recognise [] ?_ hblank hbackslash hquote ?_
  · rw [single, display_ofChar, String.toList_singleton]
  · rw [recognise, if_neg hbacktick, hword, if_neg Bool.false_ne_true, if_neg hbackslash, hdigit,
      if_neg Bool.false_ne_true, if_neg hquote, single]
    rfl

/-- **Every token is read back** when no backslash is in it and no dollar sign stands behind an
apostrophe. -/
theorem readsBack_recognise {c : Char} {t : Text} (hblank : isBlank c = false)
    (hc : c ≠ '\x5c') (ht : '\x5c' ∉ t) (hdollar : c = '\x27' → t.head? ≠ some '$') :
    (recognise c t).payload.ReadsBack := by
  unfold recognise
  split_ifs with h1 h2 h4 h5
  · exact readsBack_directive t
  · exact readsBack_word h2 t
  · exact readsBack_number hblank h1 (Bool.not_eq_true _ ▸ h2) hc h4 hdollar
  · exact readsBack_string ht
  · exact readsBack_single hblank h1 (Bool.not_eq_true _ ▸ h2) hc (Bool.not_eq_true _ ▸ h4) h5

end Lexeme

/-! ### The tokens of a text -/

namespace Token

/-- **Tokens round-trip through their display.** If a text has no backslash and no dollar sign
directly behind an apostrophe, then the displays of its tokens, each in a line of its own, are
scanned to the same payloads. -/
theorem scan_displayLines {t : Text} (hb : '\x5c' ∉ t) (hd : ¬ ['\x27', '$'] <:+: t) :
    (scan (Payload.displayLines ((scan t).map payload))).map payload = (scan t).map payload := by
  refine Payload.map_payload_displayLines fun p hp => ?_
  obtain ⟨gs, tail, rfl, htail, hgs⟩ := Glyph.exists_layout t
  rw [scan, Glyph.scanFrom_spell_blank hgs htail, Glyph.map_payload_place] at hp
  obtain ⟨g, hg, rfl⟩ := List.mem_map.mp hp
  obtain ⟨before, after, rfl⟩ := List.append_of_mem hg
  -- the token in its text, where it is read
  obtain ⟨c, cs, htext, hblank, hr⟩ := (Glyph.readAll_append.mp hgs).2.1.lexeme
  have hsplit : Glyph.spell (before ++ g :: after) ++ tail =
      Glyph.spell before ++ g.gap ++ c :: (cs ++ (Glyph.spell after ++ tail)) := by
    simp [Glyph.spelling, htext]
  rw [hsplit] at hb hd
  have hnone : '\x5c' ∉ c :: (cs ++ (Glyph.spell after ++ tail)) := fun h =>
    hb (List.mem_append_right _ h)
  rw [List.mem_cons, not_or] at hnone
  have hread := Lexeme.readsBack_recognise hblank (Ne.symm hnone.1) hnone.2 fun happ hdollar => by
    obtain ⟨u, hu⟩ := List.head?_eq_some_iff.mp hdollar
    exact hd ⟨Glyph.spell before ++ g.gap, u, by simp [hu, happ]⟩
  rwa [hr] at hread

/-- Directives with and without arguments, numbers of every form, a literal over two lines without
an end, and characters that are tokens by themselves. -/
theorem scan_displayLines_mixed :
    let t : Text := "`define W  8 // é\n[`W-1:`X] `ifdef\n\x27hF\x271 \x27 1.5?é \"a\n b".toList
    '\x5c' ∉ t ∧ ¬ ['\x27', '$'] <:+: t ∧
      (scan (Payload.displayLines ((scan t).map payload))).map payload = (scan t).map payload := by
  intro t
  have hb : '\x5c' ∉ t := by decide +kernel
  have hd : ¬ ['\x27', '$'] <:+: t := by decide +kernel
  exact ⟨hb, hd, scan_displayLines hb hd⟩

end Token

end DesignAtlas
