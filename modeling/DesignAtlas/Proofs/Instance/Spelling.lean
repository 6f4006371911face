import DesignAtlas.Proofs.Design.Found
import DesignAtlas.Proofs.Instance.Callee
import DesignAtlas.Proofs.ModuleDecl.Runs
import DesignAtlas.Proofs.Text.Cut

/-! # Instances are named as modules are

The callee of an instantiation is cut out of the first word of its statement, and the name of a
module is a token of its source. Where the first word begins with an identifier, the first token of
the statement is the same identifier (`Instance.display_head?_scan`): an escaped one ends at the
blank that ends the word, and any other ends before a blank at the latest. So an instantiation that
spells a module as its declaration does is an instance of that module
(`Instance.callee_eq_name`). -/

namespace DesignAtlas

open Text (Spells words)

/-! ### Spellings -/

namespace Text.Spells

variable {t : Text} {w : String}

theorem ne_nil (h : t.Spells w) : t ≠ [] := by
  cases h <;> exact List.cons_ne_nil _ _

theorem solid (h : t.Spells w) : ∀ c ∈ t, isBlank c = false := by
  cases h with
  | simple start word =>
    exact List.forall_mem_cons.mpr ⟨isBlank_of_isWordChar (isWordChar_of_isWordStart start),
      fun d hd => isBlank_of_isWordChar (word d hd)⟩
  | escaped solid => exact List.forall_mem_cons.mpr ⟨by decide, solid⟩

theorem trimEnd_append (h : t.Spells w) {b : Text} (hb : ∀ c ∈ b, isBlank c = true) :
    trimEnd (t ++ b) = t :=
  Text.trimEnd_append h.ne_nil (fun c hc => h.solid c (List.mem_of_getLast? hc)) hb []

end Text.Spells

/-- The name of a declared module as the source spells it, without the blank that ends an escaped
identifier. -/
def ModuleDecl.spelling (source : Text) (d : ModuleDecl) : Text :=
  Text.trimEnd (d.nameSpan.slice source)

/-- **The name of a declared module is spelled in its source.** -/
theorem ModuleDecl.spells_spelling {source : Text} {d : ModuleDecl} (h : d ∈ ofSource source) :
    (d.spelling source).Spells d.name := by
  obtain ⟨r, hrun, rfl⟩ := exists_run h
  have hmem : ⟨.identifier r.name, r.nameSpan⟩ ∈ Token.scan source :=
    hrun.subset (List.mem_cons_of_mem _ List.mem_cons_self)
  obtain ⟨gs, tail, rfl, hblank, hread⟩ := Glyph.exists_layout source
  rw [Token.scan, Glyph.scanFrom_spell_blank hread hblank] at hmem
  obtain ⟨g, hg, hpayload, hslice⟩ := Glyph.slice_of_mem_place (a := []) tail hmem
  obtain ⟨rest, hreads⟩ := Glyph.exists_reads_of_mem hread hg
  obtain ⟨t, b, hspells, hb, htext⟩ := hreads.exists_spells (w := r.name) (by rw [← hpayload]; rfl)
  have hspelling : r.decl.spelling (Glyph.spell gs ++ tail) = t := by
    rw [spelling, ← hspells.trimEnd_append hb, ← htext, ← hslice]
    rfl
  rwa [hspelling]

namespace Instance

/-! ### The first token of a statement -/

/-- The identifier in front of a word is that in front of the text that the word begins. -/
theorem payload_recognise_of_calleeOf? {c : Char} {t rest n : Text}
    (solid : ∀ d ∈ t, isBlank d = false) (ends : ∀ d ∈ rest.head?, isBlank d = true)
    (h : calleeOf? (c :: t) = some n) :
    n ≠ [] ∧ (Lexeme.recognise c (t ++ rest)).payload = .ofWord (String.ofList n) := by
  rw [calleeOf?] at h
  split_ifs at h with hback hempty hstart
  · subst hback
    obtain rfl := Option.some.inj h
    have hname := (Text.span_exact (p := fun d => !isBlank d) (by simpa using solid)
      (by simpa using ends)).1
    rw [Lexeme.recognise_backslash, Lexeme.escaped, hname]
    exact ⟨by simpa using hempty, rfl⟩
  · obtain rfl := Option.some.inj h
    have hword : (t ++ rest).takeWhile isWordChar = t.takeWhile isWordChar := by
      cases rest with
      | nil => rw [List.append_nil]
      | cons d rest => exact Text.takeWhile_append_cons (isWordChar_of_isBlank (ends d rfl)) rest t
    have hfirst : isWordStart c = true := by rw [isWordStart, hstart, Bool.true_or]
    have htick : c ≠ '\x60' := by
      rintro rfl
      exact absurd hfirst (by decide)
    rw [Lexeme.recognise, if_neg htick, if_pos hfirst, Lexeme.word, hword]
    exact ⟨List.cons_ne_nil _ _, rfl⟩

/-- The first token of a text begins with its first visible character. -/
theorem exists_head?_scan {lead : Text} (hlead : ∀ d ∈ lead, isBlank d = true) {c : Char}
    (hc : isBlank c = false) (u : Text) : ∃ t, (Token.scan (lead ++ c :: u)).head? = some t ∧
      t.payload = (Lexeme.recognise c u).payload := by
  have hvisible : ¬ isBlank c = true := by simp [hc]
  have hnext : ∀ p, ∃ t rest, Token.next? p (c :: u) = some (t, rest) ∧
      t.payload = (Lexeme.recognise c u).payload := fun p => by
    rw [Token.next?, List.dropWhile_cons_of_neg hvisible]
    exact ⟨_, _, rfl, rfl⟩
  obtain ⟨t, rest, ht, hpayload⟩ := hnext (Position.start.advance lead)
  rw [Token.scan, Glyph.scanFrom_blanks hlead, Token.scanFrom_of_next?_some ht]
  exact ⟨t, rfl, hpayload⟩

/-- The identifier that the first word of a text begins with is the first token of the text. -/
theorem display_head?_scan {t w n : Text} (hw : (words t).head? = some w)
    (h : calleeOf? w = some n) : n ≠ [] ∧
      ∃ tok, (Token.scan t).head? = some tok ∧ tok.payload.display = String.ofList n := by
  obtain ⟨lead, u, rfl, hlead, hflush⟩ := Text.exists_span isBlank t
  rw [Text.words_blanks_append hlead] at hw
  have hne : u ≠ [] := by
    rintro rfl
    cases hw
  rw [Text.head?_words hflush hne] at hw
  obtain rfl := Option.some.inj hw
  obtain ⟨word, rest, rfl, hsolid, hrest⟩ := Text.exists_span (fun c => !isBlank c) u
  rw [(Text.span_exact hsolid hrest).1] at h
  obtain ⟨c, x, rfl⟩ : ∃ c x, word = c :: x := by
    cases word with
    | nil => cases h
    | cons c x => exact ⟨c, x, rfl⟩
  have hsolid : ∀ d ∈ c :: x, isBlank d = false := by simpa using hsolid
  obtain ⟨hc, hx⟩ := List.forall_mem_cons.mp hsolid
  obtain ⟨hnil, hpayload⟩ := payload_recognise_of_calleeOf? hx (by simpa using hrest) h
  obtain ⟨tok, htok, hsame⟩ := exists_head?_scan hlead hc (x ++ rest)
  exact ⟨hnil, tok, htok, by rw [hsame, hpayload, Payload.display_ofWord]⟩

/-! ### Statements that spell a module -/

/-- A name that does not begin with a dollar is the identifier in front of its spelling. -/
theorem calleeOf?_of_spells {t : Text} {n : String} (h : t.Spells n) (hne : n ≠ "")
    (hdollar : t.head? ≠ some '$') : (calleeOf? t).map String.ofList = some n := by
  cases h with
  | @simple c u start word =>
    have hfirst : (c.isAlpha || c == '_') = true := by
      have hc : c ≠ '$' := fun h => hdollar (congrArg some h)
      simpa [isWordStart, hc] using start
    have hback : c ≠ '\x5c' := by
      rintro rfl
      exact absurd start (by decide)
    rw [calleeOf?, if_neg hback, if_pos hfirst, List.takeWhile_eq_self_iff.mpr word]
    rfl
  | @escaped u solid =>
    have hu : u.isEmpty = false := by
      rw [List.isEmpty_eq_false_iff]
      rintro rfl
      exact hne rfl
    rw [calleeOf?, if_pos rfl, hu]
    rfl

/-- **A statement that spells a name and looks like an instantiation** is one of that name. -/
theorem exists_instance_of_spells (o : Options) {t : Text} {n : String} (h : t.Spells n)
    (hne : n ≠ "") (hdollar : t.head? ≠ some '$') (hreserved : o.isReserved (String.ofList t) = false)
    (conditionals : List String) (inSubprogram : Bool) :
    ∃ i, ofStatement? o ⟨t ++ " u0 (x)".toList, conditionals, inSubprogram⟩ = some i ∧
      i.callee = n := by
  have hwords : words (t ++ " u0 (x)".toList) = t :: ["u0".toList, "(x)".toList] := by
    have hrest : words "u0 (x)".toList = ["u0".toList, "(x)".toList] := by decide +kernel
    rw [← hrest]
    exact Text.words_cons_word h.ne_nil h.solid (c := ' ') (by decide) _
  refine Option.map_eq_some_iff.mp ?_
  rw [callee_ofStatement?, hwords, if_pos ⟨by simp, by simp, rfl⟩, List.head?_cons,
    Option.bind_some, calleeIn?, hreserved]
  exact calleeOf?_of_spells h hne hdollar

/-- **Instances are named as modules are.** The callee of an instantiation is not empty, and is what
the first token of its statement displays. So a statement that spells a declared module as its source
does, other than with a dollar in front or with a reserved word, is an instantiation of that name;
and in a design the name stands for that module, unless it is declared again later. -/
theorem callee_eq_name (o : Options) :
    (∀ (s : Statement) (i : Instance), ofStatement? o s = some i → i.callee ≠ "" ∧
      ∃ tok, (Token.scan s.text).head? = some tok ∧ tok.payload.display = i.callee) ∧
    ∀ (source : Text), ∀ d ∈ ModuleDecl.ofSource source,
      (d.spelling source).Spells d.name ∧
      (d.name ≠ "" → (d.spelling source).head? ≠ some '$' →
        o.isReserved (String.ofList (d.spelling source)) = false →
        ∀ (conditionals : List String) (inSubprogram : Bool), ∃ i,
          ofStatement? o
            ⟨d.spelling source ++ " u0 (x)".toList, conditionals, inSubprogram⟩ = some i ∧
          i.callee = d.name ∧
          ∀ (fs : List SourceFile) (file : SourceFile) (gs : List SourceFile)
            (ds es : List ModuleDecl), Comment.strip file.text = source →
            ModuleDecl.ofSource source = ds ++ d :: es →
            (∀ e ∈ es ++ gs.flatMap Design.declared, e.name ≠ d.name) →
            (Design.ofFiles o (fs ++ file :: gs)).1.find? i.callee =
              some (ModuleInfo.ofDecl file.path source o d).1) := by
  refine ⟨fun s i hi => ?_, fun source d hd => ⟨ModuleDecl.spells_spelling hd, ?_⟩⟩
  · have hcallee := callee_ofStatement? o s
    rw [hi, Option.map_some] at hcallee
    split_ifs at hcallee
    obtain ⟨w, hw, hin⟩ := Option.bind_eq_some_iff.mp hcallee.symm
    unfold calleeIn? at hin
    split_ifs at hin
    obtain ⟨n, hn, hname⟩ := Option.map_eq_some_iff.mp hin
    obtain ⟨hnil, tok, htok, hdisplay⟩ := display_head?_scan hw hn
    refine ⟨?_, tok, htok, hdisplay.trans hname⟩
    rw [← hname]
    simpa using hnil
  · intro hne hdollar hreserved conditionals inSubprogram
    obtain ⟨i, hi, hname⟩ := exists_instance_of_spells o (ModuleDecl.spells_spelling hd) hne hdollar
      hreserved conditionals inSubprogram
    refine ⟨i, hi, hname, ?_⟩
    rintro fs file gs ds es rfl hfile hlast
    rw [hname]
    exact Design.find?_ofFiles_of_last o fs hfile hlast

/-- A module with an escaped name, and a statement whose first word goes on behind its callee. -/
theorem callee_eq_name_escaped :
    let source := "module \\m+1 (x);\nendmodule\n".toList
    let d : ModuleDecl :=
      { name := "m+1"
        nameSpan := ⟨⟨7, 1, 8⟩, ⟨12, 1, 13⟩⟩
        parameterSpan := none
        pinSpan := some ⟨⟨13, 1, 14⟩, ⟨14, 1, 15⟩⟩
        bodySpan := ⟨⟨16, 1, 17⟩, ⟨17, 2, 1⟩⟩ }
    ModuleDecl.ofSource source = [d] ∧ d.spelling source = "\\m+1".toList ∧
      (∃ i, ofStatement? {} ⟨"\\m+1 u0 (x)".toList, [], false⟩ = some i ∧ i.callee = "m+1" ∧
        (Design.ofFiles {} [⟨"a.v", source⟩]).1.find? i.callee =
          some (ModuleInfo.ofDecl "a.v" source {} d).1) ∧
      ∃ i, ofStatement? {} ⟨"m#(.W(8)) u0 (a)".toList, [], false⟩ = some i ∧ i.callee = "m" ∧
        ∃ tok, (Token.scan "m#(.W(8)) u0 (a)".toList).head? = some tok ∧
          tok.payload.display = i.callee := by
  intro source d
  have hsource : ModuleDecl.ofSource source = [d] := by decide +kernel
  have hspelling : d.spelling source = "\\m+1".toList := by decide +kernel
  have hstrip : Comment.strip source = source := by decide +kernel
  obtain ⟨hstatements, hmodules⟩ := callee_eq_name {}
  refine ⟨hsource, hspelling, ?_, ?_⟩
  · have hd : d ∈ ModuleDecl.ofSource source := by rw [hsource]; exact List.mem_cons_self
    obtain ⟨i, hi, hname, hfound⟩ := (hmodules source d hd).2 (by decide)
      (by rw [hspelling]; decide) (by rw [hspelling]; decide +kernel) [] false
    rw [hspelling] at hi
    exact ⟨i, hi, hname, hfound [] ⟨"a.v", source⟩ [] [] [] hstrip hsource (by simp)⟩
  · have hcallee : (ofStatement? {} ⟨"m#(.W(8)) u0 (a)".toList, [], false⟩).map callee =
        some "m" := by decide +kernel
    obtain ⟨i, hi, hname⟩ := Option.map_eq_some_iff.mp hcallee
    exact ⟨i, hi, hname, (hstatements _ i hi).2⟩

end Instance

end DesignAtlas
