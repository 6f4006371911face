import DesignAtlas.Proofs.Pin.Skeleton
import DesignAtlas.Proofs.Text.Normal
import DesignAtlas.Proofs.Token.Literal

/-! # Pin lists in another layout

Without string literals and escaped identifiers, what a text says is in the payloads of its tokens,
and their places are layout. The source text of a run of tokens is, but for blanks, what its payloads
display (`Token.squeeze_sourceOf_of_loose`), so the ranges of a declaration have the same text in
every layout. Two texts with the same payloads are then pin lists with the same pins and the same
kinds of diagnostics (`PinList.ofText_reformat`). -/

namespace DesignAtlas

open Glyph (spell place ReadAll)

/-! ### The text of a token -/

/-- What the payload displays, without blanks. -/
def Payload.ink (p : Payload) : Text := Text.squeeze p.display.toList

namespace Payload

/-- A directive displays its name and its argument. -/
theorem ink_directive (d : Directive) : (directive d).ink =
    Text.squeeze ('\x60' :: d.name.toList) ++ Text.squeeze d.argument.toList := by
  rw [ink, display, Directive.display]
  split_ifs with h
  · rw [h]
    simp [Text.squeeze]
  · have htext : ("`" ++ d.name ++ " " ++ d.argument).toList =
        '\x60' :: d.name.toList ++ ([' '] ++ d.argument.toList) := by simp
    rw [htext, Text.squeeze_append, Text.squeeze_append,
      Text.squeeze_of_blank (b := [' ']) (by simp [isBlank_space]), List.nil_append]

end Payload

namespace Lexeme

theorem squeeze_directive (t : Text) :
    Text.squeeze (directive t).text = (directive t).payload.ink := by
  unfold directive
  simp only
  split
  · simp [Payload.ink, Payload.display]
  · simp [Payload.ink, Payload.display, Directive.display]
  · have hgap : Text.squeeze ((t.dropWhile isWordChar).takeWhile isInlineBlank) = [] :=
      Text.squeeze_of_blank fun c hc => isBlank_of_isInlineBlank (List.mem_takeWhile_imp hc)
    rw [Payload.ink_directive, String.toList_ofList, String.toList_ofList, Text.squeeze_append,
      Text.squeeze_append, hgap, List.append_nil]
  · rw [Payload.ink_directive, String.toList_ofList, String.toList_ofList, Text.squeeze_append,
      Text.squeeze_collapse]

theorem squeeze_recognise {c : Char} (hb : c ≠ '\x5c') (hq : c ≠ '\x22') (t : Text) :
    Text.squeeze (recognise c t).text = (recognise c t).payload.ink := by
  unfold recognise
  rw [if_neg hb, if_neg hq]
  split_ifs
  · exact squeeze_directive t
  · rw [word, Payload.ink, Payload.display_ofWord, String.toList_ofList]
  · rw [number, Payload.ink, Payload.display, String.toList_ofList]
  · rw [single, Payload.ink, Payload.display_ofChar, String.toList_singleton]

end Lexeme

/-- The text holds no backslash and no quote, so it has neither escaped identifiers nor string
literals. -/
structure Text.Loose (t : Text) : Prop where
  backslash : '\x5c' ∉ t
  quote : '\x22' ∉ t

instance (t : Text) : Decidable t.Loose :=
  decidable_of_iff ('\x5c' ∉ t ∧ '\x22' ∉ t) ⟨fun h => ⟨h.1, h.2⟩, fun h => ⟨h.1, h.2⟩⟩

namespace Token

theorem squeeze_spell {rest : Text} : ∀ {gs : List Glyph}, ReadAll gs rest → (spell gs).Loose →
    Text.squeeze (spell gs) = gs.flatMap fun g => g.payload.ink
  | [], _, _ => rfl
  | g :: gs, h, hloose => by
    -- a glyph is read as what is recognised at its first character, which begins no literal here
    obtain ⟨c, cs, htext, -, hread⟩ := h.1.lexeme
    have hmem : c ∈ spell (g :: gs) := by simp [Glyph.spelling, htext]
    have hink := Lexeme.squeeze_recognise (c := c) (by rintro rfl; exact hloose.backslash hmem)
      (by rintro rfl; exact hloose.quote hmem) (cs ++ (spell gs ++ rest))
    rw [hread] at hink
    have hrest : (spell gs).Loose :=
      ⟨fun hc => hloose.backslash (by rw [Glyph.spell_cons]; exact List.mem_append_right _ hc),
        fun hc => hloose.quote (by rw [Glyph.spell_cons]; exact List.mem_append_right _ hc)⟩
    rw [Glyph.spell_cons, Glyph.spelling, Text.squeeze_append, Text.squeeze_append,
      Text.squeeze_of_blank h.1.blank, List.nil_append, hink, squeeze_spell h.2 hrest,
      List.flatMap_cons]

/-- **The source text of tokens, without blanks,** is what they display without blanks. -/
theorem squeeze_sourceOf_of_loose {text : Text} (hloose : text.Loose) {ts : List Token}
    (h : ts <:+: scan text) :
    Text.squeeze (sourceOf text ts) = (ts.map Token.payload).flatMap Payload.ink := by
  obtain ⟨a, gs, c, rfl, rfl, hread⟩ := exists_layout_of_infix h
  have hgs : (spell gs).Loose := by
    refine ⟨fun hc => hloose.backslash ?_, fun hc => hloose.quote ?_⟩ <;> simp [hc]
  rw [Glyph.squeeze_sourceOf_place hread, squeeze_spell hread hgs, Glyph.map_payload_place,
    List.flatMap_map]

end Token

/-! ### Pin lists in two layouts -/

/-- The texts are layouts of the same payloads: `f` takes the tokens of one to those of the other. -/
structure Text.Relaid (f : Token → Token) (t t' : Text) : Prop where
  loose : t.Loose
  loose' : t'.Loose
  scan : Token.scan t' = (Token.scan t).map f
  skeleton : ∀ u, (f u).skeleton = u.skeleton
  payload : ∀ u ∈ Token.scan t, (f u).payload = u.payload

namespace Text

/-- Texts with the same payloads are layouts of them. -/
theorem exists_relaid {t t' : Text} (ht : t.Loose) (ht' : t'.Loose)
    (h : (Token.scan t').map Token.payload = (Token.scan t).map Token.payload) :
    ∃ f, Relaid f t t' := by
  have hnodup : (Token.scan t).Nodup :=
    (Token.pairwise_scan t).imp fun hne he => hne (by rw [he])
  -- no token stands twice in a text, so the pairs of tokens at equal places are a function
  have hskeleton : (Token.scan t').map Token.skeleton = (Token.scan t).map Token.skeleton := by
    rw [Token.map_skeleton, Token.map_skeleton, h]
  obtain ⟨f, hf, hscan⟩ := exists_map_of_nodup hnodup hskeleton
  refine ⟨f, ht, ht', hscan, hf, List.map_inj_left.mp ?_⟩
  rw [← h, hscan, List.map_map]
  rfl

variable {f : Token → Token} {t t' : Text}

/-- **Ranges have the same text in both layouts.** -/
theorem Relaid.rangeText (h : Relaid f t t') {ts : List Token} (hts : ts <:+: Token.scan t) :
    Token.rangeText t' (ts.map f) = Token.rangeText t ts := by
  have hts' : ts.map f <:+: Token.scan t' := h.scan ▸ hts.map f
  have hpayload : (ts.map f).map Token.payload = ts.map Token.payload := by
    rw [List.map_map]
    exact List.map_congr_left fun u hu => h.payload u (hts.subset hu)
  unfold Token.rangeText
  rw [List.isEmpty_map, Token.squeeze_sourceOf_of_loose h.loose hts,
    Token.squeeze_sourceOf_of_loose h.loose' hts', hpayload]

theorem Relaid.ofTokens? (h : Relaid f t t') {ts : List Token} (hts : ts <:+: Token.scan t) :
    PinDecl.ofTokens? t' (ts.map f) = PinDecl.ofTokens? t ts := by
  rw [PinDecl.ofTokens?_eq, PinDecl.ofTokens?_eq, PinDecl.head?_map h.skeleton, Option.map_map]
  refine Option.map_congr fun d hd => ?_
  simp only [Function.comp, PinDecl.Head.decl, h.rangeText ((PinDecl.infix_of_head? hd).trans hts)]

end Text

namespace PinList

/-- The lists read so far have the same pins and have met problems of the same kinds. -/
structure Agree (s s' : PinList) : Prop where
  stack : s'.stack = s.stack
  pattern : s'.pattern = s.pattern
  pins : s'.pins = s.pins
  kinds : s'.diagnostics.map Diagnostic.kind = s.diagnostics.map Diagnostic.kind

variable {f : Token → Token} {t t' : Text}

theorem Agree.step {s s' : PinList} (hs : Agree s s') (h : Text.Relaid f t t')
    (module module' : String) :
    ∀ {item : PinItem}, item ∈ PinItem.ofTokens (Token.scan t) →
      Agree (PinList.step module t s item) (PinList.step module' t' s' (item.map f))
  | .directive d, _ => by
    refine ⟨congrArg (·.advance d) hs.stack, hs.pattern, hs.pins, ?_⟩
    simp only [PinItem.map, PinList.step, stepDirective, hs.stack]
    split_ifs
    · rw [List.map_append, List.map_append, hs.kinds]
      rfl
    · exact hs.kinds
  | .declaration ts, hitem => by
    rw [PinItem.map, PinList.step, PinList.step, h.ofTokens? (PinItem.infix_of_declaration hitem)]
    cases PinDecl.ofTokens? t ts with
    | none =>
      refine ⟨hs.stack, hs.pattern, hs.pins, ?_⟩
      simp only [stepUnknown]
      rw [List.map_append, List.map_append, hs.kinds]
      rfl
    | some d =>
      refine ⟨hs.stack, ?_, ?_, hs.kinds⟩
      · simp only [stepDecl, hs.pattern, hs.stack]
      · simp only [stepDecl, hs.pattern, hs.stack, hs.pins]

theorem Agree.foldl (h : Text.Relaid f t t') (module module' : String) : ∀ {items : List PinItem},
    (∀ item ∈ items, item ∈ PinItem.ofTokens (Token.scan t)) → ∀ {s s' : PinList}, Agree s s' →
      Agree (items.foldl (PinList.step module t) s)
        ((items.map (PinItem.map f)).foldl (PinList.step module' t') s')
  | [], _, _, _, hs => hs
  | _ :: _, hitems, _, _, hs => by
    obtain ⟨hitem, hitems⟩ := List.forall_mem_cons.mp hitems
    exact Agree.foldl h module module' hitems (hs.step h module module' hitem)

/-- **The layout of a pin list says nothing about its pins**: texts with the same payloads have the
same pins, and the problems met in them are of the same kinds. -/
theorem ofText_reformat {t t' : Text} (ht : t.Loose) (ht' : t'.Loose)
    (h : (Token.scan t').map Token.payload = (Token.scan t).map Token.payload)
    (module module' : String) (o : Options) :
    (ofText module' o t').pins = (ofText module o t).pins ∧
      (ofText module' o t').diagnostics.map Diagnostic.kind =
        (ofText module o t).diagnostics.map Diagnostic.kind := by
  obtain ⟨f, hf⟩ := Text.exists_relaid ht ht' h
  have hagree : Agree (ofText module o t) (ofText module' o t') := by
    unfold ofText
    rw [hf.scan, PinItem.ofTokens_map hf.skeleton]
    exact Agree.foldl hf module module' (fun _ hitem => hitem) ⟨rfl, rfl, rfl, rfl⟩
  exact ⟨hagree.pins, hagree.kinds⟩

/-- A range, a directive and an item that is no pin, in two layouts. -/
theorem ofText_reformat_lines :
    Text.Loose "input [ 3 : 0 ]  a,\n`ifdef  X\nb c d".toList ∧
      Text.Loose "input[3:0]a,`ifdef X b c\td".toList ∧
      (Token.scan "input[3:0]a,`ifdef X b c\td".toList).map Token.payload =
        (Token.scan "input [ 3 : 0 ]  a,\n`ifdef  X\nb c d".toList).map Token.payload ∧
      (ofText "m" {} "input[3:0]a,`ifdef X b c\td".toList).pins =
        (ofText "m" {} "input [ 3 : 0 ]  a,\n`ifdef  X\nb c d".toList).pins ∧
      (ofText "m" {} "input[3:0]a,`ifdef X b c\td".toList).diagnostics.map Diagnostic.kind =
        (ofText "m" {} "input [ 3 : 0 ]  a,\n`ifdef  X\nb c d".toList).diagnostics.map
          Diagnostic.kind := by
  have hlines : Text.Loose "input [ 3 : 0 ]  a,\n`ifdef  X\nb c d".toList := by decide +kernel
  have hline : Text.Loose "input[3:0]a,`ifdef X b c\td".toList := by decide +kernel
  have hsame : (Token.scan "input[3:0]a,`ifdef X b c\td".toList).map Token.payload =
      (Token.scan "input [ 3 : 0 ]  a,\n`ifdef  X\nb c d".toList).map Token.payload := by
    decide +kernel
  exact ⟨hlines, hline, hsame, ofText_reformat hlines hline hsame "m" "m" {}⟩

end PinList

end DesignAtlas
