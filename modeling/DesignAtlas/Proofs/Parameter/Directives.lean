import DesignAtlas.Proofs.Parameter.Value
import DesignAtlas.Proofs.Pin.Line

/-! # Directives between parameters

Lines that hold a conditional directive each may be put around the parts of a text that declares
parameters (`Framed`). Directives are no keywords and no commas, so the text keeps its parts
(`Parameter.isCut_framed`). But they are tokens of their parts: behind a part they belong to its
value, and in front of one that begins with its name they hide the name. They are passed over only in
front of a keyword, and this is the exact condition for the parameters to stay
(`Parameter.ofBlock_framed`). -/

namespace DesignAtlas

/-! ### Lines -/

/-- A conditional directive. -/
inductive Conditional where
  | opening (k : Opening) (symbol : Word)
  | alternative
  | ending

/-- The directive as a line of a pin list. -/
def Conditional.line : Conditional → PinLine
  | opening k symbol => .opening k symbol
  | alternative => .alternative
  | ending => .ending

theorem Conditional.scanFrom_line (c : Conditional) (p : Position) :
    ∃ k d, Token.scanFrom p c.line.print = [k] ∧ k.payload = .directive d := by
  cases c with
  | opening k symbol =>
    obtain ⟨t, ht, hd⟩ := (PinLine.scanFrom_directive (PinLine.directive_opening k symbol)).2 p
    exact ⟨t, _, ht, hd⟩
  | alternative =>
    obtain ⟨t, ht, hd⟩ := (PinLine.scanFrom_directive PinLine.directive_else).2 p
    exact ⟨t, _, ht, hd⟩
  | ending =>
    obtain ⟨t, ht, hd⟩ := (PinLine.scanFrom_directive PinLine.directive_ending).2 p
    exact ⟨t, _, ht, hd⟩

theorem Conditional.head?_line (c : Conditional) : c.line.print.head? = some '\x60' := by
  cases c <;> rfl

theorem Conditional.quote_notMem_line (c : Conditional) : '\x22' ∉ c.line.print := by
  cases c with
  | opening k symbol =>
    have hsymbol : '\x22' ∉ symbol.text := fun h => by
      have := Word.isWordChar_of_mem h
      revert this
      decide
    have hword : '\x22' ∉ k.kind.word.toList := by cases k <;> decide
    have hprint : (opening k symbol).line.print =
        ['\x60'] ++ k.kind.word.toList ++ [' '] ++ symbol.text ++ ['\n'] := by
      show '\x60' :: (k.kind.word.toList ++ ' ' :: symbol.text) ++ ['\n'] = _
      simp only [List.append_assoc, List.cons_append, List.nil_append]
    rw [hprint]
    simp only [List.mem_append, not_or]
    exact ⟨⟨⟨⟨by decide, hword⟩, by decide⟩, hsymbol⟩, by decide⟩
  | alternative => decide
  | ending => decide

/-- A line that holds a conditional directive, with blanks before it. -/
structure ConditionalLine where
  margin : Text
  directive : Conditional
  blank : ∀ c ∈ margin, isBlank c = true

namespace ConditionalLine

variable {ls : List ConditionalLine}

/-- The line as it is written. -/
def print (l : ConditionalLine) : Text := l.margin ++ l.directive.line.print

/-- Lines as they are written. -/
def printAll (ls : List ConditionalLine) : Text := ls.flatMap print

/-- Lines as they are put into a text, with a newline before them. -/
def inserted (ls : List ConditionalLine) : Text := if ls.isEmpty then [] else '\n' :: printAll ls

theorem inserted_nil : inserted [] = [] := rfl

theorem inserted_of_ne_nil (h : ls ≠ []) : inserted ls = '\n' :: printAll ls := by
  rw [inserted, if_neg (by simpa using h)]

theorem sealed_print (l : ConditionalLine) : l.print.Sealed :=
  (Text.sealed_blank l.blank).append l.directive.line.sealed_print

theorem sealed_printAll (ls : List ConditionalLine) : (printAll ls).Sealed := by
  rw [printAll, List.flatMap_def]
  refine Text.sealed_flatten fun t ht => ?_
  obtain ⟨l, -, rfl⟩ := List.mem_map.mp ht
  exact l.sealed_print

theorem sealed_inserted (ls : List ConditionalLine) : (inserted ls).Sealed := by
  unfold inserted
  split
  · exact Text.sealed_blank blank_nil
  · exact (Text.sealed_blank blank_newline).append (sealed_printAll ls)

theorem scanFrom_print (l : ConditionalLine) (p : Position) :
    ∃ k d, Token.scanFrom p l.print = [k] ∧ k.payload = .directive d := by
  rw [print, Glyph.scanFrom_blanks l.blank]
  exact l.directive.scanFrom_line _

/-- **Lines are scanned as directives.** -/
theorem directive_of_mem_printAll : ∀ {ls : List ConditionalLine} {p : Position} {t : Token},
    t ∈ Token.scanFrom p (printAll ls) → ∃ d, t.payload = .directive d
  | [], _, _, h => by
    rw [printAll, List.flatMap_nil, Glyph.scanFrom_blank blank_nil] at h
    cases h
  | l :: ls, p, t, h => by
    obtain ⟨k, d, hk, hd⟩ := l.scanFrom_print p
    have hcons : printAll (l :: ls) = l.print ++ printAll ls := List.flatMap_cons
    rw [hcons, l.sealed_print, hk] at h
    rcases List.mem_cons.mp h with rfl | h
    · exact ⟨d, hd⟩
    · exact directive_of_mem_printAll h

theorem directive_of_mem_inserted {p : Position} {t : Token}
    (h : t ∈ Token.scanFrom p (inserted ls)) : ∃ d, t.payload = .directive d := by
  unfold inserted at h
  split at h
  · rw [Glyph.scanFrom_blank blank_nil] at h
    cases h
  · rw [← List.singleton_append, Glyph.scanFrom_blanks blank_newline] at h
    exact directive_of_mem_printAll h

theorem scanFrom_inserted_ne_nil (h : ls ≠ []) (p : Position) :
    Token.scanFrom p (inserted ls) ≠ [] := by
  obtain ⟨l, ls, rfl⟩ := List.exists_cons_of_ne_nil h
  obtain ⟨k, d, hk, -⟩ := l.scanFrom_print (p.advance ['\n'])
  have hcons : inserted (l :: ls) = ['\n'] ++ (l.print ++ printAll ls) := rfl
  rw [hcons, Glyph.scanFrom_blanks blank_newline, l.sealed_print, hk]
  exact List.cons_ne_nil _ _

theorem words_printAll_ne_nil (h : ls ≠ []) : Text.words (printAll ls) ≠ [] := by
  obtain ⟨l, ls, rfl⟩ := List.exists_cons_of_ne_nil h
  intro hwords
  have hmem : '\x60' ∈ printAll (l :: ls) := by
    have := List.mem_of_head? l.directive.head?_line
    simp [printAll, print, this]
  have := Text.words_eq_nil_iff.mp hwords _ hmem
  revert this
  decide

theorem quote_notMem_printAll (ls : List ConditionalLine) : '\x22' ∉ printAll ls := by
  intro h
  obtain ⟨l, -, hl⟩ := List.mem_flatMap.mp h
  rcases List.mem_append.mp hl with hl | hl
  · have := l.blank _ hl
    revert this
    decide
  · exact l.directive.quote_notMem_line hl

end ConditionalLine

open ConditionalLine (inserted printAll)

/-! ### Parts with lines around them -/

/-- A part of a text with lines before and behind it. -/
structure Framed where
  before : List ConditionalLine
  part : Text
  behind : List ConditionalLine

/-- The part as it is written. -/
def Framed.print (f : Framed) : Text := inserted f.before ++ (f.part ++ inserted f.behind)

/-- There are no lines behind the part, and lines before it only if the part has a keyword. -/
structure Framed.Passed (o : Options) (f : Framed) : Prop where
  behind : f.behind = []
  before : f.before ≠ [] → (Parameter.afterKeyword? o (Token.scan f.part)).isSome = true

namespace Parameter

variable {o : Options} {t : Text} {ls : List ConditionalLine}

theorem flat_of_directive {tok : Token} (h : ∃ d, tok.payload = .directive d) :
    flat tok.payload = true := by
  obtain ⟨d, hd⟩ := h
  rw [hd]
  rfl

theorem isKeyword_of_directive {tok : Token} (h : ∃ d, tok.payload = .directive d) :
    isKeyword o tok = false := by
  obtain ⟨d, hd⟩ := h
  unfold isKeyword
  rw [hd]

theorem whole_inserted (ls : List ConditionalLine) (p : Position) :
    Whole (Token.scanFrom p (inserted ls)) :=
  whole_of_flat fun _ ht => flat_of_directive (ConditionalLine.directive_of_mem_inserted ht)

theorem whole_printAll (ls : List ConditionalLine) (p : Position) :
    Whole (Token.scanFrom p (printAll ls)) :=
  whole_of_flat fun _ ht => flat_of_directive (ConditionalLine.directive_of_mem_printAll ht)

theorem isPart_behind (h : IsPart t) (ls : List ConditionalLine) : IsPart (t ++ inserted ls) := by
  by_cases hls : ls = []
  · rwa [hls, ConditionalLine.inserted_nil, List.append_nil]
  have hsealed := (Text.sealed_newline h.terminated).append (ConditionalLine.sealed_printAll ls)
  have htext : t ++ inserted ls = t ++ ['\n'] ++ printAll ls := by
    rw [ConditionalLine.inserted_of_ne_nil hls]
    simp
  have hreads : Glyph.ReadAll [Symbol.comma.glyph []] [] := ⟨Symbol.comma.reads blank_nil _, trivial⟩
  have hcomma : ∀ p, Token.scanFrom p [','] = [(Symbol.comma.glyph []).token p] :=
    Glyph.scanFrom_spell_blank hreads blank_nil
  have hwhole := h.whole.congr (Token.map_skeleton_scan_newline h.terminated)
  rw [htext]
  have hscan : Token.scan (t ++ ['\n'] ++ printAll ls ++ [',']) =
      Token.scan (t ++ ['\n'] ++ printAll ls) ++ [(Symbol.comma.glyph []).token
        (Position.start.advance (t ++ ['\n'] ++ printAll ls))] := by
    rw [Token.scan, hsealed, hcomma]
    rfl
  refine isPart_of_scan hscan rfl ?_
  rw [Token.scan, Text.sealed_newline h.terminated]
  exact hwhole.append (whole_printAll ls _)

theorem isPart_before (h : IsPart t) (ls : List ConditionalLine) : IsPart (inserted ls ++ t) := by
  obtain ⟨c, hc, hscan⟩ := h.scanFrom (Position.start.advance (inserted ls)) []
  rw [Glyph.scanFrom_blank blank_nil] at hscan
  have hboth : Token.scan (inserted ls ++ t ++ [',']) = Token.scan (inserted ls ++ t) ++ [c] := by
    rw [List.append_assoc, Token.scan, ConditionalLine.sealed_inserted, hscan, Token.scan,
      ConditionalLine.sealed_inserted, List.append_assoc]
  refine isPart_of_scan hboth hc ?_
  rw [Token.scan, ConditionalLine.sealed_inserted]
  exact (whole_inserted ls _).append (h.whole.congr (Token.map_skeleton_scanFrom _ _))

theorem isLast_behind (h : IsLast t) (ls : List ConditionalLine) : IsLast (t ++ inserted ls) := by
  by_cases hls : ls = []
  · rwa [hls, ConditionalLine.inserted_nil, List.append_nil]
  obtain ⟨ts, us, hscan, hskeleton, hus⟩ :=
    Token.scanFrom_behind t (ConditionalLine.quote_notMem_printAll ls) Position.start
  rw [ConditionalLine.inserted_of_ne_nil hls, IsLast, Token.scan, hscan]
  refine runs_append_flat (runs_singleton_congr hskeleton h) fun u hu => ?_
  rcases hus with rfl | rfl
  · cases hu
  · exact flat_of_directive (ConditionalLine.directive_of_mem_printAll hu)

theorem isLast_before (h : IsLast t) (ls : List ConditionalLine) : IsLast (inserted ls ++ t) := by
  have hone : runs 0 (Token.scanFrom (Position.start.advance (inserted ls)) t) =
      [Token.scanFrom (Position.start.advance (inserted ls)) t] :=
    runs_singleton_congr (Token.map_skeleton_scanFrom _ _) h
  rw [IsLast, Token.scan, ConditionalLine.sealed_inserted, whole_inserted, hone]
  rfl

/-- **Lines around the parts of a text** leave its commas where they are. -/
theorem isCut_framed : ∀ {fs : List Framed}, IsCut (fs.map Framed.part) →
    IsCut (fs.map Framed.print)
  | [], h => h
  | [_], h => isLast_before (isLast_behind h _) _
  | _ :: f :: fs, ⟨hpart, hrest⟩ =>
    ⟨isPart_before (isPart_behind hpart _) _, @isCut_framed (f :: fs) hrest⟩

/-! ### Reading a part with lines around it -/

/-- A directive is no name. -/
theorem binding?_of_directive {text : Text} {shape : Option String} {ts : List Token}
    (h : ∀ tok ∈ ts.head?, ∃ d, tok.payload = .directive d) : binding? text shape ts = none := by
  unfold binding?
  split
  · rename_i n e v vs
    obtain ⟨d, hd⟩ := h n rfl
    have hname : n.identifier? = none := by rw [Token.identifier?, hd]; rfl
    simp [hname]
  · rfl

/-- **Lines before a part** are passed over if the part has a keyword, and hide its name else. -/
theorem ofPart?_before (inherited : Option (Option String)) (ls : List ConditionalLine) (t : Text) :
    ofPart? o inherited (inserted ls ++ t) =
      if ls ≠ [] ∧ (afterKeyword? o (Token.scan t)).isSome = false then none
      else ofPart? o inherited t := by
  by_cases hls : ls = []
  · rw [hls, ConditionalLine.inserted_nil, if_neg (by simp)]
    rfl
  have hscan : Token.scan (inserted ls ++ t) = Token.scanFrom Position.start (inserted ls) ++
      Token.scanFrom (Position.start.advance (inserted ls)) t := ConditionalLine.sealed_inserted ls _ _
  have hread := ofSegment?_part (o := o) inherited (inserted ls) t []
  rw [List.append_nil] at hread
  have hdirective : ∀ tok ∈ Token.scanFrom Position.start (inserted ls),
      ∃ d, tok.payload = .directive d := fun _ h => ConditionalLine.directive_of_mem_inserted h
  have hafter : afterKeyword? o (Token.scan (inserted ls ++ t)) =
      afterKeyword? o (Token.scanFrom (Position.start.advance (inserted ls)) t) := by
    unfold afterKeyword?
    rw [hscan, List.dropWhile_append_of_pos fun tok htok => by
      simp [isKeyword_of_directive (hdirective tok htok)]]
  have hmoved : afterKeyword? o (Token.scanFrom (Position.start.advance (inserted ls)) t) =
      (afterKeyword? o (Token.scan t)).map (List.map (Token.relocate
        (Position.behind (Position.start.advance (inserted ls))))) := by
    have hsame : ∀ tok : Token, (tok.relocate (Position.behind
        (Position.start.advance (inserted ls)))).skeleton = tok.skeleton := fun _ => rfl
    rw [Token.scanFrom_eq_relocate, afterKeyword?_map hsame]
  cases ha : afterKeyword? o (Token.scan t) with
  | some us =>
    rw [if_neg (by simp), ← hread]
    rw [ha] at hmoved
    unfold ofPart? ofSegment?
    rw [hafter, hmoved]
    rfl
  | none =>
    rw [if_pos ⟨hls, rfl⟩]
    rw [ha] at hmoved
    unfold ofPart? ofSegment?
    rw [hafter, hmoved, Option.map_none]
    -- the first token is a directive, hence no name
    obtain ⟨k, us, hk⟩ := List.exists_cons_of_ne_nil
      (ConditionalLine.scanFrom_inserted_ne_nil hls Position.start)
    obtain ⟨d, hd⟩ := hdirective k (by simp [hk])
    cases inherited with
    | none => rfl
    | some shape =>
      refine binding?_of_directive fun tok htok => ?_
      rw [hscan, hk] at htok
      obtain rfl : k = tok := by simpa using htok
      exact ⟨d, hd⟩

/-- Lines behind a part that declares a parameter change its value. -/
theorem ofPart?_behind {inherited : Option (Option String)} {q : Parameter} (hls : ls ≠ [])
    (h : ofPart? o inherited t = some q) :
    ∃ q', ofPart? o inherited (t ++ inserted ls) = some q' ∧ q' ≠ q := by
  obtain ⟨q', hq', hne⟩ := defaultValue_ne_of_behind h (ConditionalLine.quote_notMem_printAll ls)
    (fun _ _ htok => isKeyword_of_directive (ConditionalLine.directive_of_mem_printAll htok))
    (ConditionalLine.words_printAll_ne_nil hls)
  rw [← ConditionalLine.inserted_of_ne_nil hls] at hq'
  exact ⟨q', hq', fun he => hne (by rw [he])⟩

/-! ### Texts with lines between their parts -/

theorem scan_print_ne_nil {f : Framed} (h : Token.scan f.part ≠ [] ∨ f.before ≠ [] ∨ f.behind ≠ []) :
    Token.scan f.print ≠ [] := by
  -- some character of the printed part is not blank
  rw [ne_eq, Token.scan_eq_nil_iff]
  intro hblank
  have hpart : ∀ c ∈ f.part, isBlank c = true := fun c hc => hblank c (by simp [Framed.print, hc])
  have hinserted : ∀ ls : List ConditionalLine, (∀ c ∈ inserted ls, isBlank c = true) → ls = [] := by
    intro ls hls
    by_contra hne
    rw [ConditionalLine.inserted_of_ne_nil hne] at hls
    exact ConditionalLine.words_printAll_ne_nil hne
      (Text.words_eq_nil_iff.mpr fun c hc => hls c (List.mem_cons_of_mem _ hc))
  rcases h with h | h | h
  · exact h (Token.scan_eq_nil_iff.mpr hpart)
  · exact h (hinserted _ fun c hc => hblank c (by simp [Framed.print, hc]))
  · exact h (hinserted _ fun c hc => hblank c (by simp [Framed.print, hc]))

/-- Lines alone declare nothing. -/
theorem ofPart?_lines (inherited : Option (Option String)) {f : Framed}
    (h : Token.scan f.part = []) : ofPart? o inherited f.print = none := by
  have hblank := Token.scan_eq_nil_iff.mp h
  have hdirective : ∀ tok ∈ Token.scan f.print, ∃ d, tok.payload = .directive d := by
    intro tok htok
    rw [Framed.print, Token.scan, ConditionalLine.sealed_inserted, Glyph.scanFrom_blanks hblank] at htok
    rcases List.mem_append.mp htok with htok | htok
    · exact ConditionalLine.directive_of_mem_inserted htok
    · exact ConditionalLine.directive_of_mem_inserted htok
  have hkeyword : afterKeyword? o (Token.scan f.print) = none :=
    afterKeyword?_eq_none_iff.mpr fun tok htok => isKeyword_of_directive (hdirective tok htok)
  rw [ofPart?, ofSegment?, hkeyword]
  cases inherited with
  | none => rfl
  | some shape => exact binding?_of_directive fun tok htok => hdirective tok (List.mem_of_mem_head? htok)

section Outcomes

variable {f : Framed} {fs : List Framed} {inherited : Option (Option String)} {q : Parameter}

theorem rejected_ne_nil_of_none {ps : List Text} (h : Token.scan t ≠ [])
    (hnone : ofPart? o inherited t = none) : rejected (partOutcomes o inherited (t :: ps)) ≠ [] := by
  rw [partOutcomes, if_neg (by simpa using h)]
  simp only [hnone]
  exact List.cons_ne_nil _ _

/-- **Lines around parts that all declare parameters:** the parameters stay exactly when all lines are
passed over. -/
theorem partOutcomes_framed_iff : ∀ (fs : List Framed) (inherited : Option (Option String)),
    rejected (partOutcomes o inherited (fs.map Framed.part)) = [] →
      (accepted (partOutcomes o inherited (fs.map Framed.print)) =
          accepted (partOutcomes o inherited (fs.map Framed.part)) ∧
        rejected (partOutcomes o inherited (fs.map Framed.print)) = [] ↔ ∀ f ∈ fs, f.Passed o)
  | [], _, _ => by simp [partOutcomes, accepted, rejected]
  | f :: fs, inherited, h => by
    rw [List.map_cons] at h
    rw [List.map_cons, List.map_cons, List.forall_mem_cons]
    by_cases hscan : Token.scan f.part = []
    · rw [partOutcomes_of_nil hscan] at h ⊢
      by_cases hlines : f.before = [] ∧ f.behind = []
      · -- a part without tokens and without lines is skipped in both texts
        have hprint : f.print = f.part := by
          rw [Framed.print, hlines.1, hlines.2, ConditionalLine.inserted_nil]
          simp
        have hpassed : f.Passed o := ⟨hlines.2, fun hne => absurd hlines.1 hne⟩
        rw [hprint, partOutcomes_of_nil hscan, partOutcomes_framed_iff fs inherited h]
        exact (and_iff_right hpassed).symm
      · have hne : Token.scan f.print ≠ [] :=
          scan_print_ne_nil (Or.inr (not_and_or.mp hlines))
        refine iff_of_false (fun hsame => ?_) fun hpassed => ?_
        · exact rejected_ne_nil_of_none hne (ofPart?_lines inherited hscan) hsame.2
        · refine hlines ⟨?_, hpassed.1.behind⟩
          by_contra hbefore
          have := hpassed.1.before hbefore
          rw [hscan] at this
          cases this
    · obtain ⟨q, hq⟩ : ∃ q, ofPart? o inherited f.part = some q := by
        cases hq : ofPart? o inherited f.part with
        | none => exact absurd h (rejected_ne_nil_of_none hscan hq)
        | some q => exact ⟨q, rfl⟩
      have hne : Token.scan f.print ≠ [] := scan_print_ne_nil (Or.inl hscan)
      rw [partOutcomes_of_some hscan hq] at h ⊢
      have hread := ofPart?_before inherited f.before (o := o) (f.part ++ inserted f.behind)
      rw [← Framed.print] at hread
      by_cases hbehind : f.behind = []
      · rw [hbehind, ConditionalLine.inserted_nil, List.append_nil] at hread
        by_cases hhidden : f.before ≠ [] ∧ (afterKeyword? o (Token.scan f.part)).isSome = false
        · -- the lines hide the name
          rw [if_pos hhidden] at hread
          refine iff_of_false (fun hsame => rejected_ne_nil_of_none hne hread hsame.2) fun hpassed => ?_
          have := hpassed.1.before hhidden.1
          rw [hhidden.2] at this
          cases this
        · rw [if_neg hhidden, hq] at hread
          have hpassed : f.Passed o := by
            refine ⟨hbehind, fun hbefore => ?_⟩
            by_contra hnone
            exact hhidden ⟨hbefore, by simpa using hnone⟩
          rw [partOutcomes_of_some hne hread, and_iff_right hpassed,
            ← partOutcomes_framed_iff fs (some q.sizeOrType) h, accepted_ok_cons, accepted_ok_cons,
            rejected_ok_cons, List.cons_inj_right]
      · -- the lines are read into the value, if the name is not hidden
        refine iff_of_false (fun hsame => ?_) fun hpassed => hbehind hpassed.1.behind
        obtain ⟨q', hq', hdiff⟩ := ofPart?_behind hbehind hq
        rw [hq'] at hread
        split at hread
        · exact rejected_ne_nil_of_none hne hread hsame.2
        · rw [partOutcomes_of_some hne hread] at hsame
          exact hdiff (List.cons.inj hsame.1).1

end Outcomes

/-- **Directives between parameters.** Every text is its parts with commas between them. Where all of
its segments declare parameters and lines with conditional directives are put around its parts, the
text declares the same parameters without a diagnostic exactly when no lines stand behind a part and
none before a part without a keyword. -/
theorem ofBlock_framed (o : Options) (module : String) {text : Text}
    (h : blockDiagnostics module (ofBlock o text) = []) :
    (∃ ps, IsCut ps ∧ join ps = text) ∧
    ∀ fs : List Framed, IsCut (fs.map Framed.part) → join (fs.map Framed.part) = text →
      ((ofBlock o (join (fs.map Framed.print))).parameters = (ofBlock o text).parameters ∧
        (blockDiagnostics module (ofBlock o (join (fs.map Framed.print)))).length =
          (blockDiagnostics module (ofBlock o text)).length ↔ ∀ f ∈ fs, f.Passed o) := by
  refine ⟨exists_isCut text, ?_⟩
  rintro fs hcut rfl
  have hnone : rejected (partOutcomes o none (fs.map Framed.part)) = [] := by
    rw [ofBlock_parts hcut] at h
    exact List.map_eq_nil_iff.mp h
  rw [h, ofBlock_parts hcut, ofBlock_parts (isCut_framed hcut),
    ← partOutcomes_framed_iff fs none hnone]
  simp [blockDiagnostics]

/-- A directive behind the comma is passed over; before the comma it becomes part of a value. -/
theorem ofBlock_framed_ifdef :
    let o : Options := {}
    let text : Text := "parameter A = 1, parameter B = 2".toList
    let x : Word := ⟨"X".toList, by decide⟩
    let line : ConditionalLine := ⟨[], .opening .ifdef x, by simp⟩
    let passed : List Framed := [⟨[], "parameter A = 1".toList, []⟩,
      ⟨[line], " parameter B = 2".toList, []⟩]
    let absorbed : List Framed := [⟨[], "parameter A = 1".toList, [line]⟩,
      ⟨[], " parameter B = 2".toList, []⟩]
    join (passed.map Framed.print) =
        "parameter A = 1,\n\x60ifdef X\n parameter B = 2".toList ∧
      join (absorbed.map Framed.print) =
        "parameter A = 1\n\x60ifdef X\n, parameter B = 2".toList ∧
      blockDiagnostics "m" (ofBlock o text) = [] ∧
      ((ofBlock o (join (passed.map Framed.print))).parameters = (ofBlock o text).parameters ∧
        (blockDiagnostics "m" (ofBlock o (join (passed.map Framed.print)))).length =
          (blockDiagnostics "m" (ofBlock o text)).length) ∧
      ¬ ((ofBlock o (join (absorbed.map Framed.print))).parameters = (ofBlock o text).parameters ∧
        (blockDiagnostics "m" (ofBlock o (join (absorbed.map Framed.print)))).length =
          (blockDiagnostics "m" (ofBlock o text)).length) := by
  intro o text x line passed absorbed
  have hok : blockDiagnostics "m" (ofBlock o text) = [] := by decide +kernel
  have hfirst : IsPart "parameter A = 1".toList :=
    ⟨Token.scan "parameter A = 1".toList, by decide +kernel⟩
  have hlast : IsLast " parameter B = 2".toList := by
    unfold IsLast
    decide +kernel
  obtain ⟨-, hiff⟩ := ofBlock_framed o "m" hok
  refine ⟨by decide +kernel, by decide +kernel, hok, ?_, ?_⟩
  · refine (hiff passed ⟨hfirst, hlast⟩ (by decide +kernel)).mpr ?_
    refine List.forall_mem_cons.mpr ⟨⟨rfl, fun h => absurd rfl h⟩,
      List.forall_mem_singleton.mpr ⟨rfl, fun _ => ?_⟩⟩
    decide +kernel
  · refine (hiff absorbed ⟨hfirst, hlast⟩ (by decide +kernel)).not.mpr fun h => ?_
    have := (h _ List.mem_cons_self).behind
    cases this

end Parameter

end DesignAtlas
