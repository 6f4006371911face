import DesignAtlas.Proofs.Position.Truthful
import DesignAtlas.Proofs.Token.Between
import DesignAtlas.Proofs.Token.Places
import DesignAtlas.Proofs.Token.Word

/-! # Directives and the lines of a text

A directive takes effect for the rest of its line, so the directive tokens that count are those that
begin before any other on their lines (`leading`). They can be found without reading the tokens
before them: go through each line to the first character at which a directive is recognised
(`Directive.first?`). Both ways agree when every backtick begins a token or stands behind a
directive, that is, when no string and no escaped identifier holds one (`filterMap_first?_lines`).

The two are brought together by a walk through the characters of the text that remembers whether a
directive has cut off the rest of the line (`heads`). -/

namespace DesignAtlas

/-- The directive that a payload is. -/
def Payload.directive? : Payload → Option Directive
  | .directive d => some d
  | _ => none

/-- Whether a token of this payload begins with a backtick. -/
def Payload.isTicked : Payload → Bool
  | .directive _ | .macroUse _ => true
  | _ => false

namespace Token

/-- The directive that the token is. -/
def directive? (t : Token) : Option Directive := t.payload.directive?

/-- No directive token of the list begins before `t` on the line on which `t` begins. -/
def Leads (ts : List Token) (t : Token) : Prop :=
  ∀ u ∈ ts, u.directive?.isSome → u.span.start.line = t.span.start.line →
    t.span.start.offset ≤ u.span.start.offset

instance (ts : List Token) (t : Token) : Decidable (Leads ts t) :=
  inferInstanceAs (Decidable (∀ u ∈ ts, _ → _ → _))

/-- The tokens before which no directive begins on their lines. -/
def leading (ts : List Token) : List Token := ts.filter fun t => Leads ts t

/-- No token holds a backtick, except those that begin with one. -/
def Unquoted (text : Text) : Prop :=
  ∀ t ∈ scan text, '\x60' ∈ t.span.slice text → t.payload.isTicked = true

instance (text : Text) : Decidable (Unquoted text) :=
  inferInstanceAs (Decidable (∀ t ∈ scan text, _ → _))

end Token

/-! ### Recognising a directive -/

/-- The directive at the very front of a text, as the tokens are read. -/
def Directive.atFront? : Text → Option Directive
  | [] => none
  | c :: t => (Lexeme.recognise c t).payload.directive?

/-- The first directive of a line: the one at the first character that one begins at. -/
def Directive.first? (line : Text) : Option Directive := line.tails.findSome? Directive.atFront?

namespace Payload

theorem isTicked_ofWord (w : String) : (ofWord w).isTicked = false := by
  unfold ofWord
  split <;> rfl

theorem isTicked_ofChar (c : Char) : (ofChar c).isTicked = false := by
  unfold ofChar
  split <;> rfl

theorem directive?_eq_none {p : Payload} (h : p.isTicked = false) : p.directive? = none := by
  cases p <;> first | rfl | cases h

end Payload

namespace Lexeme

theorem recognise_backtick (t : Text) : recognise '\x60' t = directive t := if_pos rfl

theorem isTicked_recognise {c : Char} (h : c ≠ '\x60') (t : Text) :
    (recognise c t).payload.isTicked = false := by
  unfold recognise
  rw [if_neg h]
  split_ifs
  · exact Payload.isTicked_ofWord _
  · exact Payload.isTicked_ofWord _
  · rfl
  · rfl
  · exact Payload.isTicked_ofChar c

/-- A directive does not look past the end of its line. -/
theorem payload_directive_newline (a b : Text) :
    (directive (a ++ '\n' :: b)).payload = (directive a).payload := by
  have hword : isWordChar '\n' = false := by decide
  have hblank : isInlineBlank '\n' = false := by decide
  unfold directive
  simp only [Text.takeWhile_append_cons hword, Text.dropWhile_append_cons hword]
  cases Directive.extent? (String.ofList (a.takeWhile isWordChar)) with
  | none => rfl
  | some e =>
    cases e with
    | bare => rfl
    | word =>
      simp only [Text.dropWhile_append_cons hblank, Text.takeWhile_append_cons hword]
    | line => simp only [Text.takeWhile_append_cons (p := (· != '\n')) (c := '\n') rfl]

theorem newline_notMem_directive (t : Text) : '\n' ∉ (directive t).text := by
  have hword : ∀ u : Text, '\n' ∉ u.takeWhile isWordChar := by
    intro u hu
    exact absurd (List.mem_takeWhile_imp hu) (by decide)
  have hblank : ∀ u : Text, '\n' ∉ u.takeWhile isInlineBlank := by
    intro u hu
    exact absurd (List.mem_takeWhile_imp hu) (by decide)
  have hline : ∀ u : Text, '\n' ∉ u.takeWhile (· != '\n') := by
    intro u hu
    exact absurd (List.mem_takeWhile_imp hu) (by decide)
  unfold directive
  simp only
  split <;> simp [hword, hblank, hline]

/-- A macro use holds no backtick but its own. -/
theorem exists_of_macroUse {t : Text} (h : (directive t).payload.directive? = none) :
    ∃ u, (directive t).text = '\x60' :: u ∧ '\x60' ∉ u := by
  have hword : '\x60' ∉ t.takeWhile isWordChar := by
    intro hu
    exact absurd (List.mem_takeWhile_imp hu) (by decide)
  unfold directive at h ⊢
  simp only at h ⊢
  split at h
  · exact ⟨_, rfl, hword⟩
  all_goals cases h

end Lexeme

namespace Directive

theorem atFront?_of_ne {c : Char} (h : c ≠ '\x60') (t : Text) : atFront? (c :: t) = none :=
  Payload.directive?_eq_none (Lexeme.isTicked_recognise h t)

theorem atFront?_backtick (t : Text) :
    atFront? ('\x60' :: t) = (Lexeme.directive t).payload.directive? := by
  rw [atFront?, Lexeme.recognise_backtick]

theorem atFront?_newline (c : Char) (a b : Text) :
    atFront? (c :: (a ++ '\n' :: b)) = atFront? (c :: a) := by
  by_cases hc : c = '\x60'
  · subst hc
    rw [atFront?_backtick, atFront?_backtick, Lexeme.payload_directive_newline]
  · rw [atFront?_of_ne hc, atFront?_of_ne hc]

theorem first?_cons (c : Char) (t : Text) : first? (c :: t) = (atFront? (c :: t)).or (first? t) := by
  unfold first?
  rw [List.tails, List.findSome?_cons]
  cases atFront? (c :: t) <;> rfl

/-! ### The walk through the characters -/

/-- The directives that begin where none has cut off the rest of the line; `cut` says whether one
has already. -/
def heads (cut : Bool) : Text → List Directive
  | [] => []
  | c :: t =>
    if c = '\n' then heads false t
    else if cut then heads true t
    else
      match atFront? (c :: t) with
      | some d => d :: heads true t
      | none => heads false t

/-- **The walk finds the first directive of each line.** -/
theorem heads_eq_filterMap_lines (t : Text) : ∀ {l : Text} {ls : List Text} (cut : Bool),
    Text.lines t = l :: ls →
      heads cut t = (if cut then [] else (first? l).toList) ++ ls.filterMap first? := by
  induction t with
  | nil =>
    intro l ls cut h
    obtain ⟨rfl, rfl⟩ := List.cons.inj h
    cases cut <;> rfl
  | cons c t ih =>
    intro l ls cut h
    obtain ⟨m, ms, hm, hrest⟩ := Text.exists_lines t
    have hcons : Text.lines (c :: t) = if c == '\n' then [] :: (m :: ms) else (c :: m) :: ms := by
      rw [Text.lines, Text.split_cons, ← Text.lines, hm]
      rfl
    rw [hcons] at h
    rw [heads]
    by_cases hc : c = '\n'
    · rw [if_pos (by simpa using hc), List.cons.injEq] at h
      obtain ⟨rfl, rfl⟩ := h
      rw [if_pos hc, ih false hm, List.filterMap_cons]
      cases cut <;> cases first? m <;> rfl
    · rw [if_neg (by simpa using hc), List.cons.injEq] at h
      obtain ⟨rfl, rfl⟩ := h
      have hfront : atFront? (c :: t) = atFront? (c :: m) := by
        rcases hrest with ⟨rfl, -⟩ | ⟨u, rfl, -⟩
        · rfl
        · exact atFront?_newline c m u
      rw [if_neg hc, hfront, first?_cons]
      cases cut with
      | true => exact ih true hm
      | false =>
        cases atFront? (c :: m) with
        | some d => simp [ih true hm]
        | none => simp [ih false hm]

/-! ### The walk along the tokens -/

theorem heads_append_of_plain {b : Text} (hb : '\x60' ∉ b) (cut : Bool) (rest : Text) :
    heads cut (b ++ rest) = heads (cut && decide ('\n' ∉ b)) rest := by
  induction b generalizing cut with
  | nil => simp
  | cons c b ih =>
    rw [List.mem_cons, not_or] at hb
    rw [List.cons_append, heads]
    by_cases hc : c = '\n'
    · rw [if_pos hc, ih hb.2, hc]
      simp
    · rw [if_neg hc, atFront?_of_ne (Ne.symm hb.1), ih hb.2, ih hb.2]
      cases cut <;> simp [Ne.symm hc]

/-- The rest of a line that is cut off holds nothing. -/
theorem heads_true_append {b : Text} (hb : '\n' ∉ b) (rest : Text) :
    heads true (b ++ rest) = heads true rest := by
  induction b with
  | nil => rfl
  | cons c b ih =>
    rw [List.mem_cons, not_or] at hb
    rw [List.cons_append, heads, if_neg (Ne.symm hb.1), if_pos rfl, ih hb.2]

section Glyph

variable {g : Glyph} {rest : Text} (hg : g.Reads rest)

include hg

theorem backtick_notMem_gap : '\x60' ∉ g.gap := fun h => absurd (hg.blank _ h) (by decide)

theorem heads_directive {d : Directive} (hd : g.payload.directive? = some d) (cut : Bool) :
    heads cut (g.spelling ++ rest) =
      (if cut && decide ('\n' ∉ g.gap) then [] else [d]) ++ heads true rest ∧ '\n' ∉ g.text := by
  obtain ⟨c, cs, htext, -, hread⟩ := hg.lexeme
  have hc : c = '\x60' := by
    by_contra hne
    have hnone := atFront?_of_ne hne (cs ++ rest)
    rw [atFront?, hread, hd] at hnone
    cases hnone
  subst hc
  have hnewline : '\n' ∉ g.text := by
    have := Lexeme.newline_notMem_directive (cs ++ rest)
    rwa [← Lexeme.recognise_backtick, hread] at this
  have hcs : '\n' ∉ cs := fun h => hnewline (by rw [htext]; exact List.mem_cons_of_mem _ h)
  have hfront : atFront? ('\x60' :: (cs ++ rest)) = some d := by rw [atFront?, hread, hd]
  refine ⟨?_, hnewline⟩
  rw [Glyph.spelling, List.append_assoc, heads_append_of_plain (backtick_notMem_gap hg), htext,
    List.cons_append, heads, if_neg (by decide), hfront]
  cases cut && decide ('\n' ∉ g.gap) <;> simp [heads_true_append hcs]

theorem heads_other (hd : g.payload.directive? = none)
    (hq : '\x60' ∈ g.text → g.payload.isTicked = true) (cut : Bool) :
    heads cut (g.spelling ++ rest) = heads (cut && decide ('\n' ∉ g.spelling)) rest := by
  obtain ⟨c, cs, htext, -, hread⟩ := hg.lexeme
  have hgap := backtick_notMem_gap hg
  by_cases hc : c = '\x60'
  · -- a macro use: its backtick begins no directive, and its name holds no newline
    subst hc
    have hfront : atFront? ('\x60' :: (cs ++ rest)) = none := by rw [atFront?, hread, hd]
    rw [Lexeme.recognise_backtick] at hread
    have hnewline := Lexeme.newline_notMem_directive (cs ++ rest)
    obtain ⟨u, hu, hfree⟩ := Lexeme.exists_of_macroUse (t := cs ++ rest) (by rw [hread, hd])
    rw [hread, htext] at hu hnewline
    obtain rfl := (List.cons.inj hu).2
    have hcs : '\n' ∉ cs := fun h => hnewline (List.mem_cons_of_mem _ h)
    rw [Glyph.spelling, List.append_assoc, heads_append_of_plain hgap, htext, List.cons_append,
      heads, if_neg (by decide), hfront, heads_true_append hcs, heads_append_of_plain hfree]
    by_cases hn : '\n' ∈ g.gap <;> cases cut <;> simp [hn, hcs]
  · refine heads_append_of_plain (fun hmem => ?_) cut rest
    rcases List.mem_append.mp hmem with hmem | hmem
    · exact hgap hmem
    · have hticked := hq hmem
      have hplain := Lexeme.isTicked_recognise hc (cs ++ rest)
      rw [hread, hticked] at hplain
      cases hplain

end Glyph

end Directive

/-! ### Tokens that lead their lines -/

/-- Where the tokens `pre` end at `p`, the flag tells whether one of them is a directive that begins
on the line of `p`. -/
structure Cutting (pre : List Token) (p : Position) (cut : Bool) : Prop where
  line_le : ∀ u ∈ pre, u.span.start.line ≤ p.line
  cut_iff : cut = true ↔ ∃ u ∈ pre, u.directive?.isSome ∧ u.span.start.line = p.line

namespace Cutting

variable {pre : List Token} {p : Position} {cut : Bool} {t : Token}

theorem nil (p : Position) : Cutting [] p false := ⟨by simp, by simp⟩

/-- A newline begins a line that nothing has cut off. -/
theorem advance (h : Cutting pre p cut) (b : Text) :
    Cutting pre (p.advance b) (cut && decide ('\n' ∉ b)) := by
  have hline := Position.line_advance p b
  refine ⟨fun u hu => ?_, ?_⟩
  · have := h.line_le u hu
    omega
  · rw [Bool.and_eq_true, h.cut_iff, decide_eq_true_eq, ← List.count_eq_zero]
    constructor
    · rintro ⟨⟨u, hu, hd, hl⟩, hb⟩
      exact ⟨u, hu, hd, by omega⟩
    · rintro ⟨u, hu, hd, hl⟩
      have := h.line_le u hu
      exact ⟨⟨u, hu, hd, by omega⟩, by omega⟩

theorem concat_directive (h : Cutting pre p cut) (ht : t.directive?.isSome)
    (hl : t.span.start.line = p.line) : Cutting (pre ++ [t]) p true := by
  refine ⟨fun u hu => ?_, by simpa using Or.inr ⟨ht, hl⟩⟩
  rcases List.mem_append.mp hu with hu | hu
  · exact h.line_le u hu
  · obtain rfl := List.mem_singleton.mp hu
    exact hl.le

theorem concat_other (h : Cutting pre p cut) (ht : t.directive? = none)
    (hl : t.span.start.line ≤ p.line) : Cutting (pre ++ [t]) p cut := by
  refine ⟨fun u hu => ?_, by simpa [ht] using h.cut_iff⟩
  rcases List.mem_append.mp hu with hu | hu
  · exact h.line_le u hu
  · obtain rfl := List.mem_singleton.mp hu
    exact hl

/-- **A token leads its line** when no directive has cut the line off before it. -/
theorem leads_iff (h : Cutting pre t.span.start cut) {post : List Token}
    (hp : (pre ++ t :: post).Pairwise fun a b => a.span.start.offset < b.span.start.offset) :
    Token.Leads (pre ++ t :: post) t ↔ cut = false := by
  obtain ⟨-, hpost, hpre⟩ := List.pairwise_append.mp hp
  rw [← Bool.not_eq_true, h.cut_iff]
  constructor
  · rintro hlead ⟨u, hu, hd, hl⟩
    have hle := hlead u (List.mem_append_left _ hu) hd hl
    have hlt := hpre u hu t List.mem_cons_self
    omega
  · intro hnone u hu hd hl
    rcases List.mem_append.mp hu with hu | hu
    · exact absurd ⟨u, hu, hd, hl⟩ hnone
    · rcases List.mem_cons.mp hu with rfl | hu
      · exact Nat.le_refl _
      · exact ((List.pairwise_cons.mp hpost).1 u hu).le

end Cutting

namespace Directive

section Step

variable {g : Glyph} {rest : Text} {pre post : List Token} {p : Position} {cut : Bool}

/-- **The walk past one token** finds its directive if the token leads its line. -/
theorem heads_step (hg : g.Reads rest) (hq : '\x60' ∈ g.text → g.payload.isTicked = true)
    (hcut : Cutting pre p cut) (hp : (pre ++ g.token p :: post).Pairwise fun a b =>
      a.span.start.offset < b.span.start.offset) :
    ∃ cut', Cutting (pre ++ [g.token p]) (p.advance g.spelling) cut' ∧
      heads cut (g.spelling ++ rest) =
        ([g.token p].filter fun t => Token.Leads (pre ++ g.token p :: post) t).filterMap
          Token.directive? ++ heads cut' rest := by
  have hspelling := hcut.advance g.spelling
  cases hd : g.payload.directive? with
  | none =>
    have hd' : (g.token p).directive? = none := hd
    have hline : (g.token p).span.start.line ≤ (p.advance g.spelling).line := by
      simp only [Glyph.start_token, Position.line_advance, Glyph.spelling, List.count_append]
      omega
    refine ⟨_, hspelling.concat_other hd' hline, ?_⟩
    have hnone : ∀ q : Token → Bool, ([g.token p].filter q).filterMap Token.directive? = [] := by
      intro q
      rw [List.filter_singleton]
      cases q (g.token p) <;> simp [hd']
    rw [heads_other hg hd hq, hnone, List.nil_append]
  | some d =>
    have hd' : (g.token p).directive? = some d := hd
    obtain ⟨hheads, hnewline⟩ := heads_directive hg hd cut
    have hline : (g.token p).span.start.line = (p.advance g.spelling).line := by
      simp [Position.line_advance, Glyph.spelling, List.count_eq_zero.mpr hnewline]
    refine ⟨true, hspelling.concat_directive (by rw [hd']; rfl) hline, ?_⟩
    have hleads : Token.Leads (pre ++ g.token p :: post) (g.token p) ↔ _ :=
      Cutting.leads_iff (hcut.advance g.gap) hp
    rw [hheads, List.filter_singleton]
    cases hc : cut && decide ('\n' ∉ g.gap) with
    | true =>
      have hnot : ¬ Token.Leads (pre ++ g.token p :: post) (g.token p) := by
        rw [hleads, hc]
        exact Bool.noConfusion
      simp [hnot]
    | false =>
      have hlead := hleads.mpr hc
      simp [hlead, hd']

end Step

/-- **The walk finds the directives of the tokens that lead their lines.** -/
theorem heads_spell {tail : Text} (htail : ∀ c ∈ tail, isBlank c = true) : ∀ {gs : List Glyph}
    {pre : List Token} {p : Position} {cut : Bool}, Glyph.ReadAll gs tail →
    (∀ g ∈ gs, '\x60' ∈ g.text → g.payload.isTicked = true) → Cutting pre p cut →
    ((pre ++ Glyph.place p gs).Pairwise fun a b => a.span.start.offset < b.span.start.offset) →
      heads cut (Glyph.spell gs ++ tail) =
        ((Glyph.place p gs).filter fun t => Token.Leads (pre ++ Glyph.place p gs) t).filterMap
          Token.directive?
  | [], _, _, cut, _, _, _, _ => by
    have hfree : '\x60' ∉ tail := fun h => absurd (htail _ h) (by decide)
    have := heads_append_of_plain hfree cut []
    rw [List.append_nil] at this
    rw [Glyph.spell_nil, List.nil_append, this]
    rfl
  | g :: gs, pre, p, cut, hr, hq, hcut, hp => by
    rw [Glyph.place_cons] at hp ⊢
    obtain ⟨cut', hcut', hstep⟩ := heads_step hr.1 (hq g List.mem_cons_self) hcut hp
    have ih := heads_spell htail hr.2 (fun g' hg' => hq g' (List.mem_cons_of_mem g hg')) hcut'
      (by rwa [← List.append_cons])
    rw [← List.append_cons] at ih
    rw [Glyph.spell_cons, List.append_assoc, hstep, ih, ← List.filterMap_append,
      ← List.filter_append]
    rfl

/-- **The first directives of the lines are the directives of the tokens that lead their lines**,
when no token holds a backtick that does not begin with one. -/
theorem filterMap_first?_lines {text : Text} (h : Token.Unquoted text) :
    (Text.lines text).filterMap first? =
      (Token.leading (Token.scan text)).filterMap Token.directive? := by
  obtain ⟨l, ls, hlines, -⟩ := Text.exists_lines text
  have hwalk := heads_eq_filterMap_lines text false hlines
  have hfirst : heads false text = (Text.lines text).filterMap first? := by
    rw [hwalk, hlines, List.filterMap_cons]
    cases first? l <;> rfl
  rw [← hfirst]
  unfold Token.Unquoted at h
  obtain ⟨gs, tail, rfl, hb, hr⟩ := Glyph.exists_layout text
  have hscan : Token.scan (Glyph.spell gs ++ tail) = Glyph.place Position.start gs :=
    Glyph.scanFrom_spell_blank hr hb _
  rw [hscan] at h ⊢
  refine heads_spell hb hr (fun g hg hmem => ?_) (Cutting.nil _) (Glyph.pairwise_place hr)
  -- the slice of the token of a glyph is what the glyph is written with
  obtain ⟨as, bs, rfl⟩ := List.append_of_mem hg
  refine h (g.token (Position.start.advance (Glyph.spell as))) (by simp [Glyph.place_append]) ?_
  have hcovers : Span.Covers (Glyph.spell (as ++ g :: bs) ++ tail)
      (g.token (Position.start.advance (Glyph.spell as))).span g.text := by
    refine ⟨Glyph.spell as ++ g.gap, Glyph.spell bs ++ tail, ?_, ?_⟩
    · simp [Glyph.spelling]
    · simp [Glyph.token, Glyph.spelling]
  rwa [hcovers.slice_eq]

end Directive

end DesignAtlas
