import DesignAtlas.Proofs.Checked.Access
import DesignAtlas.Proofs.Token.Between
import DesignAtlas.Proofs.Token.Listed
import DesignAtlas.Token.Bracket

/-! # Runs, parentheses and ranges through checked accesses

The source text of a run of tokens is sliced from the start of the first token to the limit of the
last; this is faultless for tokens that follow one another in the text (`runText_eq`). Closing
parentheses and brackets lower a depth, which is positive whenever one is met, because the count
stops at zero (`closeParen_eq`, `closeBracket_eq`). Ranges are found by the index of their first
bracket and sliced one by one; together they give the text of all of them (`popRanges_eq`). -/

namespace DesignAtlas

/-! ### The text of runs without blanks -/

namespace Glyph

theorem squeeze_sourceOf_place {a c : Text} {gs : List Glyph} (h : ReadAll gs c) :
    Text.squeeze (Token.sourceOf (a ++ spell gs ++ c) (place (Position.start.advance a) gs)) =
      Text.squeeze (spell gs) := by
  cases gs with
  | nil => rfl
  | cons g gs =>
    have hgap : Text.squeeze g.gap = [] := by
      rw [Text.squeeze, List.filter_eq_nil_iff]
      intro x hx
      simp [h.1.blank x hx]
    rw [sourceOf_place, spell_cons, spelling]
    simp only [Text.squeeze, List.filter_append] at hgap ⊢
    rw [hgap, List.nil_append]

end Glyph

namespace Token

variable {text : Text} {r s : List Token}

theorem squeeze_sourceOf_append (h : r ++ s <:+: scan text) :
    Text.squeeze (sourceOf text (r ++ s)) =
      Text.squeeze (sourceOf text r) ++ Text.squeeze (sourceOf text s) := by
  obtain ⟨a, gs, c, rfl, hgs, hr⟩ := exists_layout_of_infix h
  obtain ⟨as, bs, rfl, rfl, rfl⟩ := Glyph.place_eq_append hgs
  have hrs := Glyph.readAll_append.mp hr
  have h1 := Glyph.squeeze_sourceOf_place (a := a) hrs.1
  have h2 := Glyph.squeeze_sourceOf_place (a := a ++ Glyph.spell as) hrs.2
  rw [Position.advance_append] at h2
  rw [← hgs, Glyph.squeeze_sourceOf_place hr, Glyph.spell_append, ← List.append_assoc a,
    h2, List.append_assoc (a ++ _), h1]
  exact List.filter_append ..

theorem squeeze_sourceOf_ne_nil (h : r <:+: scan text) (hne : r ≠ []) :
    Text.squeeze (sourceOf text r) ≠ [] := by
  obtain ⟨a, gs, c, rfl, rfl, hr⟩ := exists_layout_of_infix h
  cases gs with
  | nil => exact absurd rfl hne
  | cons g gs =>
    obtain ⟨x, xs, hx, hblank, -⟩ := hr.1.lexeme
    rw [Glyph.sourceOf_place, hx]
    simp [Text.squeeze, hblank]

/-- **The span of a run** covers its source text. -/
theorem covers_spanOf? {sp : Span} (h : r <:+: scan text) (hs : spanOf? r = some sp) :
    sp.Covers text (sourceOf text r) := by
  obtain ⟨a, gs, c, rfl, rfl, -⟩ := exists_layout_of_infix h
  cases gs with
  | nil => cases hs
  | cons g gs =>
    obtain ⟨t, ht, hl⟩ :=
      Glyph.exists_getLast?_place (Position.start.advance a) (List.cons_ne_nil g gs)
    rw [Glyph.sourceOf_place]
    refine ⟨a ++ g.gap, c, by simp [Glyph.spelling], ?_⟩
    unfold spanOf? at hs
    rw [ht] at hs
    obtain rfl := Option.some.inj hs
    simp [hl, Glyph.spelling]

end Token

namespace Checked

/-! ### Runs -/

/-- The text of a span. -/
def sliceSpan (text : Text) (s : Span) : Except Fault Text :=
  slice text s.start.offset s.limit.offset

/-- **What a span covers is sliced without a fault.** -/
theorem sliceSpan_eq {text t : Text} {s : Span} (h : s.Covers text t) :
    sliceSpan text s = .ok t := by
  obtain ⟨pre, post, rfl, rfl⟩ := h
  have := slice_append pre t post
  simpa [sliceSpan, Position.start] using this

/-- The source text of a run of tokens. -/
def runText (text : Text) (ts : List Token) : Except Fault Text :=
  match Token.spanOf? ts with
  | some s => sliceSpan text s
  | none => .ok []

theorem runText_eq {text : Text} {ts : List Token} (h : ts <:+: Token.scan text) :
    runText text ts = .ok (Token.sourceOf text ts) := by
  unfold runText
  cases hs : Token.spanOf? ts with
  | none => simp only [Token.sourceOf, hs]
  | some s => exact sliceSpan_eq (Token.covers_spanOf? h hs)

/-! ### Parentheses -/

/-- Cuts a token list at the parenthesis that closes all of `depth` open ones. -/
def closeParen (depth : Nat) : List Token → Except Fault (Option Token.Enclosed)
  | [] => .ok none
  | t :: ts =>
    if t.isSymbol .closeParen then do
      let d ← lower depth
      if d = 0 then return some ⟨[], t, ts⟩
      else return (← closeParen d ts).map (.cons t)
    else if t.isSymbol .openParen then do return (← closeParen (depth + 1) ts).map (.cons t)
    else do return (← closeParen depth ts).map (.cons t)

theorem closeParen_eq : ∀ (ts : List Token) (depth : Nat),
    closeParen (depth + 1) ts = .ok (Token.closeParen? depth ts)
  | [], _ => rfl
  | t :: ts, depth => by
    unfold closeParen Token.closeParen?
    split_ifs with hc ho
    · cases depth with
      | zero => rfl
      | succ d =>
        rw [lower_succ, ok_bind, if_neg (Nat.succ_ne_zero d), closeParen_eq ts d]
        rfl
    · rw [closeParen_eq ts (depth + 1)]
      rfl
    · rw [closeParen_eq ts depth]
      rfl

/-! ### Ranges -/

/-- The index of the bracket that closes all of `depth` open ones. -/
def closeBracket (depth : Nat) : List Token → Except Fault (Option Nat)
  | [] => .ok none
  | t :: ts =>
    if t.isSymbol .openBracket then do return (← closeBracket (depth + 1) ts).map (· + 1)
    else if t.isSymbol .closeBracket then do
      let d ← lower depth
      if d = 0 then return some 0 else return (← closeBracket d ts).map (· + 1)
    else do return (← closeBracket depth ts).map (· + 1)

/-- The bracket that closes all of `depth` open ones is found where taking ranges with `depth` open
brackets has taken the first of them. -/
def ClosesFirst (depth : Nat) (ts : List Token) : Prop :=
  (closeBracket depth ts = .ok none ∧ Token.takeRanges? depth ts = none) ∨
    ∃ j < ts.length, closeBracket depth ts = .ok (some j) ∧
      Token.takeRanges? depth ts =
        (Token.takeRanges? 0 (ts.drop (j + 1))).map fun r => (ts.take (j + 1) ++ r.1, r.2)

/-- A token that closes nothing for good leaves the search to the tokens behind it. -/
theorem ClosesFirst.cons {depth d : Nat} {t : Token} {ts : List Token} (h : ClosesFirst d ts)
    (hc : closeBracket depth (t :: ts) = do return (← closeBracket d ts).map (· + 1))
    (ht : Token.takeRanges? depth (t :: ts) =
      (Token.takeRanges? d ts).map fun r => (t :: r.1, r.2)) :
    ClosesFirst depth (t :: ts) := by
  rcases h with ⟨h1, h2⟩ | ⟨j, hj, h1, h2⟩
  · refine Or.inl ⟨?_, ?_⟩
    · rw [hc, h1]
      rfl
    · rw [ht, h2]
      rfl
  · refine Or.inr ⟨j + 1, Nat.succ_lt_succ hj, ?_, ?_⟩
    · rw [hc, h1]
      rfl
    · rw [ht, h2, Option.map_map]
      rfl

theorem closesFirst : ∀ (ts : List Token) (depth : Nat), ClosesFirst (depth + 1) ts
  | [], _ => Or.inl ⟨rfl, rfl⟩
  | t :: ts, depth => by
    by_cases ho : t.isSymbol .openBracket = true
    · refine (closesFirst ts (depth + 1)).cons ?_ ?_
      · rw [closeBracket, if_pos ho]
      · rw [Token.takeRanges?, if_pos ho]
    by_cases hc : t.isSymbol .closeBracket = true
    · cases depth with
      | zero =>
        refine Or.inr ⟨0, Nat.zero_lt_succ _, ?_, ?_⟩
        · rw [closeBracket, if_neg ho, if_pos hc]
          rfl
        · rw [Token.takeRanges?, if_neg ho, if_pos hc]
          rfl
      | succ d =>
        refine (closesFirst ts d).cons ?_ ?_
        · rw [closeBracket, if_neg ho, if_pos hc]
          rfl
        · rw [Token.takeRanges?, if_neg ho, if_pos hc]
    · refine (closesFirst ts depth).cons ?_ ?_
      · rw [closeBracket, if_neg ho, if_neg hc]
      · rw [Token.takeRanges?, if_neg ho, if_neg hc]

theorem closesFirst_of_open {t : Token} (h : t.isSymbol .openBracket = true) (ts : List Token) :
    ClosesFirst 0 (t :: ts) := by
  refine (closesFirst ts 0).cons ?_ ?_
  · rw [closeBracket, if_pos h]
  · rw [Token.takeRanges?, if_pos h]

/-- The ranges of a token list from the index `i` on, without blanks and behind the text `size` of
those before, and the index behind them; `none` when a range is not closed. -/
def popRanges (text : Text) (ts : List Token) (i : Nat) (size : Text) :
    Except Fault (Option (Text × Nat)) :=
  if _h : (ts[i]?).any (Token.isSymbol .openBracket) then do
    let first ← get ts i
    match ← closeBracket 0 (ts.drop i) with
    | none => return none
    | some j =>
      let last ← get ts (i + j)
      let raw ← slice text first.span.start.offset last.span.limit.offset
      popRanges text ts (i + j + 1) (size ++ Text.squeeze raw)
  else .ok (some (size, i))
  termination_by ts.length - i
  decreasing_by
    have : i < ts.length := by
      by_contra hle
      rw [List.getElem?_eq_none (by omega)] at _h
      cases _h
    omega

section Ranges

variable {text : Text} {ts : List Token}

theorem takeRanges?_of_not_open (h : ¬ ts.head?.any (Token.isSymbol .openBracket) = true) :
    Token.takeRanges? 0 ts = some ([], ts) := by
  cases ts with
  | nil => rfl
  | cons t ts =>
    rw [Token.takeRanges?, if_neg (by simpa using h)]

/-- The slice of one range is its source text. -/
theorem slice_range {i j : Nat} {first last : Token} (hts : ts <:+: Token.scan text)
    (hf : ts[i]? = some first) (hl : ts[i + j]? = some last) :
    slice text first.span.start.offset last.span.limit.offset =
      .ok (Token.sourceOf text ((ts.drop i).take (j + 1))) := by
  have hrun : (ts.drop i).take (j + 1) <:+: Token.scan text :=
    ((List.take_prefix _ _).isInfix.trans (List.drop_suffix _ _).isInfix).trans hts
  have hspan : Token.spanOf? ((ts.drop i).take (j + 1)) =
      some ⟨first.span.start, last.span.limit⟩ := by
    have hhead : ((ts.drop i).take (j + 1)).head? = some first := by
      rw [List.head?_eq_getElem?, List.getElem?_take_of_lt (Nat.zero_lt_succ j),
        List.getElem?_drop, Nat.add_zero, hf]
    have hlast : ((ts.drop i).take (j + 1)).getLast? = some last := by
      have hlt : i + j < ts.length := (List.getElem?_eq_some_iff.mp hl).1
      have hlen : ((ts.drop i).take (j + 1)).length = j + 1 := by
        rw [List.length_take, List.length_drop]
        omega
      rw [List.getLast?_eq_getElem?, hlen, Nat.add_sub_cancel,
        List.getElem?_take_of_lt (Nat.lt_succ_self j), List.getElem?_drop, hl]
    unfold Token.spanOf?
    rw [hhead, hlast]
  exact sliceSpan_eq (Token.covers_spanOf? hrun hspan)

/-- **Ranges are popped without a fault.** -/
theorem popRanges_eq (hts : ts <:+: Token.scan text) {i : Nat} (hi : i ≤ ts.length) (size : Text) :
    popRanges text ts i size = .ok ((Token.takeRanges? 0 (ts.drop i)).map fun r =>
      (size ++ Text.squeeze (Token.sourceOf text r.1), ts.length - r.2.length)) := by
  rw [popRanges]
  split
  · rename_i hb
    obtain ⟨first, hf, ho⟩ := (Option.any_eq_true _ _).mp hb
    have hcut : ts.drop i = first :: ts.drop (i + 1) := by
      rw [List.drop_eq_getElem?_toList_append, hf]
      rfl
    have hfirst : ClosesFirst 0 (ts.drop i) := hcut ▸ closesFirst_of_open ho _
    rw [get_eq_ok hf, ok_bind]
    rcases hfirst with ⟨h1, h2⟩ | ⟨j, hj, h1, h2⟩
    · rw [h1, h2]
      rfl
    · rw [List.length_drop] at hj
      have hlt : i + j < ts.length := by omega
      have hl : ts[i + j]? = some ts[i + j] := List.getElem?_eq_getElem hlt
      simp only [h1, ok_bind, get_eq_ok hl, slice_range hts hf hl]
      rw [popRanges_eq hts (i := i + j + 1) hlt, h2, List.drop_drop, Option.map_map,
        ← Nat.add_assoc]
      congr 1
      -- the text of the range and that of the ranges behind it are the text of all
      cases hr : Token.takeRanges? 0 (ts.drop (i + j + 1)) with
      | none => rfl
      | some r =>
        have hrun : (ts.drop i).take (j + 1) ++ r.1 <:+: Token.scan text := by
          refine List.IsInfix.trans ⟨ts.take i, r.2, ?_⟩ hts
          have := Token.takeRanges?_append hr
          rw [List.append_assoc, List.append_assoc, this, Nat.add_assoc, ← List.drop_drop,
            List.take_append_drop, List.take_append_drop]
        simp only [Option.map_some, Function.comp, Token.squeeze_sourceOf_append hrun,
          List.append_assoc]
  · rename_i hb
    rw [takeRanges?_of_not_open (by rwa [List.head?_drop])]
    simp only [Option.map_some, List.length_drop]
    rw [Nat.sub_sub_self hi]
    simp [Token.sourceOf, Token.spanOf?, Text.squeeze]
  termination_by ts.length - i

/-- Ranges at the front of an end of the tokens are a run, and what follows them ends the tokens. -/
theorem infix_of_takeRanges? {us r rest : List Token} (hts : ts <:+: Token.scan text)
    (hus : us <:+ ts) (h : Token.takeRanges? 0 us = some (r, rest)) :
    r <:+: Token.scan text ∧ rest <:+ ts := by
  have happ := Token.takeRanges?_append h
  have hr : r <:+: us := ⟨[], rest, happ⟩
  have hrest : rest <:+ us := ⟨r, happ⟩
  exact ⟨(hr.trans hus.isInfix).trans hts, hrest.trans hus⟩

theorem popRanges_suffix {us : List Token} (hts : ts <:+: Token.scan text) (hus : us <:+ ts) :
    popRanges text ts (ts.length - us.length) [] = .ok ((Token.takeRanges? 0 us).map fun r =>
      (Text.squeeze (Token.sourceOf text r.1), ts.length - r.2.length)) := by
  rw [popRanges_eq hts (Nat.sub_le ..), ← List.suffix_iff_eq_drop.mp hus]
  rfl

end Ranges

/-- The text of some ranges, if there are any. -/
def rangeText (size : Text) : Option String :=
  if size.isEmpty then none else some (String.ofList size)

theorem rangeText_eq {text : Text} {r : List Token} (h : r <:+: Token.scan text) :
    rangeText (Text.squeeze (Token.sourceOf text r)) = Token.rangeText text r := by
  unfold rangeText Token.rangeText
  cases r with
  | nil => rfl
  | cons t r =>
    rw [if_neg (by simpa using Token.squeeze_sourceOf_ne_nil h (List.cons_ne_nil t r)),
      if_neg (by simp)]

end Checked

end DesignAtlas
