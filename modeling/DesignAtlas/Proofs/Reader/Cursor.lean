import DesignAtlas.Proofs.Reader.Request
import DesignAtlas.Proofs.Token.Balanced

/-! # A reader is a cursor over its tokens

A reader that is asked about tokens only does not show that it looks ahead. It answers as a cursor
over the list of all tokens does (`Cursor`): the list is cut into the tokens that have been taken
and the rest, and a request looks at the rest or moves tokens from its front to the taken ones. The
rest are the tokens that the reader would still hand out (`Reader.unread`), the one looked at and
those of the text not read; what one request does to them is one lemma for each operation.

`answers_eq_cursor` puts the requests together: whatever is asked in whatever order, the answers are
those of the cursor, and what the cursor has taken is always the beginning of all tokens. -/

namespace DesignAtlas

/-! ### A list with a mark -/

/-- A token list of which a beginning has been taken. -/
structure Cursor where
  taken : List Token
  rest : List Token
  deriving DecidableEq, Repr

namespace Cursor

/-- The cursor in front of all tokens. -/
def ofList (ts : List Token) : Cursor := ⟨[], ts⟩

/-- The cursor behind the next `n` tokens. -/
def skip (n : Nat) (c : Cursor) : Cursor := ⟨c.taken ++ c.rest.take n, c.rest.drop n⟩

/-- The first token that has not been taken is looked at. -/
def peek (c : Cursor) : Option Token × Cursor := (c.rest.head?, c)

/-- The first token that has not been taken is taken. -/
def pop (c : Cursor) : Option Token × Cursor := (c.rest.head?, c.skip 1)

/-- The first token that has not been taken is taken if it has the payload `want`. -/
def tryPop (want : Payload) (c : Cursor) : Option Token × Cursor :=
  if c.rest.head?.map Token.payload = some want then c.pop else (none, c)

/-- The tokens up to and with the first at which more parentheses have closed than opened. -/
def closingRun? (ts : List Token) : Option (List Token) :=
  ts.inits.find? fun us => Token.opened us < Token.closed us

/-- The tokens are taken up to and with the first at which more parentheses have closed than opened
among them; all are taken when there is none. -/
def popBalanced (opening : Token) (c : Cursor) : Option (Span × Span) × Cursor :=
  match closingRun? c.rest with
  | some us =>
    (us.getLast?.map fun close => (⟨opening.span.limit, close.span.start⟩, close.span),
      c.skip us.length)
  | none => (none, c.skip c.rest.length)

/-- What a cursor does when it is asked about its tokens. -/
def askToken (c : Cursor) : TokenRequest → Answer × Cursor
  | .peek => (.token c.peek.1, c.peek.2)
  | .pop => (.token c.pop.1, c.pop.2)
  | .tryPop want => (.token (c.tryPop want).1, (c.tryPop want).2)
  | .popBalanced opening => (.enclosed (c.popBalanced opening).1, (c.popBalanced opening).2)

theorem skip_zero (c : Cursor) : c.skip 0 = c := by
  rw [skip, List.take_zero, List.append_nil, List.drop_zero]

/-- A request only moves the mark. -/
theorem exists_skip (c : Cursor) (q : TokenRequest) : ∃ n, (c.askToken q).2 = c.skip n := by
  cases q with
  | peek => exact ⟨0, c.skip_zero.symm⟩
  | pop => exact ⟨1, rfl⟩
  | tryPop want =>
    simp only [askToken, tryPop]
    split
    · exact ⟨1, rfl⟩
    · exact ⟨0, c.skip_zero.symm⟩
  | popBalanced opening =>
    simp only [askToken, popBalanced]
    split
    · exact ⟨_, rfl⟩
    · exact ⟨_, rfl⟩

theorem append_converse (qs : List TokenRequest) : ∀ c : Cursor,
    (converse askToken c qs).2.taken ++ (converse askToken c qs).2.rest = c.taken ++ c.rest := by
  induction qs with
  | nil => exact fun _ => rfl
  | cons q qs ih =>
    intro c
    obtain ⟨n, hn⟩ := c.exists_skip q
    have hstep : (c.askToken q).2.taken ++ (c.askToken q).2.rest = c.taken ++ c.rest := by
      rw [hn, skip, List.append_assoc, List.take_append_drop]
    exact (ih (c.askToken q).2).trans hstep

/-! ### The parenthesis that closes more than has opened -/

section Closing

open Token

/-- With `depth` parentheses open before, the first token at which more have closed is the one that
`closeParen?` finds. -/
theorem find?_inits (ts : List Token) : ∀ depth : Nat,
    (ts.inits.find? fun us => opened us + depth < closed us) =
      (closeParen? depth ts).map fun e => e.inner ++ [e.close] := by
  induction ts with
  | nil => exact fun _ => rfl
  | cons t ts ih =>
    intro depth
    -- the empty beginning closes nothing; the others begin with `t`
    have hcons : ((t :: ts).inits.find? fun us => opened us + depth < closed us) =
        (ts.inits.find? fun us => opened (t :: us) + depth < closed (t :: us)).map (t :: ·) := by
      rw [List.inits_cons, List.find?_cons_of_neg (by simp [closed]), List.find?_map]
      rfl
    have hnext : ∀ d : Nat,
        (∀ us, opened (t :: us) + depth < closed (t :: us) ↔ opened us + d < closed us) →
        ((t :: ts).inits.find? fun us => opened us + depth < closed us) =
          ((closeParen? d ts).map (.cons t)).map fun e : Enclosed => e.inner ++ [e.close] := by
      intro d hd
      simp only [hcons, hd, ih d, Option.map_map]
      rfl
    by_cases hc : t.isSymbol .closeParen = true
    · have ho := not_open_of_close hc
      cases depth with
      | zero =>
        have hnil : opened [t] + 0 < closed [t] := by
          rw [opened_cons, closed_cons, if_pos hc, ho]
          decide
        obtain ⟨is, his⟩ : ∃ is, ts.inits = [] :: is := by cases ts <;> exact ⟨_, rfl⟩
        rw [closeParen?_cons_last hc, hcons, his, List.find?_cons_of_pos]
        · rfl
        · exact decide_eq_true hnil
      | succ d =>
        rw [closeParen?_cons_close hc]
        refine hnext d fun us => ?_
        rw [opened_cons, closed_cons, if_pos hc, ho, if_neg Bool.false_ne_true]
        omega
    by_cases ho : t.isSymbol .openParen = true
    · rw [closeParen?_cons_open hc ho]
      refine hnext (depth + 1) fun us => ?_
      rw [opened_cons, closed_cons, if_pos ho, if_neg hc]
      omega
    · rw [closeParen?_cons_other hc ho]
      refine hnext depth fun us => ?_
      rw [opened_cons, closed_cons, if_neg ho, if_neg hc]
      rfl

theorem closingRun?_eq (ts : List Token) :
    closingRun? ts = (closeParen? 0 ts).map fun e => e.inner ++ [e.close] := find?_inits ts 0

theorem popBalanced_eq (opening : Token) (c : Cursor) :
    (c.popBalanced opening).1 = ((closeParen? 0 c.rest).map Enclosed.close).map
        (fun close => (⟨opening.span.limit, close.span.start⟩, close.span)) ∧
      (c.popBalanced opening).2.rest = ((closeParen? 0 c.rest).map Enclosed.rest).getD [] := by
  unfold popBalanced
  rw [closingRun?_eq]
  cases h : closeParen? 0 c.rest with
  | none => exact ⟨rfl, List.drop_length⟩
  | some e =>
    have hrest : c.rest = (e.inner ++ [e.close]) ++ e.rest := by
      rw [← closeParen?_append h, List.append_assoc, List.singleton_append]
    refine ⟨?_, ?_⟩
    · simp
    · simp only [Option.map_some, skip, Option.getD_some]
      rw [hrest, List.drop_left]

end Closing

end Cursor

/-! ### The tokens that a reader still hands out -/

namespace Reader

/-- The tokens not yet taken: the one looked at, and those of the text not read. -/
def unread (r : Reader) : List Token := r.lookahead.toList ++ Token.scanFrom r.position r.rest

section

variable (r : Reader)

theorem next_fst : r.next.1 = (Token.scanFrom r.position r.rest).head? := by
  unfold next
  cases h : Token.next? r.position r.rest with
  | none => rw [Token.scanFrom_of_next?_none h]; rfl
  | some tr => rw [Token.scanFrom_of_next?_some h]; rfl

theorem scanFrom_next : Token.scanFrom r.next.2.position r.next.2.rest =
    (Token.scanFrom r.position r.rest).tail := by
  unfold next
  cases h : Token.next? r.position r.rest with
  | none =>
    rw [Token.scanFrom_of_next?_none h]
    exact Token.scanFrom_of_next?_none rfl
  | some tr => rw [Token.scanFrom_of_next?_some h]; rfl

theorem lookahead_next : r.next.2.lookahead = r.lookahead := by
  unfold next
  cases Token.next? r.position r.rest <;> rfl

/-- **Looking** takes nothing. -/
theorem peek_eq : r.peek.1 = r.unread.head? ∧ r.peek.2.unread = r.unread := by
  unfold peek unread
  cases h : r.lookahead with
  | some tok => exact ⟨rfl, by rw [h]⟩
  | none =>
    refine ⟨r.next_fst, ?_⟩
    simp only [r.next_fst, r.scanFrom_next]
    cases Token.scanFrom r.position r.rest <;> rfl

/-- **Taking** takes the first token. -/
theorem pop_eq : r.pop.1 = r.unread.head? ∧ r.pop.2.unread = r.unread.tail := by
  unfold pop unread
  cases h : r.lookahead with
  | some tok => exact ⟨rfl, rfl⟩
  | none => exact ⟨r.next_fst, by simp only [lookahead_next, h, r.scanFrom_next]; rfl⟩

theorem tryPop_eq {c : Cursor} (h : r.unread = c.rest) (want : Payload) :
    (r.tryPop want).1 = (c.tryPop want).1 ∧
      (r.tryPop want).2.unread = (c.tryPop want).2.rest := by
  obtain ⟨hpeek, hrest⟩ := r.peek_eq
  obtain ⟨hpop, htail⟩ := r.peek.2.pop_eq
  rw [hrest, h] at hpop htail
  rw [h] at hpeek hrest
  unfold tryPop Cursor.tryPop
  rw [hpeek]
  cases hhead : c.rest.head? with
  | none => exact ⟨rfl, hrest⟩
  | some tok =>
    simp only [Option.map_some, Option.some.injEq]
    split
    · exact ⟨hpop, htail.trans List.drop_one.symm⟩
    · exact ⟨rfl, hrest⟩

end

theorem unread_of_pop_none {r s : Reader} (h : r.pop = (none, s)) :
    r.unread = [] ∧ s.unread = [] := by
  obtain ⟨hfst, hsnd⟩ := r.pop_eq
  rw [h] at hfst hsnd
  have hnil : r.unread = [] := List.head?_eq_none_iff.mp hfst.symm
  rw [hnil] at hsnd
  exact ⟨hnil, hsnd⟩

theorem unread_of_pop_some {r s : Reader} {tok : Token} (h : r.pop = (some tok, s)) :
    r.unread = tok :: s.unread := by
  obtain ⟨hfst, hsnd⟩ := r.pop_eq
  rw [h] at hfst hsnd
  obtain ⟨ts, hts⟩ := List.head?_eq_some_iff.mp hfst.symm
  rw [hts] at hsnd ⊢
  rw [hsnd]
  rfl

theorem collect_eq_unread (r : Reader) : r.collect = r.unread := by
  fun_induction collect r with
  | case1 r s h => exact (unread_of_pop_none h).1.symm
  | case2 r tok s h ih => rw [unread_of_pop_some h, ih]

/-- **Taking tokens up to the parenthesis that closes** leaves those behind it. -/
theorem popClosing_eq (depth : Nat) (r : Reader) :
    (r.popClosing depth).1 = (Token.closeParen? depth r.unread).map Token.Enclosed.close ∧
      (r.popClosing depth).2.unread =
        ((Token.closeParen? depth r.unread).map Token.Enclosed.rest).getD [] := by
  -- putting a token in front of the enclosed ones changes neither the parenthesis nor the rest
  have hcons : ∀ (tok : Token) (e : Option Token.Enclosed),
      (e.map (Token.Enclosed.cons tok)).map Token.Enclosed.close = e.map Token.Enclosed.close ∧
        (e.map (Token.Enclosed.cons tok)).map Token.Enclosed.rest = e.map Token.Enclosed.rest := by
    intro tok e
    cases e <;> exact ⟨rfl, rfl⟩
  fun_induction popClosing depth r with
  | case1 depth r s h =>
    obtain ⟨hr, hs⟩ := unread_of_pop_none h
    rw [hr]
    exact ⟨rfl, hs⟩
  | case2 r tok s h hc =>
    rw [unread_of_pop_some h, Token.closeParen?_cons_last hc]
    exact ⟨rfl, rfl⟩
  | case3 r tok s h hc d ih =>
    rw [unread_of_pop_some h, Token.closeParen?_cons_close hc, (hcons _ _).1, (hcons _ _).2]
    exact ih
  | case4 depth r tok s h hc ho ih =>
    rw [unread_of_pop_some h, Token.closeParen?_cons_open hc ho, (hcons _ _).1, (hcons _ _).2]
    exact ih
  | case5 depth r tok s h hc ho ih =>
    rw [unread_of_pop_some h, Token.closeParen?_cons_other hc ho, (hcons _ _).1, (hcons _ _).2]
    exact ih

/-- **A reader answers as the cursor** whose rest are the tokens that it still hands out. -/
theorem askToken_eq {r : Reader} {c : Cursor} (h : r.unread = c.rest) (q : TokenRequest) :
    (r.askToken q).1 = (c.askToken q).1 ∧ (r.askToken q).2.unread = (c.askToken q).2.rest := by
  cases q with
  | peek =>
    obtain ⟨hanswer, hrest⟩ := r.peek_eq
    rw [h] at hanswer hrest
    exact ⟨congrArg Answer.token hanswer, hrest⟩
  | pop =>
    obtain ⟨hanswer, hrest⟩ := r.pop_eq
    rw [h] at hanswer hrest
    exact ⟨congrArg Answer.token hanswer, hrest.trans List.drop_one.symm⟩
  | tryPop want =>
    obtain ⟨hanswer, hrest⟩ := r.tryPop_eq h want
    exact ⟨congrArg Answer.token hanswer, hrest⟩
  | popBalanced opening =>
    obtain ⟨hclose, hrest⟩ := r.popClosing_eq 0
    obtain ⟨hanswer, hreader⟩ := r.popBalanced_eq opening
    obtain ⟨hanswer', hrest'⟩ := c.popBalanced_eq opening
    rw [h] at hclose hrest
    rw [hclose, ← hanswer'] at hanswer
    exact ⟨congrArg Answer.enclosed hanswer,
      (congrArg unread hreader).trans (hrest.trans hrest'.symm)⟩

theorem converse_eq (qs : List TokenRequest) : ∀ {r : Reader} {c : Cursor}, r.unread = c.rest →
    (converse askToken r qs).1 = (converse Cursor.askToken c qs).1 ∧
      (converse askToken r qs).2.unread = (converse Cursor.askToken c qs).2.rest := by
  induction qs with
  | nil => exact fun h => ⟨rfl, h⟩
  | cons q qs ih =>
    intro r c h
    obtain ⟨hanswer, hrest⟩ := askToken_eq h q
    obtain ⟨hanswers, hlast⟩ := ih hrest
    exact ⟨congrArg₂ List.cons hanswer hanswers, hlast⟩

/-- **A reader is a cursor over its tokens.** Whatever is asked about the tokens of a text, and in
whatever order, the reader answers as the cursor over the list of all of them does; the tokens that
it has not taken are the rest of the cursor, and those taken are the beginning of the list. -/
theorem answers_eq_cursor (t : Text) (qs : List TokenRequest) :
    let tokens := (ofText t).collect
    let reader := converse askToken (ofText t) qs
    let cursor := converse Cursor.askToken (Cursor.ofList tokens) qs
    tokens = Token.scan t ∧ reader.1 = cursor.1 ∧ reader.2.collect = cursor.2.rest ∧
      cursor.2.taken ++ reader.2.collect = tokens := by
  intro tokens reader cursor
  have htokens : (ofText t).unread = tokens := (collect_eq_unread _).symm
  obtain ⟨hanswers, hunread⟩ := converse_eq qs (c := Cursor.ofList tokens) htokens
  have hrest : reader.2.collect = cursor.2.rest := (collect_eq_unread _).trans hunread
  refine ⟨htokens.symm, hanswers, hrest, ?_⟩
  rw [hrest]
  exact Cursor.append_converse qs (Cursor.ofList tokens)

end Reader

end DesignAtlas
