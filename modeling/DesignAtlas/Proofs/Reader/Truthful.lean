import DesignAtlas.Proofs.Position.Truthful
import DesignAtlas.Proofs.Reader.Request
import DesignAtlas.Proofs.Token.Layout

/-! # A reader tells the truth about positions

A reader is sound when its position is behind the characters read and the token looked at stands in
the text where its span says (`Sound`). Every request keeps it sound and is answered with truthful
spans (`Sound.ask`), if the parenthesis whose end is asked for is truthful. So all positions of a
conversation are truthful, whatever characters and tokens are asked for in whatever order, as long
as the parentheses asked about are tokens answered before.

The counters of 32 bits are truthful as well if the text has fewer than 2 ^ 32 lines and at most
2 ^ 32 - 2 characters in each (`truthful_converse`). With one character more the column behind a
line is one that they cannot hold (`not_truthful_behind_line`). -/

namespace DesignAtlas

/-- The first token of a text and the blanks before it are a glyph. -/
theorem Glyph.exists_of_next? {p : Position} {t rest : Text} {tok : Token}
    (h : Token.next? p t = some (tok, rest)) :
    ∃ g : Glyph, t = g.spelling ++ rest ∧ tok = g.token p := by
  have hblank : ¬ ∀ c ∈ t, isBlank c = true := by
    intro hb
    rw [next?_blank hb] at h
    cases h
  obtain ⟨g, behind, rfl, hg⟩ := exists_glyph hblank
  rw [next?_of_reads hg, Option.some.injEq, Prod.mk.injEq] at h
  obtain ⟨htok, rfl⟩ := h
  exact ⟨g, rfl, htok.symm⟩

theorem Answer.span_mem_spans {a : Answer} {tok : Token} (h : tok ∈ a.tokens) :
    tok.span ∈ a.spans := by
  cases a with
  | token t => exact List.mem_map_of_mem h
  | enclosed => cases h
  | char => cases h

namespace Reader

/-- The reader stands in the text where its position says, and so does the token looked at. -/
structure Sound (t : Text) (r : Reader) : Prop where
  reading : ∃ read, t = read ++ r.rest ∧ r.position = Position.start.advance read
  lookahead : ∀ tok ∈ r.lookahead, tok.span.Truthful t

/-- The reader that is left is sound, and the token handed out stands where its span says. -/
structure HandsOut (t : Text) (x : Option Token × Reader) : Prop where
  reader : Sound t x.2
  token : ∀ tok ∈ x.1, tok.span.Truthful t

section

variable {t : Text} {r : Reader}

theorem sound_ofText (t : Text) : Sound t (ofText t) :=
  ⟨⟨[], rfl, rfl⟩, fun _ h => by cases h⟩

theorem Sound.position (h : Sound t r) : r.position.Truthful t := by
  obtain ⟨read, ht, hp⟩ := h.reading
  exact Position.truthful_iff.mpr ⟨read, r.rest, ht, hp⟩

/-! ### One operation after the other -/

theorem Sound.popChar (h : Sound t r) : Sound t r.popChar.2 := by
  obtain ⟨⟨read, ht, hp⟩, hl⟩ := h
  unfold Reader.popChar
  cases hrest : r.rest with
  | nil => exact ⟨⟨read, ht, hp⟩, hl⟩
  | cons c rest =>
    rw [hrest] at ht
    exact ⟨⟨read ++ [c], by simp [ht], by simp [hp]⟩, hl⟩

/-- The next token stands in the text not read, behind some blanks. -/
theorem Sound.next (h : Sound t r) : HandsOut t r.next := by
  obtain ⟨⟨read, ht, hp⟩, hl⟩ := h
  unfold Reader.next
  cases hn : Token.next? r.position r.rest with
  | none => exact ⟨⟨⟨read ++ r.rest, by simp [ht], by simp [hp]⟩, hl⟩, fun _ h => by cases h⟩
  | some x =>
    obtain ⟨tok, rest⟩ := x
    obtain ⟨g, hrest, rfl⟩ := Glyph.exists_of_next? hn
    have hstart : (g.token r.position).span.start = Position.start.advance (read ++ g.gap) := by
      rw [Glyph.start_token, hp, Position.advance_append]
    have hlimit : (g.token r.position).span.limit =
        Position.start.advance (read ++ g.spelling) := by
      rw [Glyph.limit_token, hp, Position.advance_append]
    refine ⟨⟨⟨read ++ g.spelling, by rw [ht, hrest, List.append_assoc], hlimit⟩, hl⟩, ?_⟩
    rintro tok ⟨⟩
    refine ⟨Position.truthful_iff.mpr ⟨read ++ g.gap, g.text ++ rest, ?_, hstart⟩,
      Position.truthful_iff.mpr ⟨read ++ g.spelling, rest, ?_, hlimit⟩⟩
    · rw [ht, hrest, Glyph.spelling, List.append_assoc, List.append_assoc]
    · rw [ht, hrest, List.append_assoc]

theorem Sound.peek (h : Sound t r) : HandsOut t r.peek := by
  unfold Reader.peek
  cases hl : r.lookahead with
  | some tok => exact ⟨h, fun tok htok => h.lookahead tok (by rwa [hl])⟩
  | none => exact ⟨⟨h.next.reader.reading, h.next.token⟩, h.next.token⟩

theorem Sound.pop (h : Sound t r) : HandsOut t r.pop := by
  unfold Reader.pop
  cases hl : r.lookahead with
  | some tok =>
    exact ⟨⟨h.reading, fun _ h => by cases h⟩, fun tok htok => h.lookahead tok (by rwa [hl])⟩
  | none => exact h.next

theorem Sound.tryPop (h : Sound t r) (want : Payload) : HandsOut t (r.tryPop want) := by
  have hnone : HandsOut t (none, r.peek.2) := ⟨h.peek.reader, fun _ h => by cases h⟩
  unfold Reader.tryPop
  split
  · split
    · exact h.peek.reader.pop
    · exact hnone
  · exact hnone

theorem Sound.popClosing (h : Sound t r) (depth : Nat) : HandsOut t (r.popClosing depth) := by
  fun_induction Reader.popClosing depth r with
  | case1 depth r s hpop => exact hpop ▸ h.pop
  | case2 r tok s hpop hc => exact hpop ▸ h.pop
  | case3 r tok s hpop hc d ih => exact ih (hpop ▸ h.pop).reader
  | case4 depth r tok s hpop hc ho ih => exact ih (hpop ▸ h.pop).reader
  | case5 depth r tok s hpop hc ho ih => exact ih (hpop ▸ h.pop).reader

/-- The span between two parentheses has an end of each. -/
theorem Sound.popBalanced (h : Sound t r) {opening : Token} (ho : opening.span.Truthful t) :
    Sound t (r.popBalanced opening).2 ∧
      ∀ s ∈ (Answer.enclosed (r.popBalanced opening).1).spans, s.Truthful t := by
  obtain ⟨hanswer, hreader⟩ := r.popBalanced_eq opening
  obtain ⟨hsound, htoken⟩ := h.popClosing 0
  rw [hanswer, hreader]
  refine ⟨hsound, ?_⟩
  cases hclose : (r.popClosing 0).1 with
  | none => exact fun _ h => by cases h
  | some close =>
    have htruthful := htoken close hclose
    have hinner : Span.Truthful t ⟨opening.span.limit, close.span.start⟩ :=
      ⟨ho.limit, htruthful.start⟩
    intro s hs
    rcases List.mem_pair.mp hs with rfl | rfl
    · exact hinner
    · exact htruthful

/-- **One request** keeps the reader sound and is answered with truthful spans. -/
theorem Sound.ask (h : Sound t r) {q : Request} (hq : ∀ o ∈ q.opening?, o.span.Truthful t) :
    Sound t (r.ask q).2 ∧ ∀ s ∈ (r.ask q).1.spans, s.Truthful t := by
  have htoken : ∀ {x : Option Token × Reader}, HandsOut t x →
      Sound t x.2 ∧ ∀ s ∈ (Answer.token x.1).spans, s.Truthful t := by
    rintro ⟨_ | tok, s⟩ hx
    · exact ⟨hx.reader, fun _ h => by cases h⟩
    · exact ⟨hx.reader, fun s hs => by rw [List.mem_singleton.mp hs]; exact hx.token tok rfl⟩
  cases q with
  | token q =>
    cases q with
    | peek => exact htoken h.peek
    | pop => exact htoken h.pop
    | tryPop want => exact htoken (h.tryPop want)
    | popBalanced opening => exact h.popBalanced (hq opening rfl)
  | next => exact htoken h.next
  | peekChar => exact ⟨h, fun _ h => by cases h⟩
  | popChar => exact ⟨h.popChar, fun _ h => by cases h⟩

end

/-! ### Conversations -/

/-- Each parenthesis whose end is asked for is one of `given` or a token answered before. -/
def AsksBack (given : List Token) (r : Reader) : List Request → Prop
  | [] => True
  | q :: qs =>
    (∀ opening ∈ q.opening?, opening ∈ given) ∧
      AsksBack (given ++ (r.ask q).1.tokens) (r.ask q).2 qs

instance decidableAsksBack : ∀ (given : List Token) (r : Reader) (qs : List Request),
    Decidable (AsksBack given r qs)
  | _, _, [] => inferInstanceAs (Decidable True)
  | given, r, q :: qs =>
    have := decidableAsksBack (given ++ (r.ask q).1.tokens) (r.ask q).2 qs
    inferInstanceAs (Decidable ((∀ opening ∈ q.opening?, opening ∈ given) ∧ AsksBack _ _ qs))

theorem AsksBack.of_append {pre post : List Request} : ∀ {given : List Token} {r : Reader},
    AsksBack given r (pre ++ post) → AsksBack given r pre := by
  induction pre with
  | nil => exact fun _ => trivial
  | cons q pre ih => exact fun h => ⟨h.1, ih h.2⟩

/-- A conversation keeps the reader sound, and all spans are truthful, by those answered before. -/
theorem Sound.converse {t : Text} {qs : List Request} : ∀ {given : List Token} {r : Reader},
    Sound t r → (∀ tok ∈ given, tok.span.Truthful t) → AsksBack given r qs →
      Sound t (converse Reader.ask r qs).2 ∧
        ∀ a ∈ (converse Reader.ask r qs).1, ∀ s ∈ a.spans, s.Truthful t := by
  induction qs with
  | nil => exact fun h _ _ => ⟨h, fun _ ha => by cases ha⟩
  | cons q qs ih =>
    intro given r h hgiven hqs
    obtain ⟨hreader, hspans⟩ := h.ask fun o ho => hgiven o (hqs.1 o ho)
    have hgiven' : ∀ tok ∈ given ++ (r.ask q).1.tokens, tok.span.Truthful t := by
      intro tok htok
      rcases List.mem_append.mp htok with htok | htok
      · exact hgiven tok htok
      · exact hspans tok.span (Answer.span_mem_spans htok)
    obtain ⟨hlast, hanswers⟩ := ih hreader hgiven' hqs.2
    refine ⟨hlast, fun a ha => ?_⟩
    rcases List.mem_cons.mp ha with rfl | ha
    · exact hspans
    · exact hanswers a ha

/-- **Positions are truthful** after each of any requests to a reader of the text, the parentheses
whose ends are asked for being tokens answered before, and so are both ends of every span answered,
if the counters can count the lines of the text and the columns of each. No counter begins again on
the way: they are truthful behind every character. -/
theorem truthful_converse (t : Text) (hlines : t.lines.length < 2 ^ 32)
    (hcolumns : ∀ l ∈ t.lines, l.length ≤ 2 ^ 32 - 2) {qs : List Request}
    (h : AsksBack [] (ofText t) qs) :
    (∀ pre, pre <+: qs → (converse ask (ofText t) pre).2.position.counters.Truthful t) ∧
      (∀ a ∈ (converse ask (ofText t) qs).1, ∀ s ∈ a.spans,
        s.start.counters.Truthful t ∧ s.limit.counters.Truthful t) ∧
      ∀ a, a <+: t → (Counters.start.advance a).Truthful t := by
  have hrun := fun {qs : List Request} (hqs : AsksBack [] (ofText t) qs) =>
    (sound_ofText t).converse (fun _ h => by cases h) hqs
  refine ⟨?_, fun a ha s hs => ?_, ?_⟩
  · rintro pre ⟨post, rfl⟩
    exact (hrun h.of_append).1.position.counters hlines hcolumns
  · have hspan := (hrun h).2 a ha s hs
    exact ⟨hspan.start.counters hlines hcolumns, hspan.limit.counters hlines hcolumns⟩
  · rintro a ⟨b, rfl⟩
    have hbehind := Position.truthful_iff.mpr ⟨a, b, rfl, rfl⟩
    rw [← Position.counters_start, ← Position.counters_advance]
    exact hbehind.counters hlines hcolumns

/-- A character of two bytes is taken between two tokens, a token is looked at, and the parenthesis
closes behind a string literal with a newline. -/
theorem truthful_converse_literal :
    let t : Text := "(é, \"p\nq\") ;".toList
    let opening : Token := ⟨.symbol .openParen, ⟨⟨0, 1, 1⟩, ⟨1, 1, 2⟩⟩⟩
    let inner : Span := ⟨⟨1, 1, 2⟩, ⟨10, 2, 3⟩⟩
    let qs : List Request := [.token .pop, .popChar, .token .peek, .token (.popBalanced opening)]
    t.lines.length < 2 ^ 32 ∧ (∀ l ∈ t.lines, l.length ≤ 2 ^ 32 - 2) ∧ AsksBack [] (ofText t) qs ∧
      (converse ask (ofText t) qs).2.position.counters = ⟨11, 2, 4⟩ ∧
      Counters.Truthful t ⟨11, 2, 4⟩ ∧ Counters.Truthful t inner.limit.counters := by
  intro t opening inner qs
  have hlines : t.lines.length < 2 ^ 32 := by decide +kernel
  have hcolumns : ∀ l ∈ t.lines, l.length ≤ 2 ^ 32 - 2 := by decide +kernel
  have hasks : AsksBack [] (ofText t) qs := by decide +kernel
  have hcounters : (converse ask (ofText t) qs).2.position.counters = ⟨11, 2, 4⟩ := by
    decide +kernel
  have hinner : ∃ a ∈ (converse ask (ofText t) qs).1, inner ∈ a.spans := by decide +kernel
  obtain ⟨hpositions, hspans, -⟩ := truthful_converse t hlines hcolumns hasks
  obtain ⟨a, ha, hs⟩ := hinner
  exact ⟨hlines, hcolumns, hasks, hcounters, hcounters ▸ hpositions qs (List.prefix_refl qs),
    (hspans a ha inner hs).2⟩

/-! ### The longest line -/

theorem position_next_blank {r : Reader} (h : ∀ c ∈ r.rest, isBlank c = true) :
    r.next.2.position = r.position.advance r.rest := by
  unfold next
  rw [Glyph.next?_blank h]

theorem lines_spaces (n : Nat) :
    Text.lines (List.replicate n ' ') = [List.replicate n ' '] := by
  have hline : ∀ c ∈ List.replicate n ' ', (c == '\n') = false :=
    List.forall_mem_replicate.mpr (Or.inr (by decide))
  exact Text.split_of_none hline

/-- Where no token is left among spaces, the column counts them. -/
theorem column_next_spaces (n : Nat) :
    (ofText (List.replicate n ' ')).next.2.position.column = 1 + n := by
  have hblank : ∀ c ∈ List.replicate n ' ', isBlank c = true :=
    List.forall_mem_replicate.mpr (Or.inr isBlank_space)
  have hline : (List.replicate n ' ').rtakeWhile (· != '\n') = List.replicate n ' ' :=
    List.rtakeWhile_eq_self_iff.mpr (List.forall_mem_replicate.mpr (Or.inr (by decide)))
  rw [position_next_blank hblank]
  show (Position.start.advance (List.replicate n ' ')).column = 1 + n
  rw [Position.column_start_advance, hline, List.length_replicate]

/-- Behind a line of 2 ^ 32 - 1 spaces the column is one that the counter cannot hold. -/
theorem not_truthful_next_spaces {n : Nat} (hn : n + 1 = 2 ^ 32) :
    let behind := (converse ask (ofText (List.replicate n ' ')) [.next]).2.position.counters
    behind.column = 0 ∧ ¬ behind.Truthful (List.replicate n ' ') := by
  intro behind
  have hcolumn : behind.column = 0 := by
    show UInt32.ofNat (ofText (List.replicate n ' ')).next.2.position.column = 0
    rw [column_next_spaces, Nat.add_comm, hn]
    rfl
  refine ⟨hcolumn, fun h => ?_⟩
  have hpositive := h.column
  rw [hcolumn, UInt32.toNat_zero] at hpositive
  omega

/-- **A line of 2 ^ 32 - 1 characters is too long**: behind it the column is 2 ^ 32, and the counter
begins again at 0. -/
theorem not_truthful_behind_line :
    let t : Text := List.replicate (2 ^ 32 - 1) ' '
    let behind := (converse ask (ofText t) [.next]).2.position.counters
    (t.lines.length < 2 ^ 32 ∧ ∀ l ∈ t.lines, l.length < 2 ^ 32) ∧ AsksBack [] (ofText t) [.next] ∧
      behind.column = 0 ∧ ¬ behind.Truthful t := by
  -- the lemmas are about any number of spaces, so that these are never written down
  have hn : 2 ^ 32 - 1 + 1 = 2 ^ 32 := by decide
  have hlines := lines_spaces (2 ^ 32 - 1)
  have hcounters := not_truthful_next_spaces hn
  refine ⟨⟨?_, fun l hl => ?_⟩, ⟨fun _ h => (nomatch h), trivial⟩, hcounters⟩
  · rw [hlines, List.length_singleton]
    decide
  · rw [hlines, List.mem_singleton] at hl
    rw [hl, List.length_replicate]
    decide

end Reader

end DesignAtlas
