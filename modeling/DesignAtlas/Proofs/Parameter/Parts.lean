import DesignAtlas.Proofs.Parameter.Runs
import DesignAtlas.Proofs.Parameter.Skeleton
import DesignAtlas.Proofs.Token.Sealed

/-! # Parameter texts part by part

A text that declares parameters is its parts with commas between them (`Parameter.IsCut`): each
part but the last is what the comma behind it cuts off. Every text has parts (`exists_isCut`). What
a part declares does not depend on where it stands, so a text declares what its parts declare, read
one by one (`ofBlock_parts`). -/

namespace DesignAtlas.Parameter

variable {o : Options} {t : Text}

/-! ### Parts -/

/-- The comma behind the text cuts it off. -/
def IsPart (t : Text) : Prop := ∃ ts, runs 0 (Token.scan (t ++ [','])) = [ts, []]

/-- No comma cuts the text. -/
def IsLast (t : Text) : Prop := runs 0 (Token.scan t) = [Token.scan t]

/-- The texts are the parts of a text. -/
def IsCut : List Text → Prop
  | [] => False
  | [t] => IsLast t
  | t :: u :: ps => IsPart t ∧ IsCut (u :: ps)

/-- Parts with a comma between them. -/
def join (ps : List Text) : Text := List.intercalate [','] ps

theorem join_cons_cons (t u : Text) (ps : List Text) :
    join (t :: u :: ps) = t ++ ',' :: join (u :: ps) := by
  unfold join
  rw [List.intercalate_cons_cons, List.append_assoc, List.singleton_append]

/-- **A part as glyphs,** which are whole tokens with a comma behind them and without it. -/
theorem IsPart.exists_layout (h : IsPart t) : ∃ (gs : List Glyph) (gap : Text),
    t = Glyph.spell gs ++ gap ∧ (∀ c ∈ gap, isBlank c = true) ∧ Glyph.ReadAll gs gap ∧
      Glyph.ReadAll gs (gap ++ [',']) ∧ Whole (Glyph.place Position.start gs) := by
  obtain ⟨ts, hruns⟩ := h
  obtain ⟨c, hc, hscan, hwhole⟩ := exists_comma_of_runs hruns
  obtain ⟨gs, tail, htext, htail, hall⟩ := Glyph.exists_layout (t ++ [','])
  rw [htext, Token.scan, Glyph.scanFrom_spell_blank hall htail] at hscan
  obtain ⟨init, last, rfl, hinit, hlast⟩ := Glyph.place_eq_append hscan
  obtain ⟨g, rfl⟩ : ∃ g, last = [g] := by
    cases last with
    | nil => cases hlast
    | cons g last =>
      cases last with
      | nil => exact ⟨g, rfl⟩
      | cons => cases hlast
  obtain rfl : g.token _ = c := by simpa using hlast
  obtain ⟨hallInit, hg, -⟩ := Glyph.readAll_append.mp hall
  have hcomma : g.text = [','] := hg.symbol_text hc
  -- the text ends with the comma, so nothing stands behind it
  obtain rfl : tail = [] := by
    rcases List.eq_nil_or_concat tail with rfl | ⟨tail, b, rfl⟩
    · rfl
    · have hlast := congrArg List.getLast? htext
      simp only [List.concat_eq_append, ← List.append_assoc, List.getLast?_concat,
        Option.some.injEq] at hlast
      have := htail b (by simp)
      rw [← hlast] at this
      cases this
  have ht : t = Glyph.spell init ++ g.gap := by
    have : t ++ [','] = Glyph.spell init ++ g.gap ++ [','] := by
      rw [htext]
      simp [Glyph.spelling, hcomma]
    exact List.append_cancel_right this
  have hbefore : Glyph.ReadAll init (g.gap ++ [',']) := by
    simpa [Glyph.spelling, hcomma] using hallInit
  have hsettled := Glyph.settled_of_symbol (by simpa using hallInit) hg hc
  refine ⟨init, g.gap, ht, hg.blank, Glyph.readAll_shorten hbefore (Or.inr hsettled), hbefore, ?_⟩
  rw [hinit]
  exact hwhole

theorem IsPart.whole (h : IsPart t) : Whole (Token.scan t) := by
  obtain ⟨gs, gap, rfl, hgap, hall, -, hwhole⟩ := h.exists_layout
  rwa [Token.scan, Glyph.scanFrom_spell_blank hall hgap]

theorem IsPart.terminated (h : IsPart t) : t.Terminated := by
  obtain ⟨gs, gap, rfl, hgap, hall, hcomma, -⟩ := h.exists_layout
  intro tok htok
  rw [Token.scan, Glyph.scanFrom_spell_blank hall hgap] at htok
  obtain ⟨g, hg, hp, hs⟩ := Glyph.slice_of_mem_place (a := []) gap htok
  obtain ⟨before, after, rfl⟩ := List.append_of_mem hg
  obtain ⟨-, hreads, -⟩ := Glyph.readAll_append.mp hcomma
  rw [List.nil_append] at hs
  rw [hp, hs]
  exact hreads.isOpen (by simp)

/-- **A part is scanned by itself,** and so is what stands behind its comma. -/
theorem IsPart.scanFrom (h : IsPart t) (p : Position) (u : Text) :
    ∃ c : Token, c.payload = .symbol .comma ∧ Token.scanFrom p (t ++ ',' :: u) =
      Token.scanFrom p t ++ c :: Token.scanFrom (p.advance (t ++ [','])) u := by
  obtain ⟨gs, gap, rfl, hgap, hall, hcomma, -⟩ := h.exists_layout
  have hglyph : (Symbol.comma.glyph gap).Reads u := Symbol.comma.reads hgap u
  have hboth : Glyph.ReadAll (gs ++ [Symbol.comma.glyph gap]) u := by
    refine Glyph.readAll_append.mpr ⟨?_, hglyph, trivial⟩
    have := Glyph.readAll_append_right hcomma (by simp) u
    simpa [Symbol.char] using this
  have hspell : Glyph.spell (gs ++ [Symbol.comma.glyph gap]) = Glyph.spell gs ++ gap ++ [','] := by
    simp [Symbol.char]
  refine ⟨(Symbol.comma.glyph gap).token (p.advance (Glyph.spell gs)), rfl, ?_⟩
  have hscan := Glyph.scanFrom_spell hboth p
  rw [hspell, List.append_assoc, List.singleton_append, Glyph.place_append] at hscan
  rw [hscan, Glyph.scanFrom_spell_blank hall hgap]
  simp

/-- Whole tokens with a comma behind them are a part. -/
theorem isPart_of_scan {ts : List Token} {c : Token} (h : Token.scan (t ++ [',']) = ts ++ [c])
    (hc : c.payload = .symbol .comma) (hts : Whole ts) : IsPart t :=
  ⟨ts, by rw [h]; exact hts.runs_comma hc []⟩

/-! ### Every text has parts -/

/-- The first comma that cuts tokens. -/
theorem exists_first_comma : ∀ {ts : List Token} {depth : Nat} {r s : List Token}
    {rs : List (List Token)}, runs depth ts = r :: s :: rs →
      ∃ c us, c.payload = .symbol .comma ∧ ts = r ++ c :: us ∧ runs depth (r ++ [c]) = [r, []]
  | [], _, _, _, _, h => by cases h
  | t :: ts, depth, r, s, rs, h => by
    cases r with
    | nil =>
      rw [runs_cons] at h
      split at h
      · rename_i hc
        rw [Bool.and_eq_true] at hc
        refine ⟨t, ts, by simpa [Token.isSymbol] using hc.1, rfl, ?_⟩
        rw [List.nil_append, runs_cons, if_pos (by simpa using hc)]
        rfl
      · obtain ⟨l, ls, hl⟩ := List.exists_cons_of_ne_nil (runs_ne_nil (nesting depth t) ts)
        rw [hl, List.modifyHead_cons] at h
        cases h
    | cons t' r =>
      obtain ⟨hc, rfl, htail⟩ := runs_tail h
      obtain ⟨c, us, hcomma, rfl, hcut⟩ := exists_first_comma htail
      refine ⟨c, us, hcomma, rfl, ?_⟩
      rw [List.cons_append, runs_cons, if_neg hc, hcut]
      rfl

/-- **Every text is its parts** with commas between them. -/
theorem exists_isCut (t : Text) : ∃ ps, IsCut ps ∧ join ps = t := by
  -- by the length of the text: what follows the first comma is shorter
  induction hn : t.length using Nat.strong_induction_on generalizing t with
  | _ n ih =>
    obtain ⟨r, rs, hruns⟩ := List.exists_cons_of_ne_nil (runs_ne_nil 0 (Token.scan t))
    cases rs with
    | nil =>
      have hlast : IsLast t := by rw [IsLast, hruns, runs_eq_singleton hruns]
      exact ⟨[t], hlast, by simp [join]⟩
    | cons s rs =>
      obtain ⟨c, us, hc, hscan, hcut⟩ := exists_first_comma hruns
      obtain ⟨gs, tail, rfl, htail, hall⟩ := Glyph.exists_layout t
      rw [Token.scan, Glyph.scanFrom_spell_blank hall htail] at hscan
      obtain ⟨as, bs, rfl, has, hbs⟩ := Glyph.place_eq_append hscan
      cases bs with
      | nil => cases hbs
      | cons g bs =>
        obtain ⟨rfl, -⟩ := List.cons.inj hbs
        obtain ⟨hallAs, hg, -⟩ := Glyph.readAll_append.mp hall
        have hcomma : g.text = [','] := hg.symbol_text hc
        have hfront : Glyph.ReadAll (as ++ [g]) ([] ++ (Glyph.spell bs ++ tail)) := by
          refine Glyph.readAll_append.mpr ⟨?_, hg, trivial⟩
          simpa using hallAs
        have hsettled : Payload.Settled ((as ++ [g]).map Glyph.payload) := by
          have hp : g.payload = .symbol .comma := hc
          simp [Payload.Settled, hp, Payload.bareApostrophe]
        have hpart : IsPart (Glyph.spell as ++ g.gap) := by
          refine ⟨r, ?_⟩
          have hone := Glyph.scanFrom_spell_blank
            (Glyph.readAll_shorten hfront (Or.inr hsettled)) blank_nil Position.start
          have hspell : Glyph.spell (as ++ [g]) ++ [] = Glyph.spell as ++ g.gap ++ [','] := by
            simp [Glyph.spelling, hcomma]
          rw [hspell, Glyph.place_append, has] at hone
          rw [Token.scan, hone]
          exact hcut
        have htext : Glyph.spell (as ++ g :: bs) ++ tail =
            Glyph.spell as ++ g.gap ++ ',' :: (Glyph.spell bs ++ tail) := by
          simp [Glyph.spelling, hcomma]
        have hlt : (Glyph.spell bs ++ tail).length < n := by
          rw [← hn, htext]
          simp only [List.length_append, List.length_cons]
          omega
        obtain ⟨ps, hps, hjoin⟩ := ih _ hlt _ rfl
        cases ps with
        | nil => cases hps
        | cons q qs =>
          refine ⟨(Glyph.spell as ++ g.gap) :: q :: qs, ⟨hpart, hps⟩, ?_⟩
          rw [join_cons_cons, hjoin, htext]

/-! ### Reading part by part -/

/-- Reads a part by itself. -/
def ofPart? (o : Options) (inherited : Option (Option String)) (t : Text) : Option Parameter :=
  ofSegment? t o inherited (Token.scan t)

/-- The outcome of every part that has tokens. -/
def partOutcomes (o : Options) :
    Option (Option String) → List Text → List (Except String Parameter)
  | _, [] => []
  | inherited, t :: ts =>
    if (Token.scan t).isEmpty then partOutcomes o inherited ts
    else
      match ofPart? o inherited t with
      | some p => .ok p :: partOutcomes o (some p.sizeOrType) ts
      | none => .error (String.ofList (Text.collapse t)) :: partOutcomes o inherited ts

section Outcomes

variable {inherited : Option (Option String)} {q : Parameter} {ps : List Text}

theorem partOutcomes_of_nil (h : Token.scan t = []) :
    partOutcomes o inherited (t :: ps) = partOutcomes o inherited ps := by
  rw [partOutcomes, if_pos (by simp [h])]

theorem partOutcomes_of_some (h : Token.scan t ≠ []) (hq : ofPart? o inherited t = some q) :
    partOutcomes o inherited (t :: ps) = .ok q :: partOutcomes o (some q.sizeOrType) ps := by
  rw [partOutcomes, if_neg (by simpa using h)]
  simp only [hq]

theorem accepted_ok_cons (rs : List (Except String Parameter)) :
    accepted (.ok q :: rs) = q :: accepted rs := rfl

theorem rejected_ok_cons (rs : List (Except String Parameter)) :
    rejected (.ok q :: rs) = rejected rs := rfl

theorem accepted_map_ok (qs : List Parameter) : accepted (qs.map .ok) = qs := by
  induction qs with
  | nil => rfl
  | cons q qs ih => exact congrArg (q :: ·) ih

theorem rejected_map_ok (qs : List Parameter) : rejected (qs.map .ok) = [] := by
  induction qs with
  | nil => rfl
  | cons q qs ih => exact ih

end Outcomes

/-- A part is read in its text as it is by itself. -/
theorem ofSegment?_part (inherited : Option (Option String)) (a t u : Text) :
    ofSegment? (a ++ t ++ u) o inherited (Token.scanFrom (Position.start.advance a) t) =
      ofPart? o inherited t := by
  have hmoved : ∀ tok : Token, (tok.relocate
      (Position.behind (Position.start.advance a))).skeleton = tok.skeleton := fun _ => rfl
  rw [Token.scanFrom_eq_relocate]
  exact ofSegment?_map hmoved (fun us hus => Token.sourceOf_relocate a hus u) o inherited

/-- Blanks in front of a part make no difference. -/
theorem ofPart?_blanks (inherited : Option (Option String)) {b : Text}
    (hb : ∀ c ∈ b, isBlank c = true) (t : Text) :
    ofPart? o inherited (b ++ t) = ofPart? o inherited t := by
  have hpart := ofSegment?_part (o := o) inherited b t []
  rw [List.append_nil, ← Glyph.scanFrom_blanks hb] at hpart
  exact hpart

theorem outcomes_part (inherited : Option (Option String)) (a t u : Text)
    (rs : List (List Token)) :
    outcomes (a ++ t ++ u) o inherited
        ((Token.scanFrom (Position.start.advance a) t :: rs).filter fun r => !r.isEmpty) =
      if (Token.scan t).isEmpty then
        outcomes (a ++ t ++ u) o inherited (rs.filter fun r => !r.isEmpty)
      else
        match ofPart? o inherited t with
        | some p => .ok p ::
            outcomes (a ++ t ++ u) o (some p.sizeOrType) (rs.filter fun r => !r.isEmpty)
        | none => .error (String.ofList (Text.collapse t)) ::
            outcomes (a ++ t ++ u) o inherited (rs.filter fun r => !r.isEmpty) := by
  have hempty : (Token.scanFrom (Position.start.advance a) t).isEmpty = (Token.scan t).isEmpty := by
    rw [Token.scanFrom_eq_relocate, List.isEmpty_map]
  split
  · rename_i h
    rw [List.filter_cons_of_neg (by simp [hempty, h])]
  · rename_i h
    rw [List.filter_cons_of_pos (by simp [hempty, h])]
    cases hp : ofPart? o inherited t with
    | none => simp only [outcomes, ofSegment?_part, hp, Token.collapse_sourceOf_scanFrom]
    | some p => simp only [outcomes, ofSegment?_part, hp]

/-- **The segments of a text have the outcomes of its parts.** -/
theorem outcomes_segments : ∀ {ps : List Text}, IsCut ps →
    ∀ (a : Text) (inherited : Option (Option String)),
      outcomes (a ++ join ps) o inherited
          (segments (Token.scanFrom (Position.start.advance a) (join ps))) =
        partOutcomes o inherited ps
  | [], h, _, _ => nomatch h
  | [t], h, a, inherited => by
    have hone : runs 0 (Token.scanFrom (Position.start.advance a) t) =
        [Token.scanFrom (Position.start.advance a) t] := by
      refine runs_singleton_congr ?_ h
      rw [Token.scanFrom_eq_relocate, List.map_map]
      rfl
    have hpart := outcomes_part (o := o) inherited a t [] []
    rw [List.append_nil] at hpart
    have hjoin : join [t] = t := by simp [join]
    rw [hjoin, segments, hone, hpart, partOutcomes]
    rfl
  | t :: u :: ps, ⟨ht, hps⟩, a, inherited => by
    obtain ⟨c, hc, hscan⟩ := ht.scanFrom (Position.start.advance a) (join (u :: ps))
    have hwhole : Whole (Token.scanFrom (Position.start.advance a) t) := by
      refine ht.whole.congr ?_
      rw [Token.scanFrom_eq_relocate, List.map_map]
      rfl
    have hpart := outcomes_part (o := o) inherited a t (',' :: join (u :: ps))
      (runs 0 (Token.scanFrom (Position.start.advance (a ++ (t ++ [',']))) (join (u :: ps))))
    have ih := fun i => outcomes_segments hps (a ++ (t ++ [','])) i
    have htext : a ++ (t ++ [',']) ++ join (u :: ps) = a ++ t ++ ',' :: join (u :: ps) := by simp
    simp only [htext, segments] at ih
    rw [join_cons_cons, segments, hscan, hwhole.runs_comma hc, ← Position.advance_append,
      ← List.append_assoc, hpart, partOutcomes]
    simp only [ih]

/-- **A text declares what its parts declare.** -/
theorem ofBlock_parts {ps : List Text} (h : IsCut ps) : ofBlock o (join ps) =
    ⟨accepted (partOutcomes o none ps), rejected (partOutcomes o none ps)⟩ := by
  have := outcomes_segments (o := o) h [] none
  unfold ofBlock declaredBy
  simp only [List.nil_append, Position.advance_nil] at this
  simp only [Token.scan, this]

end DesignAtlas.Parameter
