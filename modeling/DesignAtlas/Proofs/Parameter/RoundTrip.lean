import DesignAtlas.Proofs.Parameter.Form

/-! # Printed parameter declarations are read back

Printed groups are entries one after the other (`AreEntries`), each read behind the size or type of the
one before it. With commas on lines of their own between them they are the parts of a text
(`AreEntries.isCut_padded`) and all of them are accepted (`AreEntries.partOutcomes_padded`), as a block
and as a statement (`ofBlock_printGroups`). -/

namespace DesignAtlas.Parameter

variable {o : Options} {inherited : Option (Option String)} {ts us : List Text}
  {ps qs : List Parameter}

/-! ### Entries one after the other -/

/-- The texts are entries that declare the parameters, each behind the one before it. -/
inductive AreEntries (o : Options) : Option (Option String) → List Text → List Parameter → Prop
  | nil {inherited : Option (Option String)} : AreEntries o inherited [] []
  | cons {inherited : Option (Option String)} {t : Text} {q : Parameter} {ts : List Text}
      {qs : List Parameter} (head : IsEntry o inherited t q)
      (tail : AreEntries o (some q.sizeOrType) ts qs) : AreEntries o inherited (t :: ts) (q :: qs)

theorem AreEntries.append (ht : AreEntries o inherited ts ps)
    (hu : ∀ shape, AreEntries o shape us qs) : AreEntries o inherited (ts ++ us) (ps ++ qs) := by
  induction ht with
  | nil => exact hu _
  | cons head _ ih => exact .cons head ih

theorem areEntries_map (shape : Option String) : ∀ es : List Entry,
    AreEntries o (some shape) (es.map Entry.print) (es.map (Entry.parameter shape))
  | [] => .nil
  | e :: es => .cons (e.isEntry shape) (areEntries_map shape es)

theorem Group.areEntries (g : Group o) (inherited : Option (Option String)) :
    AreEntries o inherited g.print g.parameters :=
  .cons (g.isEntry_first inherited) (areEntries_map g.shape g.others)

theorem areEntries_flatMap : ∀ (gs : List (Group o)) (inherited : Option (Option String)),
    AreEntries o inherited (gs.flatMap Group.print) (gs.flatMap Group.parameters)
  | [], _ => .nil
  | g :: gs, inherited => (g.areEntries inherited).append (areEntries_flatMap gs)

/-! ### Commas on lines of their own -/

/-- The texts with the newlines around the commas between them; `pre` stands before the first. -/
def padded (pre : Text) : List Text → List Text
  | [] => []
  | [t] => [pre ++ t]
  | t :: u :: ts => (pre ++ (t ++ ['\n'])) :: padded ['\n'] (u :: ts)

theorem padded_ne_nil (pre : Text) (h : ts ≠ []) : padded pre ts ≠ [] := by
  match ts with
  | [_] | _ :: _ :: _ => exact List.cons_ne_nil _ _

theorem join_padded : ∀ (pre : Text) {ts : List Text}, ts ≠ [] →
    join (padded pre ts) = pre ++ List.intercalate "\n,\n".toList ts
  | pre, [t], _ => by simp [padded, join]
  | pre, t :: u :: ts, _ => by
    have ih := join_padded ['\n'] (List.cons_ne_nil u ts)
    obtain ⟨v, vs, hv⟩ := List.exists_cons_of_ne_nil (padded_ne_nil ['\n'] (List.cons_ne_nil u ts))
    rw [padded, List.intercalate_cons_cons]
    rw [hv] at ih ⊢
    rw [join_cons_cons, ih]
    simp

section Padded

variable {pre : Text} (hpre : ∀ c ∈ pre, isBlank c = true)
include hpre

theorem map_skeleton_scan_blanks (t : Text) :
    (Token.scan (pre ++ t)).map Token.skeleton = (Token.scan t).map Token.skeleton := by
  rw [Token.scan, Glyph.scanFrom_blanks hpre, Token.map_skeleton_scanFrom]

theorem whole_scan_blanks {t : Text} (h : Whole (Token.scan t)) : Whole (Token.scan (pre ++ t)) :=
  h.congr (map_skeleton_scan_blanks hpre t)

theorem scan_blanks_ne_nil {t : Text} (h : Token.scan t ≠ []) : Token.scan (pre ++ t) ≠ [] := by
  intro hnil
  have := map_skeleton_scan_blanks hpre t
  rw [hnil] at this
  exact h (List.map_eq_nil_iff.mp this.symm)

/-- An entry between newlines is a part. -/
theorem IsEntry.isPart {t : Text} {q : Parameter} (h : IsEntry o inherited t q) :
    IsPart (pre ++ (t ++ ['\n'])) := by
  have hsealed : Text.Sealed (pre ++ (t ++ ['\n'])) := (Text.sealed_blank hpre).append h.sealing
  have hwhole := whole_scan_blanks hpre (h.whole ['\n'] (Or.inr rfl))
  have hcomma : ∀ p, Token.scanFrom p [','] = [(Symbol.comma.glyph []).token p] := fun p => by
    have hall : Glyph.ReadAll [Symbol.comma.glyph []] [] :=
      ⟨Symbol.comma.reads blank_nil _, trivial⟩
    have := Glyph.scanFrom_spell_blank hall blank_nil p
    simpa [Symbol.char] using this
  have hscan : Token.scan (pre ++ (t ++ ['\n']) ++ [',']) = _ := hsealed Position.start [',']
  rw [hcomma] at hscan
  exact isPart_of_scan hscan rfl hwhole

theorem IsEntry.isLast {t : Text} {q : Parameter} (h : IsEntry o inherited t q) :
    IsLast (pre ++ t) := by
  have hwhole := h.whole [] (Or.inl rfl)
  rw [List.append_nil] at hwhole
  exact (whole_scan_blanks hpre hwhole).runs_eq

end Padded

/-- **Entries with commas between them** are the parts of a text. -/
theorem AreEntries.isCut_padded (h : AreEntries o inherited ts ps) (hne : ts ≠ []) {pre : Text}
    (hpre : ∀ c ∈ pre, isBlank c = true) : IsCut (padded pre ts) := by
  induction h generalizing pre with
  | nil => exact absurd rfl hne
  | cons head tail ih =>
    cases tail with
    | nil => exact head.isLast hpre
    | @cons _ u q us _ head' tail' =>
      have htail := ih (List.cons_ne_nil _ _) blank_newline
      obtain ⟨v, vs, hv⟩ := List.exists_cons_of_ne_nil
        (padded_ne_nil ['\n'] (List.cons_ne_nil u us))
      rw [padded]
      rw [hv] at htail ⊢
      exact ⟨head.isPart hpre, htail⟩

/-- **All entries are accepted.** -/
theorem AreEntries.partOutcomes_padded (h : AreEntries o inherited ts ps) {pre : Text}
    (hpre : ∀ c ∈ pre, isBlank c = true) :
    partOutcomes o inherited (padded pre ts) = ps.map .ok := by
  induction h generalizing pre with
  | nil => rfl
  | @cons inherited t q ts qs head tail ih =>
    have hone : ∀ (b : Text) (rest : List Text), IsEnd b →
        partOutcomes o inherited ((pre ++ (t ++ b)) :: rest) =
          .ok q :: partOutcomes o (some q.sizeOrType) rest := by
      intro b rest hb
      have hread := head.read b hb
      rw [← ofPart?_blanks inherited hpre] at hread
      exact partOutcomes_of_some (scan_blanks_ne_nil hpre (head.nonempty b hb)) hread
    cases tail with
    | nil =>
      have := hone [] [] (Or.inl rfl)
      rwa [List.append_nil] at this
    | cons head' tail' =>
      rw [padded, hone ['\n'] _ (Or.inr rfl), ih blank_newline]
      rfl

/-! ### The first entry -/

/-- The first run of a text is its first part. -/
theorem IsCut.exists_runs {t : Text} {rest : List Text} (h : IsCut (t :: rest)) :
    ∃ rs, runs 0 (Token.scan (join (t :: rest))) = Token.scan t :: rs := by
  cases rest with
  | nil =>
    refine ⟨[], ?_⟩
    have hjoin : join [t] = t := by simp [join]
    rw [hjoin]
    exact h
  | cons u rest =>
    obtain ⟨c, hc, hscan⟩ := h.1.scanFrom Position.start (join (u :: rest))
    refine ⟨runs 0 (Token.scanFrom (Position.start.advance (t ++ [','])) (join (u :: rest))), ?_⟩
    rw [join_cons_cons, Token.scan, hscan]
    exact h.1.whole.runs_comma hc _

/-- A text whose first part has a keyword declares its parameters as a statement too. -/
theorem ofStatement?_of_keyword {t : Text} {rest : List Text} (h : IsCut (t :: rest))
    (hkeyword : (afterKeyword? o (Token.scan t)).isSome = true) :
    ofStatement? o (join (t :: rest)) = some (ofBlock o (join (t :: rest))) := by
  have hne : Token.scan t ≠ [] := by
    intro hnil
    rw [hnil] at hkeyword
    cases hkeyword
  obtain ⟨rs, hruns⟩ := h.exists_runs
  have hsegments : segments (Token.scan (join (t :: rest))) =
      Token.scan t :: rs.filter fun r => !r.isEmpty := by
    rw [segments, hruns, List.filter_cons_of_pos (by simpa using hne)]
  unfold ofStatement? ofBlock
  rw [hsegments]
  exact if_pos hkeyword

theorem Group.isSome_afterKeyword? (g : Group o) (u : Text) :
    (afterKeyword? o (Token.scan (g.front ++ u))).isSome = true := by
  rw [g.isFront_front.scan_append, g.scan_front, List.cons_append,
    afterKeyword?_cons (g.isKeyword_token _)]
  rfl

/-! ### Groups -/

/-- **Printed groups are read back.** Every entry declares its parameter, with the size or type of its
group; nothing is rejected, whether the text is a block or a statement. -/
theorem ofBlock_printGroups (o : Options) (module : String) {gs : List (Group o)} (h : gs ≠ []) :
    ofBlock o (printGroups gs) = ⟨gs.flatMap Group.parameters, []⟩ ∧
      blockDiagnostics module (ofBlock o (printGroups gs)) = [] ∧
      ofStatement? o (printGroups gs) = some ⟨gs.flatMap Group.parameters, []⟩ := by
  have hentries := areEntries_flatMap gs none
  have hne : gs.flatMap Group.print ≠ [] := by
    obtain ⟨g, gs, rfl⟩ := List.exists_cons_of_ne_nil h
    exact List.cons_ne_nil _ _
  have hcut := hentries.isCut_padded hne blank_nil
  have hjoin : join (padded [] (gs.flatMap Group.print)) = printGroups gs := join_padded [] hne
  have hblock : ofBlock o (printGroups gs) = ⟨gs.flatMap Group.parameters, []⟩ := by
    rw [← hjoin, ofBlock_parts hcut, hentries.partOutcomes_padded blank_nil, accepted_map_ok,
      rejected_map_ok]
  refine ⟨hblock, by rw [hblock]; rfl, ?_⟩
  obtain ⟨g, gs, rfl⟩ := List.exists_cons_of_ne_nil h
  have hfirst : ∃ u rest, padded [] ((g :: gs).flatMap Group.print) = (g.front ++ u) :: rest := by
    rw [List.flatMap_cons, Group.print, List.cons_append]
    cases g.others.map Entry.print ++ gs.flatMap Group.print with
    | nil => exact ⟨g.first.print, [], rfl⟩
    | cons t ts =>
      exact ⟨g.first.print ++ ['\n'], padded ['\n'] (t :: ts), by simp [padded]⟩
  obtain ⟨u, rest, hpadded⟩ := hfirst
  rw [hpadded] at hcut hjoin
  rw [← hjoin] at hblock ⊢
  rw [ofStatement?_of_keyword hcut (g.isSome_afterKeyword? u), hblock]

/-- A group with a range and a continuation, whose values hold commas, before one with a type. -/
theorem ofBlock_printGroups_pair :
    let o : Options := { captureLocalparams := true }
    let sum : Expression := ⟨"\x7bW, f(a, b)\x7d".toList, by decide +kernel, by decide +kernel,
      by decide +kernel, by decide +kernel⟩
    let message : Expression := ⟨"\"x, y\"".toList, by decide +kernel, by decide +kernel,
      by decide +kernel, by decide +kernel⟩
    let one : Expression := ⟨"1".toList, by decide +kernel, by decide +kernel, by decide +kernel,
      by decide +kernel⟩
    let range : Range := ⟨"[ 7:0 ]".toList, by decide +kernel⟩
    let ranged : Group o := ⟨.parameter, none, some .signed, [range],
      ⟨⟨"A".toList, by decide⟩, sum, by decide, by decide⟩,
      [⟨⟨"B".toList, by decide⟩, message, by decide, by decide⟩], Or.inl rfl, (fun _ h => nomatch h),
      List.forall_mem_singleton.mpr (by decide +kernel)⟩
    let typed : Group o := ⟨.localparam, some ⟨"integer".toList, by decide⟩, some .unsigned, [],
      ⟨⟨"C".toList, by decide⟩, one, by decide, by decide⟩, [], Or.inr ⟨rfl, rfl⟩,
      fun w h => by
        cases h
        exact ⟨by decide, by decide⟩,
      List.forall_mem_nil _⟩
    let text : Text := printGroups [ranged, typed]
    let declared : List Parameter := [⟨"A", some "[7:0]", "\x7bW, f(a, b)\x7d"⟩,
      ⟨"B", some "[7:0]", "\"x, y\""⟩, ⟨"C", some "integer unsigned", "1"⟩]
    text = ("parameter signed [ 7:0 ] A = \x7bW, f(a, b)\x7d\n,\nB = \"x, y\"\n,\n" ++
        "localparam integer unsigned C = 1").toList ∧ [ranged, typed] ≠ [] ∧
      ofBlock o text = ⟨declared, []⟩ ∧ blockDiagnostics "m" (ofBlock o text) = [] ∧
      ofStatement? o text = some ⟨declared, []⟩ := by
  intro o sum message one range ranged typed text declared
  have hne : [ranged, typed] ≠ [] := List.cons_ne_nil _ _
  have hdeclared : [ranged, typed].flatMap Group.parameters = declared := by decide +kernel
  have h := ofBlock_printGroups o "m" hne
  rw [hdeclared] at h
  exact ⟨by decide +kernel, hne, h⟩

end DesignAtlas.Parameter
