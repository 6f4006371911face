import DesignAtlas.Pin.List
import DesignAtlas.Proofs.Pin.Items
import DesignAtlas.Proofs.Roster.Distinct
import DesignAtlas.Proofs.Roster.Map

/-! # Pins of the header and pins of the body

A list of declarations may stand in a header, where it makes the pins, or in a statement of the body,
where it refines pins that are there. Without directives both readers state the same pins one after
the other, up to their conditions (`PinList.foldl_step_pins`, `PinDecl.pinsOf_under`). Pins that have
just the names of the list are refined into the pins that the list makes (`PinDecl.refine_ofText`). -/

namespace DesignAtlas

/-- The pin under other conditions. -/
def Pin.under (cs : List String) (p : Pin) : Pin := { p with conditionals := cs }

theorem Pin.keepsNames_under (cs : List String) : Roster.KeepsNames (Pin.under cs) := fun _ => rfl

/-! ### The pins stated -/

/-- The pins stated are the same under all conditions but for these. -/
theorem PinDecl.pinsOf_under (text : Text) (cs cs' : List String) :
    ∀ (items : List PinItem) (pattern : Option Pin),
      pinsOf text cs (pattern.map (Pin.under cs)) items =
        (pinsOf text cs' pattern items).map (Pin.under cs)
  | [], _ => rfl
  | .directive _ :: items, pattern => pinsOf_under text cs cs' items pattern
  | .declaration ts :: items, pattern => by
    have ih := pinsOf_under text cs cs' items
    rw [pinsOf, pinsOf]
    cases ofTokens? text ts with
    | none => exact ih pattern
    | some d =>
      simp only
      split_ifs
      · rw [List.map_cons, ← ih]
        rfl
      · cases pattern with
        | none => exact ih none
        | some p =>
          rw [List.map_cons, ← ih]
          rfl

namespace PinList

/-- A declaration that says more than the name is put and becomes the pattern. -/
theorem stepDecl_of_isQualified (s : PinList) {d : PinDecl} (hd : d.isQualified = true) :
    s.stepDecl d =
      { s with pattern := some (d.pin s.stack.snapshot),
               pins := s.pins.put (d.pin s.stack.snapshot) } := by
  simp [stepDecl, pinOf, hd]

/-- A bare name is put as the pattern says. -/
theorem stepDecl_of_pattern {s : PinList} {d : PinDecl} {p : Pin} (hd : ¬ d.isQualified = true)
    (hp : s.pattern = some p) :
    s.stepDecl d = { s with pins := s.pins.put (p.renamed d.name s.stack.snapshot) } := by
  simp [stepDecl, pinOf, hd, hp]

/-- **In the header** a list without directives puts the pins that it states, once there is a pattern
for names. -/
theorem foldl_step_pins (module : String) (text : Text) : ∀ {items : List PinItem},
    (∀ d, .directive d ∉ items) → ∀ {s : PinList} {p : Pin}, s.pattern = some p →
      (items.foldl (step module text) s).pins =
        s.pins.putAll (PinDecl.pinsOf text s.stack.snapshot (some p) items)
  | [], _, _, _, _ => rfl
  | .directive d :: _, h, _, _, _ => absurd List.mem_cons_self (h d)
  | .declaration ts :: items, h, s, p, hp => by
    have ih := @foldl_step_pins module text items fun d hd => h d (List.mem_cons_of_mem _ hd)
    rw [List.foldl_cons, step, PinDecl.pinsOf]
    cases PinDecl.ofTokens? text ts with
    | none => exact ih hp
    | some d =>
      simp only
      split_ifs with hd
      · rw [stepDecl_of_isQualified s hd]
        exact ih rfl
      · rw [stepDecl_of_pattern hd hp]
        exact ih hp

end PinList

/-! ### The two lists -/

namespace PinDecl

/-- A declaration that begins with a direction says more than the name. -/
theorem isQualified_of_direction {text : Text} {t : Token} {ts : List Token} {d : PinDecl}
    (hdir : (Direction.ofPayload? t.payload).isSome = true)
    (h : ofTokens? text (t :: ts) = some d) : d.isQualified = true := by
  obtain ⟨dir, hdir⟩ := Option.isSome_iff_exists.mp hdir
  have htake : takeDirection (t :: ts) = (some dir, ts) := by
    rw [takeDirection, hdir]
  unfold ofTokens? at h
  simp only [htake] at h
  split at h
  · obtain ⟨name, -, rfl⟩ := Option.map_eq_some_iff.mp h
    rfl
  · cases h

variable {text : Text} {t : Token} {ts : List Token} {items : List PinItem}

/-- **A statement of the body refines pins into those of the list.** The list has no directives, and
its first item is a declaration that begins with a direction. Pins with just the names that the list
gives in a header, in their order, become the pins of that header under the conditions of the
statement. -/
theorem refine_ofText (module : String) (o : Options) (cs : List String) {pins : Roster Pin}
    (hplain : ∀ u ∈ Token.scan text, ∀ d, u.payload ≠ .directive d)
    (hitems : PinItem.ofTokens (Token.scan text) = .declaration (t :: ts) :: items)
    (hdir : (Direction.ofPayload? t.payload).isSome = true)
    (hread : (ofTokens? text (t :: ts)).isSome = true)
    (hnames : pins.names = (PinList.ofText module o text).pins.names) :
    refine? pins text cs = some ((PinList.ofText module o text).pins.map (Pin.under cs)) := by
  obtain ⟨d, hd⟩ := Option.isSome_iff_exists.mp hread
  have hq := isQualified_of_direction hdir hd
  have hnone : ∀ e, .directive e ∉ items := by
    intro e he
    have hmem := List.mem_cons_of_mem (.declaration (t :: ts)) he
    rw [← hitems] at hmem
    obtain ⟨u, hu, hp⟩ := PinItem.exists_of_directive hmem
    exact hplain u hu e hp
  -- the header puts the pins that the list states under no conditions
  have hheader : (PinList.ofText module o text).pins =
      Roster.empty.putAll (pinsOf text [] none (PinItem.ofTokens (Token.scan text))) := by
    unfold PinList.ofText
    rw [hitems, List.foldl_cons, PinList.step, pinsOf, hd]
    simp only [if_pos hq, PinList.stepDecl_of_isQualified _ hq]
    exact PinList.foldl_step_pins module text hnone rfl
  have hbegins : beginsWithDirection (PinItem.ofTokens (Token.scan text)) = true := by
    rw [hitems]
    exact hdir
  have hbody := pinsOf_under text cs [] (PinItem.ofTokens (Token.scan text)) none
  rw [Option.map_none] at hbody
  rw [hheader, Roster.map_putAll (Pin.keepsNames_under cs), Roster.map_empty, ← hbody]
  unfold refine?
  simp only [hbegins, if_true, Option.some.injEq]
  refine Roster.foldl_replace_eq_putAll ?_
  rw [hbody, ← Roster.map_empty (Pin.under cs), ← Roster.map_putAll (Pin.keepsNames_under cs),
    Roster.names_map (Pin.keepsNames_under cs), ← hheader, hnames]

/-- The names of the header `(a, b)`, refined by `input [3:0] a, b`, are the pins of the header
`(input [3:0] a, b)`. -/
theorem refine_ofText_vector :
    let text : Text := "input [3:0] a, b".toList
    let names : Roster Pin := (PinList.ofText "m" {} "a, b".toList).pins
    names.records = [Pin.bare "a" [], Pin.bare "b" []] ∧
    refine? names text [] = some ⟨[⟨"a", some .input, none, some "[3:0]", []⟩,
      ⟨"b", some .input, none, some "[3:0]", []⟩]⟩ := by
  intro text names
  let cols : Nat → Nat → Span := fun i j => ⟨⟨i, 1, i + 1⟩, ⟨j, 1, j + 1⟩⟩
  let vector : List Token := [⟨.symbol .openBracket, cols 6 7⟩, ⟨.number "3", cols 7 8⟩,
    ⟨.symbol .colon, cols 8 9⟩, ⟨.number "0", cols 9 10⟩, ⟨.symbol .closeBracket, cols 10 11⟩,
    ⟨.identifier "a", cols 12 13⟩]
  have hscan : Token.scan text = ⟨.keyword .input, cols 0 5⟩ :: (vector ++
      [⟨.symbol .comma, cols 13 14⟩, ⟨.identifier "b", cols 15 16⟩]) := by
    decide +kernel
  have hrefine := @refine_ofText text ⟨.keyword .input, cols 0 5⟩ vector
    [.declaration [⟨.identifier "b", cols 15 16⟩]] "m" {} [] names
    (by rw [hscan]; simp [vector]) (by rw [hscan]; rfl) rfl (by decide +kernel) (by decide +kernel)
  refine ⟨by decide +kernel, hrefine.trans ?_⟩
  decide +kernel

end PinDecl

end DesignAtlas
