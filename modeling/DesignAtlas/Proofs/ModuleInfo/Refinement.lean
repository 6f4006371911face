import DesignAtlas.ModuleInfo
import DesignAtlas.Proofs.Pin.Account

/-! # How the body of a module refines its pins

The pins of a module are those of its header, under the same names and in the same order. A
statement of the body states a pin (`Statement.states?`) when one of its runs declares it; it
refines the pins of the module when it stands outside tasks and functions, is not taken as a
declaration of parameters, and begins with a direction, but for commas (`Statement.refines`). A pin
is then what the last such statement states under its name, and otherwise what the header says
(`ModuleInfo.find?_pins_ofDecl`). -/

namespace DesignAtlas

open PinRun (all pattern? Apart)

/-! ### The pins that a statement states -/

namespace PinRun

/-- The pin that the run states under the conditions `cs`. A lone name states none before the first
declaration that says more. -/
def stated? (text : Text) (cs : List String) (r : PinRun) : Option Pin :=
  (r.decl? text).bind fun d =>
    (r.model? text).map fun m => ⟨d.name, m.direction, m.dataType, m.size, cs⟩

end PinRun

namespace PinDecl

/-- **The pins of items are those of the runs.** -/
theorem pinsOf_eq (text : Text) (cs : List String) {ts us : List Token} (hapart : Apart ts us) :
    pinsOf text cs ((pattern? text ts).map fun d => d.pin cs) (PinItem.ofTokens us) =
      (PinRun.allFrom ts us).filterMap (PinRun.stated? text cs) := by
  refine PinRun.reading_induction (motive := fun ts us =>
    pinsOf text cs ((pattern? text ts).map fun d => d.pin cs) (PinItem.ofTokens us) =
      (PinRun.allFrom ts us).filterMap (PinRun.stated? text cs))
        (fun ts => rfl) (fun ts t us ht ih => ?ender) (fun ts run us hts hne hrun hus ih => ?run)
          ts us hapart
  case ender =>
    have hskip : PinRun.allFrom ts (t :: us) = PinRun.allFrom (ts ++ [t]) us :=
      PinRun.allFrom_skip (by simp [ht])
    rw [hskip, ← ih, PinRun.pattern?_append_singleton ht]
    rcases PinItem.comma_or_directive ht with hp | ⟨d, hp⟩
    · rw [PinItem.ofTokens_comma hp]
    · rw [PinItem.ofTokens_directive hp, pinsOf]
  case run =>
    have hall := PinRun.all_append_run hts hne hrun
    have happ : Apart run us := fun _ _ u hu _ => hus u hu
    rw [PinItem.ofTokens_run hne hrun hus, PinRun.allFrom_append happ,
      PinRun.allFrom_run hts hne hrun, List.singleton_append, List.filterMap_cons, ← ih,
      PinRun.pattern?_append_run hall, pinsOf, PinRun.stated?, PinRun.decl?]
    cases hd : ofTokens? text run with
    | none => rfl
    | some d =>
      have hqualified := isQualified_iff hd
      simp only [Option.bind_some, Option.filter_some, PinRun.model?, PinRun.decl?, hd]
      -- a lone name is like the pattern and leaves it; any other declaration is the next pattern
      by_cases hlone : run.length = 1
      · rw [if_neg fun hq => hqualified.mp hq hlone, if_neg fun hq => hqualified.mp hq hlone,
          if_pos hlone, Option.none_or]
        cases pattern? text ts <;> rfl
      · rw [if_pos (hqualified.mpr hlone), if_pos (hqualified.mpr hlone), if_neg hlone,
          Option.some_or]
        rfl

/-- A statement begins with a direction when its first token that is no comma is one. -/
theorem beginsWithDirection_eq (ts : List Token) :
    beginsWithDirection (PinItem.ofTokens ts) =
      (ts.dropWhile (Token.isSymbol .comma)).head?.any fun t =>
        (Direction.ofPayload? t.payload).isSome := by
  induction ts with
  | nil => rfl
  | cons t ts ih =>
    by_cases hcomma : t.payload = .symbol .comma
    · have hsymbol : t.isSymbol .comma = true := by rw [Token.isSymbol, hcomma]; rfl
      rw [PinItem.ofTokens_comma hcomma, List.dropWhile_cons_of_pos hsymbol, ih]
    · have hsymbol : ¬ t.isSymbol .comma = true := fun h => hcomma (eq_of_beq h)
      rw [List.dropWhile_cons_of_neg hsymbol, List.head?_cons, Option.any_some]
      by_cases ht : t.joins = true
      · obtain ⟨run, rest, hts, hne, hrun, hrest⟩ := PinRun.exists_run ht ts
        rw [hts, PinItem.ofTokens_run hne hrun hrest]
        obtain ⟨u, us, rfl⟩ := List.exists_cons_of_ne_nil hne
        rw [(List.cons.inj hts).1]
        rfl
      · obtain ⟨d, hp⟩ := (PinItem.comma_or_directive (by simpa using ht)).resolve_left hcomma
        rw [PinItem.ofTokens_directive hp, hp]
        rfl

end PinDecl

namespace Statement

/-- The pins that the runs of the statement state. -/
def pins (s : Statement) : List Pin :=
  (all (Token.scan s.text)).filterMap (PinRun.stated? s.text s.conditionals)

/-- The pin of a name that the statement states last. -/
def states? (n : String) (s : Statement) : Option Pin := s.pins.reverse.find? fun x => x.name == n

/-- The statement is taken as a declaration of parameters. -/
def declaresParameters (o : Options) (s : Statement) : Bool :=
  (Parameter.ofStatement? o s.text).any fun d => d.rejected.isEmpty

/-- The first token of the statement that is no comma is a direction. -/
def beginsWithDirection (s : Statement) : Bool :=
  ((Token.scan s.text).dropWhile (Token.isSymbol .comma)).head?.any fun t =>
    (Direction.ofPayload? t.payload).isSome

/-- The statement refines the pins of its module. -/
def refines (o : Options) (s : Statement) : Bool :=
  !s.inSubprogram && !s.declaresParameters o && s.beginsWithDirection

end Statement

namespace PinDecl

theorem refine?_eq (pins : Roster Pin) (s : Statement) :
    refine? pins s.text s.conditionals =
      if s.beginsWithDirection then some (s.pins.foldl Roster.replace pins) else none := by
  have hpins := pinsOf_eq s.text s.conditionals (PinRun.apart_nil (Token.scan s.text))
  rw [refine?, beginsWithDirection_eq]
  exact if_congr Iff.rfl (congrArg (fun xs => some (xs.foldl Roster.replace pins)) hpins) rfl

end PinDecl

namespace ModuleInfo

theorem pins_addStatement (module : String) (o : Options) (c : Contents) (s : Statement) :
    (c.addStatement module o s).pins =
      if s.refines o then s.pins.foldl Roster.replace c.pins else c.pins := by
  have hother : ∀ c : Contents, (c.addOther o s).pins =
      if !s.inSubprogram && s.beginsWithDirection then s.pins.foldl Roster.replace c.pins
      else c.pins := by
    intro c
    have hinstance : (c.addInstance o s).pins = c.pins := by
      unfold Contents.addInstance
      cases Instance.ofStatement? o s <;> rfl
    unfold Contents.addOther
    rw [PinDecl.refine?_eq]
    cases s.inSubprogram with
    | true => exact hinstance
    | false =>
      cases s.beginsWithDirection with
      | true => rfl
      | false => exact hinstance
  unfold Contents.addStatement Statement.refines Statement.declaresParameters
  cases Parameter.ofStatement? o s.text with
  | none => simpa using hother c
  | some d =>
    by_cases hd : d.rejected.isEmpty = true
    · simp [hd, Contents.addParameters]
    · have hfalse : d.rejected.isEmpty = false := by simpa using hd
      simp only [hfalse, Option.any_some, Bool.not_false, Bool.and_true]
      rw [if_neg Bool.false_ne_true, hother]
      rfl

theorem pins_foldl (module : String) (o : Options) : ∀ (ss : List Statement) (c : Contents),
    (ss.foldl (Contents.addStatement module o) c).pins =
      ((ss.filter (Statement.refines o)).flatMap Statement.pins).foldl Roster.replace c.pins
  | [], _ => rfl
  | s :: ss, c => by
    rw [List.foldl_cons, pins_foldl, pins_addStatement, List.filter_cons]
    split_ifs
    · rw [List.flatMap_cons, List.foldl_append]
    · rfl

/-- **The body refines pins and does nothing else to them.** The module has the pins of its header,
under the same names and in the same order. Each is what the last statement says that refines pins
and states one of this name, and what the header says if there is none. -/
theorem find?_pins_ofDecl (file : String) (source : Text) (o : Options) (d : ModuleDecl) :
    (ofDecl file source o d).1.pins.names =
        (PinList.ofText d.name o (d.pinList source)).pins.names ∧
      (ofDecl file source o d).1.pins.names.Nodup ∧
      ∀ n, (ofDecl file source o d).1.pins.find? n =
        ((PinList.ofText d.name o (d.pinList source)).pins.find? n).map fun x =>
          (((Statement.ofBody o (d.body source)).filter (Statement.refines o)).reverse.findSome?
            (Statement.states? n)).getD x := by
  have hpins : (ofDecl file source o d).1.pins =
      (((Statement.ofBody o (d.body source)).filter (Statement.refines o)).flatMap
        Statement.pins).foldl Roster.replace (PinList.ofText d.name o (d.pinList source)).pins :=
    pins_foldl d.name o _ (headerContents source o d)
  rw [hpins, Roster.names_foldl_replace]
  refine ⟨rfl, ?_, fun n => ?_⟩
  · rw [(PinList.behind_ofText d.name o (d.pinList source)).pins]
    exact Roster.nodup_names_putAll (r := Roster.empty) List.nodup_nil _
  · rw [Roster.find?_foldl_replace, List.reverse_flatMap, List.find?_flatMap]
    rfl

/-- A comma in front is no item, so a statement whose first token is a comma can refine a pin. -/
theorem pins_refined_behind_comma :
    ∃ d ∈ ModuleDecl.ofSource "module m(a);,input a;endmodule".toList,
      (PinList.ofText d.name {} (d.pinList "module m(a);,input a;endmodule".toList)).pins.find? "a" =
          some (Pin.bare "a" []) ∧
        (ofDecl "m.v" "module m(a);,input a;endmodule".toList {} d).1.pins.find? "a" =
          some ⟨"a", some .input, none, none, []⟩ ∧
        ∀ s ∈ Statement.ofBody {} (d.body "module m(a);,input a;endmodule".toList),
          ((Token.scan s.text).head?.any fun t =>
            (Direction.ofPayload? t.payload).isSome) = false := by
  decide +kernel

end ModuleInfo

end DesignAtlas
