import DesignAtlas.ModuleInfo
import DesignAtlas.Proofs.Condition.Depth
import DesignAtlas.Proofs.Roster.Map

/-! # Modules without the texts of their conditions

Two runs under different else policies are compared through fading: a faded list of conditions keeps
its length and forgets its texts. Stacks of one depth have the same faded snapshot
(`faded_snapshot_congr`), and every reader of a pin list, of a body and of its statements commutes
with fading. So a declaration read under two policies gives modules that are the same when faded,
and the same diagnostics (`fade_ofDecl`). -/

namespace DesignAtlas

/-! ### Fading -/

/-- As many conditions, without their texts. -/
def faded (cs : List String) : List String := List.replicate cs.length ""

@[simp] theorem length_faded (cs : List String) : (faded cs).length = cs.length := by simp [faded]

theorem faded_snapshot (s : ConditionStack) : faded s.snapshot = List.replicate s.depth "" := by
  simp [faded, ConditionStack.snapshot, ConditionStack.depth]

theorem faded_snapshot_congr {s s' : ConditionStack} (h : s.depth = s'.depth) :
    faded s.snapshot = faded s'.snapshot := by
  rw [faded_snapshot, faded_snapshot, h]

namespace Pin

/-- The pin with its conditions faded. -/
def fade (p : Pin) : Pin := { p with conditionals := faded p.conditionals }

theorem keepsNames_fade : Roster.KeepsNames fade := fun _ => rfl

end Pin

/-- The instance with its conditions faded. -/
def Instance.fade (i : Instance) : Instance := { i with conditionals := faded i.conditionals }

/-- The fragment with its conditions faded. -/
def Fragment.fade (f : Fragment) : Fragment := { f with conditionals := faded f.conditionals }

/-- The statement with its conditions faded. -/
def Statement.fade (s : Statement) : Statement := { s with conditionals := faded s.conditionals }

namespace ModuleInfo

/-- The module with all its conditions faded. -/
def fade (m : ModuleInfo) : ModuleInfo :=
  { m with pins := m.pins.map Pin.fade, instances := m.instances.map Instance.fade }

theorem keepsNames_fade : Roster.KeepsNames fade := fun _ => rfl

/-- The contents with all their conditions faded. -/
def Contents.fade (c : Contents) : Contents :=
  { c with pins := c.pins.map Pin.fade, instances := c.instances.map Instance.fade }

end ModuleInfo

/-! ### The policy among the options -/

/-- The options with the else policy `p`. -/
def Options.withElse (o : Options) (p : ElsePolicy) : Options := { o with elsePolicy := p }

section Policy

variable (o : Options) (p q : ElsePolicy)

namespace Parameter

theorem afterKeyword?_withElse (segment : List Token) :
    afterKeyword? (o.withElse p) segment = afterKeyword? o segment := rfl

theorem outcomes_withElse (text : Text) : ∀ (ss : List (List Token))
    (inherited : Option (Option String)),
    outcomes text (o.withElse p) inherited ss = outcomes text o inherited ss
  | [], _ => rfl
  | s :: ss, inherited => by
    have hs : ofSegment? text (o.withElse p) inherited s = ofSegment? text o inherited s := rfl
    rw [outcomes, outcomes, hs]
    cases ofSegment? text o inherited s with
    | none => simp only [outcomes_withElse text ss]
    | some q => simp only [outcomes_withElse text ss]

theorem declaredBy_withElse (text : Text) (ss : List (List Token)) :
    declaredBy (o.withElse p) text ss = declaredBy o text ss := by
  unfold declaredBy
  rw [outcomes_withElse]

theorem ofStatement?_withElse (text : Text) :
    ofStatement? (o.withElse p) text = ofStatement? o text := by
  unfold ofStatement?
  simp only [afterKeyword?_withElse, declaredBy_withElse]

end Parameter

/-! ### The pin list -/

namespace PinList

theorem fade_pinOf (pattern : Option Pin) (cs : List String) (d : PinDecl) :
    (pinOf pattern cs d).fade = pinOf (pattern.map Pin.fade) (faded cs) d := by
  unfold pinOf
  split_ifs
  · rfl
  · cases pattern <;> rfl

/-- Two pin lists read so far that differ at most in the texts of conditions. -/
structure Alike (s s' : PinList) : Prop where
  depth : s.stack.depth = s'.stack.depth
  pattern : s.pattern.map Pin.fade = s'.pattern.map Pin.fade
  pins : s.pins.map Pin.fade = s'.pins.map Pin.fade
  diagnostics : s.diagnostics = s'.diagnostics

variable {s s' : PinList}

theorem Alike.stepDirective (h : Alike s s') (module : String) (d : Directive) :
    Alike (s.stepDirective module d) (s'.stepDirective module d) where
  depth := ConditionStack.depth_advance_congr h.depth d
  pattern := h.pattern
  pins := h.pins
  diagnostics := by
    simp only [PinList.stepDirective, ConditionStack.rejects_congr h.depth, h.diagnostics]

theorem Alike.stepDecl (h : Alike s s') (d : PinDecl) : Alike (s.stepDecl d) (s'.stepDecl d) := by
  have hpin : (pinOf s.pattern s.stack.snapshot d).fade =
      (pinOf s'.pattern s'.stack.snapshot d).fade := by
    rw [fade_pinOf, fade_pinOf, h.pattern, faded_snapshot_congr h.depth]
  refine ⟨h.depth, ?_, ?_, h.diagnostics⟩
  · simp only [PinList.stepDecl]
    split_ifs
    · exact congrArg some hpin
    · exact h.pattern
  · simp only [PinList.stepDecl]
    rw [Roster.map_put Pin.keepsNames_fade, Roster.map_put Pin.keepsNames_fade, h.pins, hpin]

theorem Alike.step (h : Alike s s') (module : String) (text : Text) (item : PinItem) :
    Alike (s.step module text item) (s'.step module text item) := by
  cases item with
  | directive d => exact h.stepDirective module d
  | declaration ts =>
    simp only [PinList.step]
    cases PinDecl.ofTokens? text ts with
    | some d => exact h.stepDecl d
    | none =>
      refine ⟨h.depth, h.pattern, h.pins, ?_⟩
      simp only [PinList.stepUnknown, h.diagnostics]

theorem Alike.foldl (module : String) (text : Text) : ∀ (items : List PinItem) {s s' : PinList},
    Alike s s' → Alike (items.foldl (PinList.step module text) s)
      (items.foldl (PinList.step module text) s')
  | [], _, _, h => h
  | item :: items, _, _, h => Alike.foldl module text items (h.step module text item)

theorem alike_ofText (module : String) (text : Text) :
    Alike (ofText module (o.withElse p) text) (ofText module (o.withElse q) text) :=
  Alike.foldl module text _ ⟨rfl, rfl, rfl, rfl⟩

end PinList

namespace PinDecl

theorem fade_pinsOf (text : Text) (cs : List String) : ∀ (items : List PinItem)
    (pattern : Option Pin), (pinsOf text cs pattern items).map Pin.fade =
      pinsOf text (faded cs) (pattern.map Pin.fade) items
  | [], _ => rfl
  | .directive _ :: items, pattern => by
    rw [pinsOf, pinsOf, fade_pinsOf text cs items]
  | .declaration ts :: items, pattern => by
    have ih := fade_pinsOf text cs items
    rw [pinsOf, pinsOf]
    cases ofTokens? text ts with
    | none => exact ih pattern
    | some d =>
      simp only
      split_ifs
      · rw [List.map_cons, ih]
        rfl
      · cases pattern with
        | none => exact ih none
        | some p => simp only [List.map_cons, ih]; rfl

theorem fade_refine? (pins : Roster Pin) (text : Text) (cs : List String) :
    (refine? pins text cs).map (Roster.map Pin.fade) =
      refine? (pins.map Pin.fade) text (faded cs) := by
  have hfold : ∀ (ps : List Pin) (r : Roster Pin), (ps.foldl Roster.replace r).map Pin.fade =
      (ps.map Pin.fade).foldl Roster.replace (r.map Pin.fade) := by
    intro ps
    induction ps with
    | nil => exact fun _ => rfl
    | cons x ps ih =>
      intro r
      rw [List.foldl_cons, ih, Roster.map_replace Pin.keepsNames_fade]
      rfl
  have hnone : Option.map Pin.fade none = none := rfl
  unfold refine?
  simp only
  split_ifs
  · rw [Option.map_some, hfold, fade_pinsOf, hnone]
  · rfl

end PinDecl

/-! ### The statements of a body -/

theorem Fragment.fade_ofPieces : ∀ (ps : List Piece) {s s' : ConditionStack}
    {begun begun' : Option (List String)} (read : Text), s.depth = s'.depth →
      begun.map faded = begun'.map faded →
      (ofPieces s begun read ps).map fade = (ofPieces s' begun' read ps).map fade
  | ps, s, s', begun, begun', read, hd, hb => by
    -- a fragment that ends here has the conditions it began with, or those open now
    have hnow : faded (begun.getD s.snapshot) = faded (begun'.getD s'.snapshot) := by
      cases begun with
      | none =>
        cases begun' with
        | none => exact faded_snapshot_congr hd
        | some _ => cases hb
      | some _ =>
        cases begun' with
        | none => cases hb
        | some _ => exact Option.some.inj hb
    have hlast : fade ⟨read.reverse, begun.getD s.snapshot⟩ =
        fade ⟨read.reverse, begun'.getD s'.snapshot⟩ := by
      unfold fade
      rw [hnow]
    have hsome : begun.isNone = begun'.isNone := by
      have := congrArg Option.isNone hb
      rwa [Option.isNone_map, Option.isNone_map] at this
    cases ps with
    | nil => simp only [ofPieces, List.map_cons, List.map_nil, hlast]
    | cons piece ps =>
      cases piece with
      | directive d =>
        exact fade_ofPieces ps read (ConditionStack.depth_advance_congr hd d) hb
      | char c =>
        rw [ofPieces, ofPieces, hsome]
        split_ifs
        · rw [List.map_cons, List.map_cons, hlast, fade_ofPieces ps [] hd rfl]
        · exact fade_ofPieces ps (c :: read) hd (congrArg some (faded_snapshot_congr hd))
        · exact fade_ofPieces ps (c :: read) hd hb

namespace Statement

theorem fade_ofFragments : ∀ (fs : List Fragment) (depth : Nat),
    (ofFragments depth fs).map fade = ofFragments depth (fs.map Fragment.fade)
  | [], _ => rfl
  | f :: fs, depth => by
    rw [ofFragments, List.map_cons, List.map_cons, ofFragments, fade_ofFragments fs]
    rfl

theorem fade_ofBody (body : Text) :
    (ofBody (o.withElse p) body).map fade = (ofBody (o.withElse q) body).map fade := by
  unfold ofBody
  rw [fade_ofFragments, fade_ofFragments]
  exact congrArg _ (Fragment.fade_ofPieces _ [] rfl rfl)

theorem bodyDiagnostics_withElse (module : String) (body : Text) :
    bodyDiagnostics module (o.withElse p) body = bodyDiagnostics module (o.withElse q) body := by
  have hempty : (ConditionStack.empty p).depth = (ConditionStack.empty q).depth := rfl
  unfold bodyDiagnostics
  exact congrArg _ (ConditionStack.rejected_congr hempty _)

end Statement

theorem Instance.fade_ofStatement? (s : Statement) :
    (ofStatement? (o.withElse p) s).map fade = ofStatement? o s.fade := by
  unfold ofStatement?
  have htext : s.fade.text = s.text := rfl
  have hreserved : ∀ w, (o.withElse p).isReserved w = o.isReserved w := fun _ => rfl
  rw [htext]
  split
  · simp only [hreserved]
    split_ifs
    · rfl
    · rw [Option.map_map]
      rfl
  · rfl

/-! ### Modules -/

namespace ModuleInfo

namespace Contents

theorem fade_addInstance (s : Statement) (c : Contents) :
    (c.addInstance (o.withElse p) s).fade = c.fade.addInstance o s.fade := by
  have h := Instance.fade_ofStatement? o p s
  unfold addInstance
  rw [← h]
  cases Instance.ofStatement? (o.withElse p) s with
  | none => rfl
  | some i => simp [fade]

theorem fade_addOther (s : Statement) (c : Contents) :
    (c.addOther (o.withElse p) s).fade = c.fade.addOther o s.fade := by
  have hin : s.fade.inSubprogram = s.inSubprogram := rfl
  unfold addOther
  rw [hin]
  split_ifs
  · exact fade_addInstance o p s c
  · have h := PinDecl.fade_refine? c.pins s.text s.conditionals
    have hrefine : PinDecl.refine? c.fade.pins s.fade.text s.fade.conditionals =
        (PinDecl.refine? c.pins s.text s.conditionals).map (Roster.map Pin.fade) := h.symm
    rw [hrefine]
    cases PinDecl.refine? c.pins s.text s.conditionals with
    | none => exact fade_addInstance o p s c
    | some pins => rfl

theorem fade_addStatement (module : String) (s : Statement) (c : Contents) :
    (c.addStatement module (o.withElse p) s).fade = c.fade.addStatement module o s.fade := by
  have htext : s.fade.text = s.text := rfl
  unfold addStatement
  rw [Parameter.ofStatement?_withElse, htext]
  cases Parameter.ofStatement? o s.text with
  | none => exact fade_addOther o p s c
  | some d =>
    simp only
    split_ifs
    · rfl
    · exact fade_addOther o p s _

theorem fade_foldl_addStatement (module : String) : ∀ (ss : List Statement) (c : Contents),
    (ss.foldl (addStatement module (o.withElse p)) c).fade =
      (ss.map Statement.fade).foldl (addStatement module o) c.fade
  | [], _ => rfl
  | s :: ss, c => by
    rw [List.foldl_cons, fade_foldl_addStatement module ss, fade_addStatement]
    rfl

end Contents

theorem fade_headerContents (source : Text) (d : ModuleDecl) :
    (headerContents source (o.withElse p) d).fade =
      (headerContents source (o.withElse q) d).fade := by
  have hpins := PinList.alike_ofText o p q d.name (d.pinList source)
  have hblock : ∀ (r : ElsePolicy) (t : Text),
      Parameter.ofBlock (o.withElse r) t = Parameter.ofBlock o t := fun r t =>
    Parameter.declaredBy_withElse o r t _
  unfold headerContents Contents.fade
  simp only [hblock, hpins.pins, hpins.diagnostics,
    Statement.bodyDiagnostics_withElse o p q d.name (d.body source)]

theorem fade_contents (source : Text) (d : ModuleDecl) :
    (contents source (o.withElse p) d).fade = (contents source (o.withElse q) d).fade := by
  unfold contents
  rw [Contents.fade_foldl_addStatement, Contents.fade_foldl_addStatement,
    Statement.fade_ofBody o p q, fade_headerContents o p q]

/-- **A module read under two policies** differs in the texts of conditions only. -/
theorem fade_ofDecl (file : String) (source : Text) (d : ModuleDecl) :
    Prod.map fade id (ofDecl file source (o.withElse p) d) =
      Prod.map fade id (ofDecl file source (o.withElse q) d) := by
  have h := fade_contents o p q source d
  have hpins : (contents source (o.withElse p) d).pins.map Pin.fade =
      (contents source (o.withElse q) d).pins.map Pin.fade := congrArg Contents.pins h
  have hparameters := congrArg Contents.parameters h
  have hinstances : (contents source (o.withElse p) d).instances.map Instance.fade =
      (contents source (o.withElse q) d).instances.map Instance.fade :=
    congrArg Contents.instances h
  have hdiagnostics := congrArg Contents.diagnostics h
  simp only [Contents.fade] at hparameters hdiagnostics
  simp only [ofDecl, Prod.map, fade, hpins, hparameters, hinstances, hdiagnostics, id]

end ModuleInfo

end Policy

end DesignAtlas
