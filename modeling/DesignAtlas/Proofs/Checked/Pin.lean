import DesignAtlas.Pin.List
import DesignAtlas.Proofs.Checked.Bracket
import DesignAtlas.Proofs.Checked.Scan

/-! # Pin lists through checked accesses

Every declaration of a pin list is a run of tokens that follow one another (`infix_of_declaration`),
so its source text is sliced without a fault, and so are the ranges in it. The pins of a header
(`pinList_eq`) and of a statement of the body (`refine_eq`) are read as they are without checks. -/

namespace DesignAtlas

/-! ### Runs between commas -/

namespace PinItem

/-- The unfinished run begins the tokens, and the declarations behind it are runs of them. -/
structure Within (ts : List Token) (s : List Token × List PinItem) : Prop where
  run : s.1 <+: ts
  items : ∀ run, .declaration run ∈ s.2 → run <:+: ts

theorem Within.finish {ts : List Token} {s : List Token × List PinItem} (h : Within ts s)
    {run : List Token} (hrun : .declaration run ∈ ofRun s.1 ++ s.2) : run <:+: ts := by
  rcases List.mem_append.mp hrun with hr | hr
  · unfold ofRun at hr
    split at hr
    · cases hr
    · cases List.mem_singleton.mp hr
      exact h.run.isInfix
  · exact h.items run hr

theorem Within.step {ts : List Token} {s : List Token × List PinItem} (h : Within ts s)
    (t : Token) : Within (t :: ts) (PinItem.step t s) := by
  unfold PinItem.step
  split
  · exact ⟨List.nil_prefix, fun _ hr => List.infix_cons (h.finish hr)⟩
  · refine ⟨List.nil_prefix, fun _ hr => List.infix_cons (h.finish ?_)⟩
    simpa using hr
  · exact ⟨List.cons_prefix_cons.mpr ⟨rfl, h.run⟩, fun run hr => List.infix_cons (h.items run hr)⟩

theorem within_foldr (ts : List Token) : Within ts (ts.foldr step ([], [])) := by
  induction ts with
  | nil => exact ⟨List.nil_prefix, fun _ hr => nomatch hr⟩
  | cons t ts ih => exact ih.step t

/-- **The tokens of a declaration follow one another.** -/
theorem infix_of_declaration {ts run : List Token} (h : .declaration run ∈ ofTokens ts) :
    run <:+: ts := (within_foldr ts).finish h

end PinItem

theorem Token.takeWord_suffix (accept : String → List Token → Bool) (ts : List Token) :
    (takeWord accept ts).2 <:+ ts := by
  unfold takeWord
  split
  · exact List.suffix_refl _
  · split
    · split
      · exact List.suffix_cons _ _
      · exact List.suffix_refl _
    · exact List.suffix_refl _

theorem PinDecl.takeDirection_suffix (ts : List Token) : (takeDirection ts).2 <:+ ts := by
  unfold takeDirection
  split
  · exact List.suffix_refl _
  · split
    · exact List.suffix_cons _ _
    · exact List.suffix_refl _

namespace Checked

/-! ### Declarations -/

/-- Reads a run of tokens of the text as a declaration. -/
def pinDecl (text : Text) (ts : List Token) : Except Fault (Option PinDecl) := do
  let direction := PinDecl.takeDirection ts
  let type := Token.takeWord PinDecl.isType direction.2
  let signing := Token.takeWord (fun w _ => isSigning w) type.2
  match ← popRanges text ts (ts.length - signing.2.length) [] with
  | none => return none
  | some (size, i) =>
    match (ts[i]?).bind Token.identifier? with
    | some name =>
      if i + 1 = ts.length then
        return some ⟨direction.1, typeText (type.1 ++ signing.1), rangeText size, name⟩
      else return none
    | none => return none

theorem pinDecl_eq {text : Text} {ts : List Token} (h : ts <:+: Token.scan text) :
    pinDecl text ts = .ok (PinDecl.ofTokens? text ts) := by
  unfold pinDecl PinDecl.ofTokens?
  simp only
  set direction := PinDecl.takeDirection ts
  set type := Token.takeWord PinDecl.isType direction.2
  set signing := Token.takeWord (fun w _ => isSigning w) type.2
  have hs : signing.2 <:+ ts := (Token.takeWord_suffix ..).trans
    ((Token.takeWord_suffix ..).trans (PinDecl.takeDirection_suffix ts))
  rw [popRanges_suffix h hs, ok_bind]
  rcases hr : Token.takeRanges? 0 signing.2 with _ | ⟨ranges, rest⟩
  · rfl
  · obtain ⟨hranges, hsuf⟩ := infix_of_takeRanges? h hs hr
    have hlen := hsuf.length_le
    simp only [Option.map_some, ← List.head?_drop, ← List.suffix_iff_eq_drop.mp hsuf,
      rangeText_eq hranges]
    -- the name must be the only token behind the ranges
    match rest with
    | [] => rfl
    | [t] =>
      rw [List.length_singleton] at hlen
      simp only [List.head?_cons, Option.bind_some, List.length_singleton,
        if_pos (Nat.sub_add_cancel hlen)]
      cases t.identifier? <;> rfl
    | t :: u :: us =>
      simp only [List.length_cons] at hlen
      have hne : ts.length - (us.length + 1 + 1) + 1 ≠ ts.length := by omega
      simp only [List.head?_cons, Option.bind_some, List.length_cons, if_neg hne]
      cases t.identifier? <;> rfl

/-! ### The list in the header -/

/-- The source text of an item, empty for a directive. -/
def itemText (text : Text) : PinItem → Except Fault Text
  | .directive _ => .ok []
  | .declaration ts => runText text ts

/-- The items of a pin list, each with its source text. -/
def pinItems (text : Text) : Except Fault (List (PinItem × Text)) := do
  (PinItem.ofTokens (← scan text)).mapM fun item => do return (item, ← itemText text item)

/-- Reads one more item. -/
def pinStep (module : String) (text : Text) (s : PinList) : PinItem × Text → Except Fault PinList
  | (.directive d, _) => .ok (s.stepDirective module d)
  | (.declaration ts, source) => do
    match ← pinDecl text ts with
    | some d => return s.stepDecl d
    | none =>
      let unknown := String.ofList (Text.collapse source)
      return { s with diagnostics := s.diagnostics ++ [⟨.unrecognizedPin, module, unknown⟩] }

/-- Reads the pin list of a module. -/
def pinList (module : String) (o : Options) (text : Text) : Except Fault PinList := do
  (← pinItems text).foldlM (pinStep module text)
    ⟨ConditionStack.empty o.elsePolicy, none, Roster.empty, []⟩

/-- The source text of an item of the text. -/
def sourceText (text : Text) : PinItem → Text
  | .directive _ => []
  | .declaration ts => Token.sourceOf text ts

theorem pinItems_eq (text : Text) :
    pinItems text =
      .ok ((PinItem.ofTokens (Token.scan text)).map fun item => (item, sourceText text item)) := by
  unfold pinItems
  rw [scan_eq, ok_bind]
  refine mapM_eq_ok fun item hitem => ?_
  cases item with
  | directive d => rfl
  | declaration ts =>
    rw [itemText, runText_eq (PinItem.infix_of_declaration hitem)]
    rfl

theorem pinStep_eq {text : Text} {item : PinItem}
    (h : item ∈ PinItem.ofTokens (Token.scan text)) (module : String) (s : PinList) :
    pinStep module text s (item, sourceText text item) = .ok (PinList.step module text s item) := by
  cases item with
  | directive d => rfl
  | declaration ts =>
    rw [pinStep, PinList.step, pinDecl_eq (PinItem.infix_of_declaration h), ok_bind]
    cases PinDecl.ofTokens? text ts <;> rfl

/-- **The pins of a header are read without a fault.** -/
theorem pinList_eq (module : String) (o : Options) (text : Text) :
    pinList module o text = .ok (PinList.ofText module o text) := by
  unfold pinList PinList.ofText
  rw [pinItems_eq, ok_bind, List.foldlM_map]
  exact foldlM_eq_ok _ fun s item hitem => pinStep_eq hitem module s

/-! ### Declarations in the body -/

/-- The pins that the items of a body declaration state. -/
def pinsOf (text : Text) (conditionals : List String) :
    Option Pin → List PinItem → Except Fault (List Pin)
  | _, [] => .ok []
  | pattern, .directive _ :: items => pinsOf text conditionals pattern items
  | pattern, .declaration ts :: items => do
    match ← pinDecl text ts with
    | none => pinsOf text conditionals pattern items
    | some d =>
      if d.isQualified then
        return d.pin conditionals ::
          (← pinsOf text conditionals (some (d.pin conditionals)) items)
      else
        match pattern with
        | some p =>
          return p.renamed d.name conditionals :: (← pinsOf text conditionals pattern items)
        | none => pinsOf text conditionals pattern items

/-- The pins after a statement of the body that declares some of them. -/
def refine (pins : Roster Pin) (statement : Text) (conditionals : List String) :
    Except Fault (Option (Roster Pin)) := do
  let items := (← pinItems statement).map Prod.fst
  if PinDecl.beginsWithDirection items then
    return some ((← pinsOf statement conditionals none items).foldl Roster.replace pins)
  else return none

theorem pinsOf_eq {text : Text} (conditionals : List String) : ∀ {items : List PinItem},
    (∀ run, .declaration run ∈ items → run <:+: Token.scan text) → ∀ pattern : Option Pin,
      pinsOf text conditionals pattern items = .ok (PinDecl.pinsOf text conditionals pattern items)
  | [], _, _ => rfl
  | .directive _ :: items, h, pattern =>
    pinsOf_eq conditionals (fun run hr => h run (List.mem_cons_of_mem _ hr)) pattern
  | .declaration ts :: items, h, pattern => by
    have hitems : ∀ run, .declaration run ∈ items → run <:+: Token.scan text :=
      fun run hr => h run (List.mem_cons_of_mem _ hr)
    unfold pinsOf PinDecl.pinsOf
    rw [pinDecl_eq (h ts (by simp)), ok_bind]
    simp only [pinsOf_eq conditionals hitems, ok_bind]
    cases PinDecl.ofTokens? text ts with
    | none => rfl
    | some d =>
      simp only
      split_ifs
      · rfl
      · cases pattern <;> rfl

/-- **The pins that a statement states are read without a fault.** -/
theorem refine_eq (pins : Roster Pin) (statement : Text) (conditionals : List String) :
    refine pins statement conditionals = .ok (PinDecl.refine? pins statement conditionals) := by
  unfold refine PinDecl.refine?
  rw [pinItems_eq, ok_bind]
  simp only [List.map_map, Function.comp_def, List.map_id']
  split_ifs
  · rw [pinsOf_eq conditionals fun run hr => PinItem.infix_of_declaration hr]
    rfl
  · rfl

end Checked

end DesignAtlas
