import DesignAtlas.Proofs.Checked.Pin
import DesignAtlas.Proofs.Pin.Items
import DesignAtlas.Proofs.Roster.Distinct
import DesignAtlas.Proofs.Token.Tidy

/-! # The texts of pins are normal

A pin read from any text has no blanks in its name and its size, at most one space in its type, and
conditions that are directives (`Pin.Normal`). A declaration is read from tidy tokens
(`PinDecl.normal_of_ofTokens?`), each item of a header keeps what has been read normal
(`PinList.Normal.step`), and so does a statement of the body (`PinDecl.normal_of_refine?`). -/

namespace DesignAtlas

/-- What a pin declaration says is normal. -/
structure PinDecl.Normal (d : PinDecl) : Prop where
  name : Unbroken d.name
  dataType : ∀ t ∈ d.dataType, Phrase t
  size : ∀ s ∈ d.size, Unbroken s

/-- The name and the size of a pin have no blanks, its type at most one space. -/
structure Pin.Normal (p : Pin) : Prop where
  name : Unbroken p.name
  dataType : ∀ t ∈ p.dataType, Phrase t
  size : ∀ s ∈ p.size, Unbroken s
  conditionals : ∀ c ∈ p.conditionals, IsCondition c

/-! ### Words and ranges at the front of tokens -/

namespace Token

variable {ts : List Token}

theorem length_takeWord_le (accept : String → List Token → Bool) (ts : List Token) :
    (takeWord accept ts).1.length ≤ 1 := by
  unfold takeWord
  split
  · exact Nat.zero_le 1
  · split
    · split <;> simp
    · exact Nat.zero_le 1

theorem unbroken_of_mem_takeWord (h : AllTidy ts) (accept : String → List Token → Bool) :
    ∀ w ∈ (takeWord accept ts).1, Unbroken w := by
  intro w hw
  unfold takeWord at hw
  split at hw
  · cases hw
  · rename_i t ts
    split at hw
    · rename_i v hv
      split at hw
      · rw [List.mem_singleton.mp hw]
        exact unbroken_of_identifier? (h t List.mem_cons_self) hv
      · cases hw
    · cases hw

theorem AllTidy.of_takeWord (h : AllTidy ts) (accept : String → List Token → Bool) :
    AllTidy (takeWord accept ts).2 := h.of_run (takeWord_suffix accept ts).isInfix

/-- **The type in front of ranges and a name** is a phrase. -/
theorem phrase_takeWord (h : AllTidy ts) (first second : String → List Token → Bool) :
    ∀ s ∈ typeText ((takeWord first ts).1 ++ (takeWord second (takeWord first ts).2).1),
      Phrase s := by
  refine phrase_typeText (length_takeWord_le ..) (length_takeWord_le ..) fun w hw => ?_
  rcases List.mem_append.mp hw with hw | hw
  · exact unbroken_of_mem_takeWord h _ w hw
  · exact unbroken_of_mem_takeWord (h.of_takeWord first) _ w hw

theorem unbroken_rangeText (text : Text) (ranges : List Token) :
    ∀ s ∈ rangeText text ranges, Unbroken s := by
  intro s hs
  unfold rangeText at hs
  split at hs
  · cases hs
  · cases hs
    exact unbroken_squeeze _

theorem AllTidy.of_takeRanges? {depth : Nat} {ranges rest : List Token} (h : AllTidy ts)
    (hr : takeRanges? depth ts = some (ranges, rest)) : AllTidy rest :=
  h.of_run (List.IsSuffix.isInfix ⟨ranges, takeRanges?_append hr⟩)

end Token

open Token (AllTidy)

/-! ### Pins -/

namespace PinDecl

variable {text : Text} {ts : List Token} {d : PinDecl} {cs : List String}

/-- **A declaration read from tidy tokens is normal.** -/
theorem normal_of_ofTokens? (h : AllTidy ts) (hd : ofTokens? text ts = some d) : d.Normal := by
  have hbehind : AllTidy (takeDirection ts).2 := h.of_run (takeDirection_suffix ts).isInfix
  unfold ofTokens? at hd
  simp only at hd
  split at hd
  · rename_i ranges t hranges
    obtain ⟨name, hname, rfl⟩ := Option.map_eq_some_iff.mp hd
    have hrest := ((hbehind.of_takeWord _).of_takeWord _).of_takeRanges? hranges
    have hlast := hrest t List.mem_cons_self
    exact ⟨Token.unbroken_of_identifier? hlast hname, Token.phrase_takeWord hbehind _ _,
      Token.unbroken_rangeText text ranges⟩
  · cases hd

theorem Normal.pin (h : d.Normal) (hcs : ∀ c ∈ cs, IsCondition c) : (d.pin cs).Normal :=
  ⟨h.name, h.dataType, h.size, hcs⟩

end PinDecl

theorem Pin.Normal.renamed {p : Pin} {name : String} {cs : List String} (h : p.Normal)
    (hname : Unbroken name) (hcs : ∀ c ∈ cs, IsCondition c) : (p.renamed name cs).Normal :=
  ⟨hname, h.dataType, h.size, hcs⟩

theorem Pin.normal_bare {name : String} {cs : List String} (hname : Unbroken name)
    (hcs : ∀ c ∈ cs, IsCondition c) : (bare name cs).Normal :=
  ⟨hname, (fun _ h => nomatch h), (fun _ h => nomatch h), hcs⟩

/-- A directive or the tokens of a declaration, from tidy tokens. -/
def PinItem.Tidy : PinItem → Prop
  | .directive d => d.Tidy
  | .declaration ts => AllTidy ts

theorem PinItem.tidy_of_mem_ofTokens {ts : List Token} (h : AllTidy ts) :
    ∀ item ∈ ofTokens ts, item.Tidy := by
  intro item hitem
  cases item with
  | directive d =>
    obtain ⟨t, ht, hp⟩ := exists_of_directive hitem
    have := h t ht
    rwa [hp] at this
  | declaration run => exact h.of_run (infix_of_declaration hitem)

namespace PinList

/-- The conditions, the pattern and the pins read so far are normal. -/
structure Normal (s : PinList) : Prop where
  stack : s.stack.Tidy
  pattern : ∀ p ∈ s.pattern, p.Normal
  pins : ∀ p ∈ s.pins.records, p.Normal

theorem normal_pinOf {pattern : Option Pin} (h : ∀ p ∈ pattern, p.Normal) {cs : List String}
    (hcs : ∀ c ∈ cs, IsCondition c) {d : PinDecl} (hd : d.Normal) :
    (pinOf pattern cs d).Normal := by
  unfold pinOf
  split
  · exact hd.pin hcs
  · split
    · exact (h _ rfl).renamed hd.name hcs
    · exact Pin.normal_bare hd.name hcs

/-- **One item keeps a pin list normal.** -/
theorem Normal.step {s : PinList} (h : s.Normal) (module : String) (text : Text) {item : PinItem}
    (hitem : item.Tidy) : (s.step module text item).Normal := by
  cases item with
  | directive d => exact ⟨h.stack.advance hitem, h.pattern, h.pins⟩
  | declaration ts =>
    unfold PinList.step
    simp only
    cases hd : PinDecl.ofTokens? text ts with
    | none => exact ⟨h.stack, h.pattern, h.pins⟩
    | some d =>
      have hpin := normal_pinOf h.pattern
        (ConditionStack.isCondition_of_mem_snapshot h.stack) (PinDecl.normal_of_ofTokens? hitem hd)
      refine ⟨h.stack, fun p hp => ?_, fun p hp => ?_⟩
      · unfold stepDecl at hp
        dsimp only at hp
        split_ifs at hp
        · cases hp
          exact hpin
        · exact h.pattern p hp
      · rcases Roster.mem_put hp with rfl | hp
        · exact hpin
        · exact h.pins p hp

theorem Normal.foldl (module : String) (text : Text) : ∀ (items : List PinItem) {s : PinList},
    (∀ item ∈ items, item.Tidy) → s.Normal → (items.foldl (PinList.step module text) s).Normal
  | [], _, _, h => h
  | item :: items, _, hitems, h =>
    Normal.foldl module text items (fun i hi => hitems i (List.mem_cons_of_mem item hi))
      (h.step module text (hitems item List.mem_cons_self))

/-- **The pins of a header are normal.** -/
theorem normal_ofText (module : String) (o : Options) (text : Text) :
    (ofText module o text).Normal := by
  refine Normal.foldl module text _ (PinItem.tidy_of_mem_ofTokens (Token.allTidy_scan text))
    ⟨ConditionStack.tidy_empty _, ?_, ?_⟩
  · exact fun _ hp => nomatch hp
  · exact fun _ hp => nomatch hp

end PinList

namespace PinDecl

variable {cs : List String}

theorem normal_of_mem_pinsOf (text : Text) (hcs : ∀ c ∈ cs, IsCondition c) :
    ∀ (items : List PinItem) {pattern : Option Pin}, (∀ item ∈ items, item.Tidy) →
      (∀ p ∈ pattern, p.Normal) → ∀ p ∈ pinsOf text cs pattern items, p.Normal
  | [], _, _, _ => fun _ hp => nomatch hp
  | .directive _ :: items, _, hitems, h =>
    normal_of_mem_pinsOf text hcs items (fun i hi => hitems i (List.mem_cons_of_mem _ hi)) h
  | .declaration ts :: items, pattern, hitems, h => by
    have ih := @normal_of_mem_pinsOf text hcs items
    have hrest : ∀ item ∈ items, item.Tidy := fun i hi => hitems i (List.mem_cons_of_mem _ hi)
    rw [pinsOf]
    cases hd : ofTokens? text ts with
    | none => exact ih hrest h
    | some d =>
      have hnormal := normal_of_ofTokens? (hitems _ List.mem_cons_self) hd
      simp only
      split_ifs
      · have hpin := hnormal.pin hcs
        refine List.forall_mem_cons.mpr ⟨hpin, ih hrest fun p hp => ?_⟩
        cases hp
        exact hpin
      · cases pattern with
        | none => exact ih hrest h
        | some q =>
          exact List.forall_mem_cons.mpr ⟨(h q rfl).renamed hnormal.name hcs, ih hrest h⟩

/-- **A statement of the body keeps pins normal.** -/
theorem normal_of_refine? {pins refined : Roster Pin} {text : Text}
    (hcs : ∀ c ∈ cs, IsCondition c) (h : ∀ p ∈ pins.records, p.Normal)
    (hr : refine? pins text cs = some refined) : ∀ p ∈ refined.records, p.Normal := by
  have hfold : ∀ (ps : List Pin) (r : Roster Pin), (∀ p ∈ ps, p.Normal) →
      (∀ p ∈ r.records, p.Normal) → ∀ p ∈ (ps.foldl Roster.replace r).records, p.Normal := by
    intro ps
    induction ps with
    | nil => exact fun _ _ hr => hr
    | cons x ps ih =>
      intro r hps hr
      refine ih _ (fun p hp => hps p (List.mem_cons_of_mem x hp)) fun p hp => ?_
      rcases Roster.mem_replace hp with rfl | hp
      · exact hps p List.mem_cons_self
      · exact hr p hp
  unfold refine? at hr
  dsimp only at hr
  split_ifs at hr
  cases hr
  refine hfold _ _ (normal_of_mem_pinsOf text hcs _ ?_ fun _ hp => nomatch hp) h
  exact PinItem.tidy_of_mem_ofTokens (Token.allTidy_scan text)

end PinDecl

end DesignAtlas
