import DesignAtlas.Pin.List
import DesignAtlas.Proofs.Condition.Depth
import DesignAtlas.Proofs.Pin.Declaration
import DesignAtlas.Proofs.Pin.Runs
import DesignAtlas.Proofs.Roster.Distinct
import DesignAtlas.Proofs.Token.Lines

/-! # What becomes of the runs of a pin list

Every run of a pin list is accounted for (`PinList.ofText_accounts`): one that is no declaration is
reported with its source text, and one that is sets the pin of its name. Which pin this is depends on
what stands to the left of the run only (`PinRun.pin?`): the directives there give its conditions,
and a lone name is like the nearest declaration there that says more than a name. -/

namespace DesignAtlas

/-! ### What stands to the left -/

namespace Token

variable (p : ElsePolicy) (ts : List Token) (t : Token)

/-- The stack of conditions behind some tokens. -/
def stackBehind : ConditionStack :=
  (ts.filterMap directive?).foldl ConditionStack.advance (ConditionStack.empty p)

/-- The token is an `endif`. -/
def isEndif : Bool := t.directive?.any fun d => d.name == "endif"

/-- The places of the `endif` directives that stand where no region is open. -/
def strayEndifs : List Nat :=
  (List.range ts.length).filter fun i =>
    ts[i]?.any isEndif && (stackBehind p (ts.take i)).regions.isEmpty

theorem stackBehind_append_singleton : stackBehind p (ts ++ [t]) =
    t.directive?.elim (stackBehind p ts) (stackBehind p ts).advance := by
  rw [stackBehind, List.filterMap_append, List.foldl_append, ← stackBehind, List.filterMap_cons]
  cases t.directive? <;> rfl

theorem strayEndifs_append_singleton : strayEndifs p (ts ++ [t]) = strayEndifs p ts ++
    if t.isEndif && (stackBehind p ts).regions.isEmpty then [ts.length] else [] := by
  have hfront : ∀ i ∈ List.range ts.length,
      ((ts ++ [t])[i]?.any isEndif &&
        (stackBehind p ((ts ++ [t]).take i)).regions.isEmpty) =
      (ts[i]?.any isEndif && (stackBehind p (ts.take i)).regions.isEmpty) := by
    intro i hi
    have hi := List.mem_range.mp hi
    rw [List.getElem?_append_left hi, List.take_append_of_le_length hi.le]
  rw [strayEndifs, List.length_append, List.length_singleton, List.range_succ, List.filter_append,
    List.filter_congr hfront, List.filter_singleton, cond_eq_ite, List.getElem?_concat_length,
    List.take_left, Option.any_some]
  rfl

variable {ts t} {p : ElsePolicy} {us : List Token}

theorem directive?_of_joins (h : t.joins = true) : t.directive? = none := by
  obtain ⟨payload, span⟩ := t
  cases payload <;> first | rfl | cases h

theorem directive?_of_comma (h : t.payload = .symbol .comma) : t.directive? = none := by
  rw [directive?, h]
  rfl

theorem stackBehind_of_none (h : t.directive? = none) :
    stackBehind p (ts ++ [t]) = stackBehind p ts := by
  rw [stackBehind_append_singleton, h]
  rfl

theorem strayEndifs_of_none (h : t.directive? = none) :
    strayEndifs p (ts ++ [t]) = strayEndifs p ts := by
  rw [strayEndifs_append_singleton, isEndif, h]
  exact List.append_nil _

/-- A run changes no condition, and no `endif` is in it. -/
theorem behind_run : ∀ {ts us : List Token}, (∀ u ∈ us, u.joins = true) →
    stackBehind p (ts ++ us) = stackBehind p ts ∧ strayEndifs p (ts ++ us) = strayEndifs p ts
  | ts, [], _ => by rw [List.append_nil]; exact ⟨rfl, rfl⟩
  | ts, u :: us, h => by
    obtain ⟨hu, hus⟩ := List.forall_mem_cons.mp h
    obtain ⟨hstack, hstray⟩ := @behind_run (ts ++ [u]) us hus
    have hnone := directive?_of_joins hu
    rw [List.append_assoc, List.singleton_append] at hstack hstray
    rw [hstack, hstray]
    exact ⟨stackBehind_of_none hnone, strayEndifs_of_none hnone⟩

end Token

namespace PinRun

/-- What the run declares, if it is a declaration. -/
def decl? (text : Text) (r : PinRun) : Option PinDecl := PinDecl.ofTokens? text r.tokens

/-- The last declaration among the runs of some tokens that says more than a name. -/
def pattern? (text : Text) (ts : List Token) : Option PinDecl :=
  (all ts).reverse.findSome? fun r => (r.decl? text).filter PinDecl.isQualified

/-- The declaration that the run is like: the pattern to its left for a lone name, and itself for any
other declaration. -/
def model? (text : Text) (r : PinRun) : Option PinDecl :=
  if r.tokens.length = 1 then pattern? text r.left else r.decl? text

/-- The pin that the run sets: its name, and direction, type and size of what it is like. The
conditions are those open behind the directives to its left. -/
def pin? (p : ElsePolicy) (text : Text) (r : PinRun) : Option Pin :=
  (r.decl? text).map fun d =>
    ⟨d.name, (r.model? text).bind PinDecl.direction, (r.model? text).bind PinDecl.dataType,
      (r.model? text).bind PinDecl.size, (Token.stackBehind p r.left).snapshot⟩

/-- The diagnostic that reports the run. -/
def report (module : String) (text : Text) (r : PinRun) : Diagnostic :=
  ⟨.unrecognizedPin, module, String.ofList (Text.collapse (Token.sourceOf text r.tokens))⟩

end PinRun

/-! ### Lone names -/

theorem Token.length_takeWord (accept : String → List Token → Bool) (ts : List Token) :
    ts.length = (takeWord accept ts).1.length + (takeWord accept ts).2.length := by
  unfold takeWord
  split
  · rfl
  · rename_i t ts
    split
    · split_ifs
      · rw [List.length_cons, List.length_singleton, Nat.add_comm]
      · rw [List.length_nil, Nat.zero_add]
    · rw [List.length_nil, Nat.zero_add]

theorem PinDecl.length_takeDirection (ts : List Token) :
    ts.length = (takeDirection ts).1.toList.length + (takeDirection ts).2.length := by
  unfold takeDirection
  split
  · rfl
  · split
    · rw [List.length_cons, Option.toList_some, List.length_singleton, Nat.add_comm]
    · rw [Option.toList_none, List.length_nil, Nat.zero_add]

/-- **A declaration says more than a name** exactly when it is more than one token. -/
theorem PinDecl.isQualified_iff {text : Text} {ts : List Token} {d : PinDecl}
    (h : ofTokens? text ts = some d) : d.isQualified = true ↔ ts.length ≠ 1 := by
  have hdirection := length_takeDirection ts
  have htype := Token.length_takeWord isType (takeDirection ts).2
  have hsigning := Token.length_takeWord (fun w _ => isSigning w)
    (Token.takeWord isType (takeDirection ts).2).2
  unfold ofTokens? at h
  simp only at h
  split at h
  · rename_i ranges t hranges
    obtain ⟨name, -, rfl⟩ := Option.map_eq_some_iff.mp h
    have hlength := congrArg List.length (Token.takeRanges?_append hranges)
    rw [List.length_append, List.length_singleton] at hlength
    have hwords : ∀ ws : List String, (typeText ws).isSome = true ↔ ws.length ≠ 0 := by
      intro ws
      cases ws <;> simp [typeText]
    have hsize : (Token.rangeText text ranges).isSome = true ↔ ranges.length ≠ 0 := by
      cases ranges <;> simp [Token.rangeText]
    have hsome : ∀ o : Option Direction, o.isSome = true ↔ o.toList.length ≠ 0 := by
      intro o
      cases o <;> simp
    simp only [isQualified, Bool.or_eq_true, hwords, hsize, hsome, List.length_append]
    omega
  · cases h

/-! ### Reading token by token, run by run -/

/-- A token that ends runs leaves the pattern as it is. -/
theorem PinRun.pattern?_append_singleton {text : Text} {t : Token} (h : t.joins = false)
    (ts : List Token) : pattern? text (ts ++ [t]) = pattern? text ts := by
  rw [pattern?, all_append_singleton h]
  rfl

theorem PinRun.pattern?_append_run {text : Text} {ts us : List Token}
    (h : all (ts ++ us) = all ts ++ [⟨ts, us⟩]) : pattern? text (ts ++ us) =
      ((PinDecl.ofTokens? text us).filter PinDecl.isQualified).or (pattern? text ts) := by
  rw [pattern?, h, List.reverse_append, List.reverse_singleton, List.singleton_append,
    List.findSome?_cons, decl?]
  cases (PinDecl.ofTokens? text us).filter PinDecl.isQualified <;> rfl

theorem Diagnostic.ofKind_append_singleton (k : DiagnosticKind) (ds : List Diagnostic)
    (d : Diagnostic) : ofKind k (ds ++ [d]) = ofKind k ds ++ if d.kind = k then [d] else [] := by
  rw [ofKind, List.filter_append, List.filter_singleton, cond_eq_ite]
  simp only [beq_iff_eq]
  rfl

namespace PinList

open Diagnostic (ofKind)
open PinRun (all pattern? pin? report)
open Token (stackBehind strayEndifs)

/-- The list read so far is what the tokens `ts` of the text make. -/
structure Behind (module : String) (p : ElsePolicy) (text : Text) (ts : List Token) (s : PinList) :
    Prop where
  stack : s.stack = stackBehind p ts
  pattern : ∃ cs, s.pattern = (pattern? text ts).map fun d => d.pin cs
  pins : s.pins = Roster.empty.putAll ((all ts).filterMap (pin? p text))
  unknown : ofKind .unrecognizedPin s.diagnostics =
    ((all ts).filter fun r => (r.decl? text).isNone).map (report module text)
  stray : (ofKind .unbalancedEndif s.diagnostics).length = (strayEndifs p ts).length

variable {module : String} {p : ElsePolicy} {text : Text} {ts us : List Token} {t : Token}
  {s : PinList}

theorem behind_nil : Behind module p text [] ⟨ConditionStack.empty p, none, Roster.empty, []⟩ :=
  ⟨rfl, ⟨[], rfl⟩, rfl, rfl, rfl⟩

theorem Behind.comma (h : Behind module p text ts s) (ht : t.payload = .symbol .comma) :
    Behind module p text (ts ++ [t]) s := by
  have hjoins : t.joins = false := by rw [Token.joins, ht]; rfl
  have hall := PinRun.all_append_singleton hjoins ts
  have hnone := Token.directive?_of_comma ht
  refine ⟨?_, ?_, ?_, ?_, ?_⟩
  · rw [Token.stackBehind_of_none hnone, h.stack]
  · rw [PinRun.pattern?_append_singleton hjoins]
    exact h.pattern
  · rw [hall, h.pins]
  · rw [hall, h.unknown]
  · rw [Token.strayEndifs_of_none hnone, h.stray]

theorem Behind.directive (h : Behind module p text ts s) {d : Directive}
    (ht : t.payload = .directive d) : Behind module p text (ts ++ [t]) (s.stepDirective module d) := by
  have hjoins : t.joins = false := by rw [Token.joins, ht]; rfl
  have hall := PinRun.all_append_singleton hjoins ts
  have hd : t.directive? = some d := by
    rw [Token.directive?, ht]
    rfl
  have hrejects : s.stack.rejects d = (t.isEndif && (stackBehind p ts).regions.isEmpty) := by
    rw [ConditionStack.rejects_eq, h.stack, Token.isEndif, hd, ConditionStack.depth]
    cases (stackBehind p ts).regions <;> rfl
  refine ⟨?_, ?_, ?_, ?_, ?_⟩
  · rw [Token.stackBehind_append_singleton, hd, ← h.stack]
    rfl
  · rw [PinRun.pattern?_append_singleton hjoins]
    exact h.pattern
  · rw [hall, ← h.pins]
    rfl
  · rw [hall, ← h.unknown, stepDirective]
    simp only
    split_ifs
    · rw [Diagnostic.ofKind_append_singleton, if_neg (by simp), List.append_nil]
    · rfl
  · rw [Token.strayEndifs_append_singleton, List.length_append, ← h.stray, ← hrejects, stepDirective]
    simp only
    split_ifs
    · rw [Diagnostic.ofKind_append_singleton, if_pos rfl, List.length_append]
      rfl
    · rfl

/-- The pin of a run is the one that reading adds. -/
theorem pin?_run (h : Behind module p text ts s) {d : PinDecl}
    (hd : PinDecl.ofTokens? text us = some d) :
    pin? p text ⟨ts, us⟩ = some (pinOf s.pattern s.stack.snapshot d) := by
  obtain ⟨cs, hpattern⟩ := h.pattern
  have hqualified := PinDecl.isQualified_iff hd
  unfold pin? PinRun.model? pinOf
  rw [PinRun.decl?, hd, Option.map_some, h.stack, hpattern]
  by_cases hlone : us.length = 1
  · rw [if_pos hlone, if_neg fun hq => hqualified.mp hq hlone]
    cases pattern? text ts <;> rfl
  · rw [if_neg hlone, if_pos (hqualified.mpr hlone)]
    rfl

/-- A run that is no declaration is reported, and the rest stays. -/
theorem Behind.unknown_run (h : Behind module p text ts s)
    (hts : ∀ t ∈ ts.getLast?, t.joins = false) (hne : us ≠ []) (hus : ∀ t ∈ us, t.joins = true)
    (hd : PinDecl.ofTokens? text us = none) :
    Behind module p text (ts ++ us) (s.stepUnknown module text us) := by
  have hall := PinRun.all_append_run hts hne hus
  obtain ⟨hstack, hstray⟩ := @Token.behind_run p ts us hus
  have hdecl : PinRun.decl? text ⟨ts, us⟩ = none := hd
  refine ⟨hstack.symm ▸ h.stack, ?_, ?_, ?_, ?_⟩
  · rw [PinRun.pattern?_append_run hall, hd]
    exact h.pattern
  · have hpin : pin? p text ⟨ts, us⟩ = none := by
      rw [pin?, hdecl]
      rfl
    rw [hall, List.filterMap_append, List.filterMap_cons_none hpin, List.filterMap_nil,
      List.append_nil]
    exact h.pins
  · rw [hall, List.filter_append, List.map_append, ← h.unknown, stepUnknown,
      Diagnostic.ofKind_append_singleton, if_pos rfl, List.filter_cons_of_pos]
    · rfl
    · rw [hdecl]
      rfl
  · rw [hstray, ← h.stray, stepUnknown, Diagnostic.ofKind_append_singleton, if_neg (by simp),
      List.append_nil]

/-- A run that is a declaration sets its pin, and is the pattern from then on if it says more than a
name. -/
theorem Behind.decl_run (h : Behind module p text ts s)
    (hts : ∀ t ∈ ts.getLast?, t.joins = false) (hne : us ≠ []) (hus : ∀ t ∈ us, t.joins = true)
    {d : PinDecl} (hd : PinDecl.ofTokens? text us = some d) :
    Behind module p text (ts ++ us) (s.stepDecl d) := by
  have hall := PinRun.all_append_run hts hne hus
  obtain ⟨hstack, hstray⟩ := @Token.behind_run p ts us hus
  have hdecl : PinRun.decl? text ⟨ts, us⟩ = some d := hd
  refine ⟨hstack.symm ▸ h.stack, ?_, ?_, ?_, ?_⟩
  · have hpattern : (s.stepDecl d).pattern =
        if d.isQualified then some (pinOf s.pattern s.stack.snapshot d) else s.pattern := rfl
    rw [PinRun.pattern?_append_run hall, hd, hpattern, Option.filter_some]
    by_cases hq : d.isQualified = true
    · refine ⟨s.stack.snapshot, ?_⟩
      rw [if_pos hq, if_pos hq, pinOf.eq_def, if_pos hq]
      rfl
    · rw [if_neg hq, if_neg hq]
      exact h.pattern
  · rw [hall, List.filterMap_append, Roster.putAll_append, ← h.pins,
      List.filterMap_cons_some (pin?_run h hd)]
    rfl
  · rw [hall, List.filter_append, List.map_append, ← h.unknown, List.filter_cons_of_neg]
    · exact (List.append_nil _).symm
    · rw [hdecl]
      exact Bool.false_ne_true
  · rw [hstray]
    exact h.stray

theorem Behind.run (h : Behind module p text ts s) (hts : ∀ t ∈ ts.getLast?, t.joins = false)
    (hne : us ≠ []) (hus : ∀ t ∈ us, t.joins = true) :
    Behind module p text (ts ++ us) (step module text s (.declaration us)) := by
  rw [step]
  cases hd : PinDecl.ofTokens? text us with
  | none => exact h.unknown_run hts hne hus hd
  | some d => exact h.decl_run hts hne hus hd

/-- **Reading on**: what is behind the tokens read so far, and behind all of them in the end. -/
theorem Behind.read (hapart : PinRun.Apart ts us) (h : Behind module p text ts s) :
    Behind module p text (ts ++ us) ((PinItem.ofTokens us).foldl (step module text) s) := by
  refine PinRun.reading_induction (motive := fun ts us => ∀ s, Behind module p text ts s →
    Behind module p text (ts ++ us) ((PinItem.ofTokens us).foldl (step module text) s))
      (fun ts s h => ?nil) (fun ts t us ht ih s h => ?ender)
        (fun ts run us hts hne hrun hus ih s h => ?run) ts us hapart s h
  case nil =>
    rw [List.append_nil]
    exact h
  case ender =>
    rw [List.append_cons]
    rcases PinItem.comma_or_directive ht with hp | ⟨d, hp⟩
    · rw [PinItem.ofTokens_comma hp]
      exact ih s (h.comma hp)
    · rw [PinItem.ofTokens_directive hp, List.foldl_cons]
      exact ih _ (h.directive hp)
  case run =>
    rw [PinItem.ofTokens_run hne hrun hus, List.foldl_cons, ← List.append_assoc]
    exact ih _ (h.run hts hne hrun)

theorem behind_ofText (module : String) (o : Options) (text : Text) :
    Behind module o.elsePolicy text (Token.scan text) (ofText module o text) :=
  Behind.read (PinRun.apart_nil (Token.scan text)) behind_nil

/-! ### The account -/

/-- What is made of the runs of a text: those that are no declarations are reported in order, and
those that are set the pins of their names, in the order in which the names first come; of several
with one name the last one stays. As many directives are reported as there are stray ones. -/
structure Accounts (module : String) (p : ElsePolicy) (text : Text) (runs : List PinRun)
    (s : PinList) : Prop where
  unknown : ofKind .unrecognizedPin s.diagnostics =
    (runs.filter fun r => (r.decl? text).isNone).map (report module text)
  names : s.pins.names = ((runs.filterMap (PinRun.decl? text)).map PinDecl.name).eraseDups
  latest : ∀ n, s.pins.find? n = (runs.filterMap (pin? p text)).reverse.find? fun x => x.name == n
  stray : (ofKind .unbalancedEndif s.diagnostics).length =
    (strayEndifs p (Token.scan text)).length

/-- The pins have the names that their runs declare. -/
theorem map_name_pin? (p : ElsePolicy) (text : Text) (runs : List PinRun) :
    (runs.filterMap (pin? p text)).map Pin.name =
      (runs.filterMap (PinRun.decl? text)).map PinDecl.name := by
  rw [List.map_filterMap, List.map_filterMap]
  refine List.filterMap_congr fun r _ => ?_
  rw [pin?, Option.map_map]
  rfl

/-- **Every run of a pin list is accounted for.** The runs are the longest stretches of tokens
without commas and directives, each once and in order. A run of a single token is a declaration
exactly when the token is an identifier that is neither a net type nor a word for signing. -/
theorem ofText_accounts (module : String) (o : Options) (text : Text) :
    (∀ ts r, r ∈ all ts ↔ r.IsMaximal ts) ∧
      (∀ ts, (all ts).Pairwise fun r r' => r.left.length < r'.left.length) ∧
      (∀ ts t d, (PinRun.mk ts [t]).decl? text = some d ↔ ∃ w, t.identifier? = some w ∧
        w ∉ netTypes ∧ isSigning w = false ∧ d = ⟨none, none, none, w⟩) ∧
      Accounts module o.elsePolicy text (all (Token.scan text)) (ofText module o text) := by
  refine ⟨fun ts r => PinRun.mem_all, fun ts => PinRun.pairwise_allFrom [] ts,
    fun ts t d => PinDecl.ofTokens?_singleton_iff, ?_⟩
  have h := behind_ofText module o text
  refine ⟨h.unknown, ?_, fun n => ?_, h.stray⟩
  · have hnames := Roster.names_putAll_empty
      ((all (Token.scan text)).filterMap (pin? o.elsePolicy text))
    rw [← h.pins] at hnames
    rw [← map_name_pin? o.elsePolicy]
    exact hnames
  · have hfind := Roster.find?_putAll n ((all (Token.scan text)).filterMap (pin? o.elsePolicy text))
      Roster.empty
    rw [← h.pins] at hfind
    exact hfind.trans (Option.or_none)

end PinList

end DesignAtlas
