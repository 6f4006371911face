import DesignAtlas.Parameter.Segment
import DesignAtlas.Proofs.Checked.Pin

/-! # Parameter declarations through checked accesses

A closing bracket outside all brackets leaves the depth at zero; any other one lowers a positive
depth (`nesting_eq`). The segments between the commas at depth zero are runs of tokens that follow
one another (`infix_of_mem_segments`), so the texts of segments, of ranges and of values are sliced
without a fault. A block (`block_eq`) and a statement (`statement_eq`) declare what they declare
without checks. -/

namespace DesignAtlas

/-! ### Runs between commas at depth zero -/

namespace Parameter

/-- The first run begins the tokens, and the others are runs of them. -/
theorem exists_runs_infix : ∀ (ts : List Token) (depth : Nat), ∃ r rs,
    runs depth ts = r :: rs ∧ r <+: ts ∧ ∀ s ∈ rs, s <:+: ts
  | [], _ => ⟨[], [], rfl, List.nil_prefix, by simp⟩
  | t :: ts, depth => by
    unfold runs
    split_ifs with hc
    · obtain ⟨r, rs, hruns, hr, hrs⟩ := exists_runs_infix ts depth
      refine ⟨[], r :: rs, by rw [hruns], List.nil_prefix, fun s hs => ?_⟩
      rcases List.mem_cons.mp hs with rfl | hs
      · exact List.infix_cons hr.isInfix
      · exact List.infix_cons (hrs s hs)
    · obtain ⟨r, rs, hruns, hr, hrs⟩ := exists_runs_infix ts (nesting depth t)
      refine ⟨t :: r, rs, by rw [hruns]; rfl, List.cons_prefix_cons.mpr ⟨rfl, hr⟩, fun s hs => ?_⟩
      exact List.infix_cons (hrs s hs)

/-- **The tokens of a segment follow one another.** -/
theorem infix_of_mem_segments {ts s : List Token} (h : s ∈ segments ts) : s <:+: ts := by
  obtain ⟨r, rs, hruns, hr, hrs⟩ := exists_runs_infix ts 0
  have hs := (List.mem_filter.mp h).1
  rw [hruns] at hs
  rcases List.mem_cons.mp hs with rfl | hs
  · exact hr.isInfix
  · exact hrs s hs

theorem afterKeyword?_suffix {o : Options} {s ts : List Token} (h : afterKeyword? o s = some ts) :
    ts <:+ s := by
  unfold afterKeyword? at h
  split at h
  · cases h
  · rename_i t us hd
    obtain rfl := Option.some.inj h
    have := List.dropWhile_suffix (fun t => !isKeyword o t) (l := s)
    rw [hd] at this
    exact (List.suffix_cons t us).trans this

end Parameter

namespace Checked

/-! ### Cutting into segments -/

/-- The bracket depth behind a token. Closing stops at zero by itself: the test is part of a
subtraction that saturates, not a guard before one that may fault. -/
def nesting (depth : Nat) (t : Token) : Except Fault Nat :=
  match t.payload with
  | .symbol .openParen | .symbol .openBracket | .symbol .openBrace => .ok (depth + 1)
  | .symbol .closeParen | .symbol .closeBracket | .symbol .closeBrace =>
    if depth = 0 then .ok 0 else lower depth
  | _ => .ok depth

/-- The runs of tokens between the commas at depth zero, empty runs included. -/
def runs (depth : Nat) : List Token → Except Fault (List (List Token))
  | [] => .ok [[]]
  | t :: ts =>
    if t.isSymbol .comma && depth == 0 then do return [] :: (← runs depth ts)
    else do return consHead t (← runs (← nesting depth t) ts)

/-- The segments of a text, each with its source text. -/
def segments (text : Text) : Except Fault (List (List Token × Text)) := do
  let rs ← runs 0 (← scan text)
  (rs.filter fun r => !r.isEmpty).mapM fun r => do return (r, ← runText text r)

theorem nesting_eq (depth : Nat) (t : Token) :
    nesting depth t = .ok (Parameter.nesting depth t) := by
  unfold nesting Parameter.nesting
  split
  all_goals cases depth <;> simp_all

theorem runs_eq : ∀ (ts : List Token) (depth : Nat),
    runs depth ts = .ok (Parameter.runs depth ts)
  | [], _ => rfl
  | t :: ts, depth => by
    unfold runs Parameter.runs
    split_ifs with hc
    · rw [runs_eq ts depth]
      rfl
    · rw [nesting_eq, ok_bind, runs_eq ts]
      rfl

theorem segments_eq (text : Text) :
    segments text = .ok ((Parameter.segments (Token.scan text)).map fun s =>
      (s, Token.sourceOf text s)) := by
  unfold segments
  rw [scan_eq, ok_bind, runs_eq, ok_bind]
  refine mapM_eq_ok fun s hs => ?_
  rw [runText_eq (Parameter.infix_of_mem_segments hs)]
  rfl

/-! ### Reading a segment -/

/-- Reads `name = value`, the value being all that follows. -/
def binding (text : Text) (sizeOrType : Option String) :
    List Token → Except Fault (Option Parameter)
  | n :: e :: v :: vs =>
    if e.isSymbol .equals then
      match n.identifier? with
      | some name => do
        let value ← runText text (v :: vs)
        return some ⟨name, sizeOrType, String.ofList (Text.collapse value)⟩
      | none => return none
    else return none
  | _ => return none

/-- Reads the declaration `ts` behind the keyword of a segment. -/
def declarator (text : Text) (segment ts : List Token) : Except Fault (Option Parameter) := do
  let type := Token.takeWord (fun _ rest => Parameter.isType rest) ts
  let signing := Token.takeWord (fun w _ => isSigning w && !type.1.contains w) type.2
  match ← popRanges text segment (segment.length - signing.2.length) [] with
  | none => return none
  | some (size, i) =>
    binding text ((rangeText size).or (typeText (type.1 ++ signing.1))) (segment.drop i)

/-- Reads a segment. -/
def ofSegment (text : Text) (o : Options) (inherited : Option (Option String))
    (segment : List Token) : Except Fault (Option Parameter) :=
  match Parameter.afterKeyword? o segment with
  | some ts => declarator text segment ts
  | none =>
    match inherited with
    | some shape => binding text shape segment
    | none => return none

/-- The outcome of every segment in order. -/
def outcomes (text : Text) (o : Options) : Option (Option String) → List (List Token × Text) →
    Except Fault (List (Except String Parameter))
  | _, [] => .ok []
  | inherited, (s, source) :: ss => do
    match ← ofSegment text o inherited s with
    | some p => return .ok p :: (← outcomes text o (some p.sizeOrType) ss)
    | none =>
      return .error (String.ofList (Text.collapse source)) :: (← outcomes text o inherited ss)

section Segment

variable {text : Text} {ts : List Token}

theorem binding_eq (h : ts <:+: Token.scan text) (sizeOrType : Option String) :
    binding text sizeOrType ts = .ok (Parameter.binding? text sizeOrType ts) := by
  match ts with
  | [] | [_] | [_, _] => rfl
  | n :: e :: v :: vs =>
    have hv : v :: vs <:+: Token.scan text := List.IsInfix.trans ⟨[n, e], [], by simp⟩ h
    rw [binding, Parameter.binding?, runText_eq hv]
    split_ifs
    · cases n.identifier? <;> rfl
    · rfl

theorem declarator_eq {segment : List Token} (h : segment <:+: Token.scan text)
    (hts : ts <:+ segment) :
    declarator text segment ts = .ok (Parameter.declarator? text ts) := by
  unfold declarator Parameter.declarator?
  simp only
  set type := Token.takeWord (fun _ rest => Parameter.isType rest) ts
  set signing := Token.takeWord (fun w _ => isSigning w && !type.1.contains w) type.2
  have hs : signing.2 <:+ segment :=
    (Token.takeWord_suffix ..).trans ((Token.takeWord_suffix ..).trans hts)
  rw [popRanges_suffix h hs, ok_bind]
  rcases hr : Token.takeRanges? 0 signing.2 with _ | ⟨ranges, rest⟩
  · rfl
  · obtain ⟨hranges, hsuf⟩ := infix_of_takeRanges? h hs hr
    simp only [Option.map_some, ← List.suffix_iff_eq_drop.mp hsuf, rangeText_eq hranges]
    exact binding_eq (hsuf.isInfix.trans h) _

theorem ofSegment_eq (h : ts <:+: Token.scan text) (o : Options)
    (inherited : Option (Option String)) :
    ofSegment text o inherited ts = .ok (Parameter.ofSegment? text o inherited ts) := by
  unfold ofSegment Parameter.ofSegment?
  cases ha : Parameter.afterKeyword? o ts with
  | some us => exact declarator_eq h (Parameter.afterKeyword?_suffix ha)
  | none =>
    cases inherited with
    | some shape => exact binding_eq h shape
    | none => rfl

theorem outcomes_eq (o : Options) : ∀ {ss : List (List Token)},
    (∀ s ∈ ss, s <:+: Token.scan text) → ∀ inherited : Option (Option String),
      outcomes text o inherited (ss.map fun s => (s, Token.sourceOf text s)) =
        .ok (Parameter.outcomes text o inherited ss)
  | [], _, _ => rfl
  | s :: ss, h, inherited => by
    have ih := outcomes_eq o fun s' hs' => h s' (List.mem_cons_of_mem s hs')
    rw [List.map_cons, outcomes, Parameter.outcomes, ofSegment_eq (h s (by simp)), ok_bind]
    simp only [ih, ok_bind]
    cases Parameter.ofSegment? text o inherited s <;> rfl

end Segment

/-! ### Blocks and statements -/

/-- What the segments of a text declare. -/
def declaredBy (o : Options) (text : Text) (ss : List (List Token × Text)) :
    Except Fault Parameter.Declared := do
  let rs ← outcomes text o none ss
  return ⟨Parameter.accepted rs, Parameter.rejected rs⟩

/-- What a parameter block declares. -/
def block (o : Options) (text : Text) : Except Fault Parameter.Declared := do
  declaredBy o text (← segments text)

/-- What a statement declares; `none` when its first segment has no keyword. -/
def statement (o : Options) (text : Text) : Except Fault (Option Parameter.Declared) := do
  match ← segments text with
  | [] => return none
  | s :: ss =>
    if (Parameter.afterKeyword? o s.1).isSome then return some (← declaredBy o text (s :: ss))
    else return none

theorem declaredBy_eq (o : Options) (text : Text) :
    declaredBy o text ((Parameter.segments (Token.scan text)).map fun s =>
      (s, Token.sourceOf text s)) = .ok (Parameter.ofBlock o text) := by
  unfold declaredBy
  rw [outcomes_eq o fun s hs => Parameter.infix_of_mem_segments hs]
  rfl

/-- **A parameter block is read without a fault.** -/
theorem block_eq (o : Options) (text : Text) : block o text = .ok (Parameter.ofBlock o text) := by
  unfold block
  rw [segments_eq, ok_bind, declaredBy_eq]

/-- **A statement is tried as a parameter declaration without a fault.** -/
theorem statement_eq (o : Options) (text : Text) :
    statement o text = .ok (Parameter.ofStatement? o text) := by
  have hd := declaredBy_eq o text
  unfold statement Parameter.ofStatement?
  rw [segments_eq, ok_bind]
  cases hs : Parameter.segments (Token.scan text) with
  | nil => rfl
  | cons s ss =>
    rw [Parameter.ofBlock, hs, List.map_cons] at hd
    simp only [List.map_cons, hd]
    split_ifs <;> rfl

end Checked

end DesignAtlas
