import DesignAtlas.Proofs.Parameter.Level
import DesignAtlas.Proofs.Parameter.Value

/-! # What becomes of every segment

The segments of a text are what stands between its separators, the commas at depth zero
(`Parameter.runs_eq_between`). Read one after the other, each has one outcome (`Reading`): a
parameter, or its source text. The size or type that is carried from segment to segment is always
that of the last parameter declared with the keyword, since a segment without it only hands on what
it took over (`Reading.map_nearest?_snoc`). So no segment is lost, in a block or in a statement
(`Parameter.ofBlock_accounts`). -/

namespace DesignAtlas.Parameter

variable {o : Options} {text : Text} {ts : List Token}

/-! ### Separators -/

/-- How many brackets of any kind are open behind the tokens, with `depth` open before them. A
bracket that closes nothing is passed over. -/
def depthBehind (depth : Nat) (ts : List Token) : Nat :=
  ts.foldl (fun d t => if opens t then d + 1 else if closes t then d - 1 else d) depth

/-- The places of the commas behind which no bracket is open. -/
def separators (depth : Nat) (ts : List Token) : List Nat :=
  (List.range ts.length).filter fun i =>
    ts[i]?.any (Token.isSymbol .comma) && depthBehind depth (ts.take i) == 0

/-- The tokens before the first place, between two that follow each other, and behind the last. -/
def between (places : List Nat) (ts : List Token) : List (List Token) :=
  List.zipWith (fun a b => (ts.take b).drop a) (0 :: places.map (· + 1)) (places ++ [ts.length])

theorem depthBehind_cons (depth : Nat) (t : Token) (ts : List Token) :
    depthBehind depth (t :: ts) = depthBehind (nesting depth t) ts := by
  rw [nesting_eq]
  rfl

theorem separators_cons (depth : Nat) (t : Token) (ts : List Token) :
    separators depth (t :: ts) =
      (if t.isSymbol .comma && depth == 0 then [0] else []) ++
        (separators (nesting depth t) ts).map (· + 1) := by
  have hbehind : ∀ i, depthBehind depth ((t :: ts).take (i + 1)) =
      depthBehind (nesting depth t) (ts.take i) := fun i => by
    rw [List.take_succ_cons, depthBehind_cons]
  unfold separators
  rw [List.length_cons, List.range_succ_eq_map, List.filter_cons, List.filter_map]
  simp only [Function.comp_def, Nat.succ_eq_add_one, List.getElem?_cons_succ, hbehind,
    List.getElem?_cons_zero, Option.any_some, List.take_zero]
  show (if t.isSymbol .comma && depth == 0 then _ else _) = _
  split <;> rfl

/-- Pieces are the same with one more token in front of all their places. -/
theorem zipWith_shift (t : Token) (ts : List Token) (starts ends : List Nat) :
    List.zipWith (fun a b => ((t :: ts).take b).drop a) (starts.map (· + 1)) (ends.map (· + 1)) =
      List.zipWith (fun a b => (ts.take b).drop a) starts ends := by
  rw [List.zipWith_map]
  rfl

theorem shift_append_length (places : List Nat) (t : Token) (ts : List Token) :
    places.map (· + 1) ++ [(t :: ts).length] = (places ++ [ts.length]).map (· + 1) := by
  rw [List.map_append]
  rfl

/-- A separator in front leaves nothing before it. -/
theorem between_zero (places : List Nat) (t : Token) (ts : List Token) :
    between (0 :: places.map (· + 1)) (t :: ts) = [] :: between places ts := by
  unfold between
  rw [List.cons_append, shift_append_length, List.zipWith_cons_cons]
  exact congrArg (List.cons [])
    (zipWith_shift t ts (0 :: places.map (· + 1)) (places ++ [ts.length]))

/-- A token in front that is no separator belongs to the first piece. -/
theorem between_succ (places : List Nat) (t : Token) (ts : List Token) :
    between (places.map (· + 1)) (t :: ts) = (between places ts).modifyHead (t :: ·) := by
  obtain ⟨b, bs, hb⟩ : ∃ b bs, places ++ [ts.length] = b :: bs :=
    List.exists_cons_of_ne_nil (by simp)
  unfold between
  rw [shift_append_length, hb, List.map_cons, List.zipWith_cons_cons, zipWith_shift,
    List.zipWith_cons_cons, List.modifyHead_cons]
  rfl

/-- **The runs of tokens** are what stands between the separators. -/
theorem runs_eq_between : ∀ (depth : Nat) (ts : List Token),
    runs depth ts = between (separators depth ts) ts
  | _, [] => rfl
  | depth, t :: ts => by
    rw [runs_cons, separators_cons, runs_eq_between]
    split
    · rename_i hcut
      obtain ⟨ho, hc⟩ := not_opens_of_comma (Bool.and_eq_true _ _ ▸ hcut).1
      rw [nesting_eq, ho, hc, List.singleton_append, between_zero]
      rfl
    · rw [runs_eq_between, List.nil_append, between_succ]

/-! ### Segments that take over a size or type -/

/-- Whether a segment has the keyword. -/
def carries (o : Options) (s : List Token) : Bool := s.any (isKeyword o)

theorem isSome_afterKeyword? (o : Options) (s : List Token) :
    (afterKeyword? o s).isSome = carries o s := by
  rw [Bool.eq_iff_iff, Option.isSome_iff_ne_none, Ne, afterKeyword?_eq_none_iff, carries,
    List.any_eq_true]
  simp

theorem sizeOrType_of_binding? {shape : Option String} {p : Parameter}
    (h : binding? text shape ts = some p) : p.sizeOrType = shape := by
  unfold binding? at h
  split at h
  · split at h
    · obtain ⟨name, -, rfl⟩ := Option.map_eq_some_iff.mp h
      rfl
    · cases h
  · cases h

/-- A segment without the keyword hands on what it takes over. -/
theorem inherited_eq_of_ofSegment? {inherited : Option (Option String)} {p : Parameter}
    (hs : carries o ts = false) (h : ofSegment? text o inherited ts = some p) :
    inherited = some p.sizeOrType := by
  rw [← isSome_afterKeyword?, Option.isSome_eq_false_iff, Option.isNone_iff_eq_none] at hs
  rw [ofSegment?, hs] at h
  obtain ⟨shape, rfl, hp⟩ := Option.bind_eq_some_iff.mp h
  rw [sizeOrType_of_binding? hp]

/-! ### Readings -/

/-- A segment with what becomes of it: a parameter or a rejected text. -/
structure Reading where
  segment : List Token
  outcome : Except String Parameter

namespace Reading

/-- The parameter that a segment with the keyword declares. -/
def declared? (o : Options) (r : Reading) : Option Parameter :=
  if carries o r.segment then r.outcome.toOption else none

/-- Among some readings, the last parameter that is declared with the keyword. -/
def nearest? (o : Options) (rs : List Reading) : Option Parameter :=
  rs.reverse.findSome? (declared? o)

/-- The diagnostic of a rejected segment. -/
def diagnostic? (module : String) (r : Reading) : Option Diagnostic :=
  match r.outcome with
  | .ok _ => none
  | .error e => some ⟨.unrecognizedParameter, module, e⟩

/-- The reading of a segment behind others. -/
def ofSegment (text : Text) (o : Options) (front : List Reading) (s : List Token) : Reading where
  segment := s
  outcome :=
    match ofSegment? text o ((nearest? o front).map Parameter.sizeOrType) s with
    | some p => .ok p
    | none => .error (String.ofList (Text.collapse (Token.sourceOf text s)))

/-- The readings of segments one after the other, behind others. -/
def ofSegments (text : Text) (o : Options) (front : List Reading) :
    List (List Token) → List Reading
  | [] => []
  | s :: ss =>
    ofSegment text o front s :: ofSegments text o (front ++ [ofSegment text o front s]) ss

variable {front : List Reading} {s : List Token} {p : Parameter}

theorem nearest?_snoc (o : Options) (front : List Reading) (r : Reading) :
    nearest? o (front ++ [r]) = (declared? o r).or (nearest? o front) := by
  unfold nearest?
  rw [List.reverse_append, List.reverse_singleton, List.singleton_append, List.findSome?_cons]
  cases declared? o r <;> rfl

@[simp] theorem segment_ofSegment : (ofSegment text o front s).segment = s := rfl

theorem outcome_of_some
    (h : ofSegment? text o ((nearest? o front).map Parameter.sizeOrType) s = some p) :
    (ofSegment text o front s).outcome = .ok p := by
  simp only [ofSegment, h]

theorem toOption_outcome (text : Text) (o : Options) (front : List Reading) (s : List Token) :
    (ofSegment text o front s).outcome.toOption =
      ofSegment? text o ((nearest? o front).map Parameter.sizeOrType) s := by
  unfold ofSegment
  cases ofSegment? text o ((nearest? o front).map Parameter.sizeOrType) s <;> rfl

theorem outcome_of_none
    (h : ofSegment? text o ((nearest? o front).map Parameter.sizeOrType) s = none) :
    (ofSegment text o front s).outcome =
      .error (String.ofList (Text.collapse (Token.sourceOf text s))) := by
  simp only [ofSegment, h]

/-- **What is carried behind a parameter** is its size or type, whether it is declared with the
keyword or takes its size or type over. -/
theorem map_nearest?_snoc
    (h : ofSegment? text o ((nearest? o front).map Parameter.sizeOrType) s = some p) :
    (nearest? o (front ++ [ofSegment text o front s])).map Parameter.sizeOrType =
      some p.sizeOrType := by
  rw [nearest?_snoc, declared?, outcome_of_some h, segment_ofSegment]
  cases hs : carries o s with
  | true => rfl
  | false => exact inherited_eq_of_ofSegment? hs h

/-- A rejected segment leaves what is carried as it is. -/
theorem nearest?_snoc_of_none
    (h : ofSegment? text o ((nearest? o front).map Parameter.sizeOrType) s = none) :
    nearest? o (front ++ [ofSegment text o front s]) = nearest? o front := by
  rw [nearest?_snoc, declared?, outcome_of_none h]
  split <;> rfl

/-- **The outcomes** are those of the readings. -/
theorem map_outcome_ofSegments (text : Text) (o : Options) :
    ∀ (ss : List (List Token)) (front : List Reading),
      (ofSegments text o front ss).map outcome =
        outcomes text o ((nearest? o front).map Parameter.sizeOrType) ss
  | [], _ => rfl
  | s :: ss, front => by
    rw [ofSegments, List.map_cons, map_outcome_ofSegments text o ss, outcomes]
    cases h : ofSegment? text o ((nearest? o front).map Parameter.sizeOrType) s with
    | some p => rw [outcome_of_some h, map_nearest?_snoc h]
    | none => rw [outcome_of_none h, nearest?_snoc_of_none h]

theorem map_segment_ofSegments (text : Text) (o : Options) :
    ∀ (ss : List (List Token)) (front : List Reading),
      (ofSegments text o front ss).map segment = ss
  | [], _ => rfl
  | s :: ss, front => by
    rw [ofSegments, List.map_cons, map_segment_ofSegments text o ss]
    rfl

/-- Every reading is made of what stands before it. -/
theorem eq_ofSegment_of_append : ∀ {ss : List (List Token)} {front left right : List Reading}
    {r : Reading}, ofSegments text o front ss = left ++ r :: right →
      r = ofSegment text o (front ++ left) r.segment
  | [], _, left, _, _, h => by cases left <;> cases h
  | s :: ss, front, [], _, _, h => by
    obtain ⟨rfl, -⟩ := List.cons.inj h
    rw [List.append_nil]
    rfl
  | s :: ss, front, l :: left, _, _, h => by
    obtain ⟨rfl, htail⟩ := List.cons.inj h
    rw [List.append_cons]
    exact eq_ofSegment_of_append htail

/-- The text of a rejected segment is its own. -/
theorem error_of_ofSegment {e : String} (h : (ofSegment text o front s).outcome = .error e) :
    e = String.ofList (Text.collapse (Token.sourceOf text s)) := by
  cases hread : ofSegment? text o ((nearest? o front).map Parameter.sizeOrType) s with
  | some p =>
    rw [outcome_of_some hread] at h
    cases h
  | none =>
    rw [outcome_of_none hread] at h
    cases h
    rfl

/-- **A parameter without the keyword** takes over the size or type of the nearest one with it. -/
theorem exists_nearest? (h : (ofSegment text o front s).outcome = .ok p)
    (hs : carries o s = false) :
    ∃ q, nearest? o front = some q ∧ p.sizeOrType = q.sizeOrType := by
  have hread := toOption_outcome text o front s
  rw [h] at hread
  obtain ⟨q, hq, hshape⟩ :=
    Option.map_eq_some_iff.mp (inherited_eq_of_ofSegment? hs hread.symm)
  exact ⟨q, hq, hshape.symm⟩

end Reading

open Reading (nearest? diagnostic?)

/-! ### The account -/

/-- The readings of the segments of a text, in order: their parameters are those that the text
declares, and their rejected texts those of the diagnostics. What a segment declares depends on no
other than the nearest parameter before it that is declared with the keyword: without the keyword it
declares nothing if there is none, and else a parameter with the same size or type. -/
structure Accounts (module : String) (o : Options) (text : Text) (rs : List Reading) : Prop where
  parameters : (ofBlock o text).parameters = rs.filterMap fun r => r.outcome.toOption
  diagnostics : blockDiagnostics module (ofBlock o text) = rs.filterMap (diagnostic? module)
  rejected : ∀ r ∈ rs, ∀ e, r.outcome = .error e →
    e = String.ofList (Text.collapse (Token.sourceOf text r.segment))
  read : ∀ left r right, rs = left ++ r :: right → r.outcome.toOption =
    ofSegment? text o ((nearest? o left).map Parameter.sizeOrType) r.segment
  continued : ∀ left r right p, rs = left ++ r :: right → r.outcome = .ok p →
    carries o r.segment = false → ∃ q, nearest? o left = some q ∧ p.sizeOrType = q.sizeOrType

theorem accounts_ofSegments (module : String) (o : Options) (text : Text) :
    Accounts module o text (Reading.ofSegments text o [] (segments (Token.scan text))) := by
  have houtcomes := Reading.map_outcome_ofSegments text o (segments (Token.scan text)) []
  refine ⟨?_, ?_, fun r hr e he => ?_, fun left r right hsplit => ?_,
    fun left r right p hsplit hp hs => ?_⟩
  · show accepted (outcomes text o none _) = _
    rw [show none = (nearest? o []).map Parameter.sizeOrType from rfl, ← houtcomes, accepted,
      List.filterMap_map]
    rfl
  · show (rejected (outcomes text o none _)).map _ = _
    rw [show none = (nearest? o []).map Parameter.sizeOrType from rfl, ← houtcomes, rejected,
      List.filterMap_map, List.map_filterMap]
    refine List.filterMap_congr fun r _ => ?_
    unfold diagnostic?
    cases hr : r.outcome <;> simp [hr]
  · obtain ⟨left, right, hsplit⟩ := List.append_of_mem hr
    have hread := Reading.eq_ofSegment_of_append hsplit
    rw [hread] at he
    exact Reading.error_of_ofSegment he
  · have hread := Reading.eq_ofSegment_of_append hsplit
    rw [hread]
    exact Reading.toOption_outcome text o left r.segment
  · have hread := Reading.eq_ofSegment_of_append hsplit
    rw [hread] at hp
    exact Reading.exists_nearest? hp hs

/-- A statement declares what a block does, if its first segment has the keyword. -/
theorem ofStatement?_eq (o : Options) (text : Text) : ofStatement? o text =
    if (segments (Token.scan text)).head?.any (carries o) then some (ofBlock o text) else none := by
  unfold ofStatement? ofBlock
  cases segments (Token.scan text) with
  | nil => rfl
  | cons s ss =>
    show (if (afterKeyword? o s).isSome then _ else _) = if carries o s then _ else _
    rw [isSome_afterKeyword?]

/-- **Every segment of a parameter block is accounted for.** The segments are the nonempty pieces
between the commas at depth zero, and each has one reading. A statement with the same text declares
and rejects the same exactly when its first segment has the keyword. -/
theorem ofBlock_accounts (module : String) (o : Options) (text : Text) :
    let ts := Token.scan text
    let ss := (between (separators 0 ts) ts).filter fun s => !s.isEmpty
    (∃ rs : List Reading, rs.map Reading.segment = ss ∧ Accounts module o text rs) ∧
      ofStatement? o text = if ss.head?.any (carries o) then some (ofBlock o text) else none := by
  intro ts ss
  have hss : segments ts = ss := by
    show (runs 0 ts).filter _ = _
    rw [runs_eq_between]
  rw [← hss]
  exact ⟨⟨_, Reading.map_segment_ofSegments text o _ [], accounts_ofSegments module o text⟩,
    ofStatement?_eq o text⟩

/-- Brackets that close nothing, an empty piece, and rejected segments before and behind the first
parameter: `C` takes over the type of `A`, not that of the rejected `B`. -/
example :
    let d := ofBlock {} "X = 0, ) parameter integer A = (1, 2), , parameter real B, C = 3".toList
    d.parameters.map (fun p => (p.name, p.sizeOrType)) =
        [("A", some "integer"), ("C", some "integer")] ∧
      d.rejected = ["X = 0", "parameter real B"] := by
  decide +kernel

end DesignAtlas.Parameter
