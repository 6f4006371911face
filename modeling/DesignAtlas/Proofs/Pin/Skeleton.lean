import DesignAtlas.Proofs.Checked.Pin
import DesignAtlas.Proofs.Pin.Items
import DesignAtlas.Proofs.Token.Skeleton

/-! # Pins of tokens with the same skeletons

A list of tokens is cut into the same items as one with the same skeletons (`PinItem.ofTokens_map`),
and all that a declaration says but the text of its ranges is read alike (`PinDecl.head?_map`). -/

namespace DesignAtlas

/-- The item with each token of its run changed. -/
def PinItem.map (f : Token → Token) : PinItem → PinItem
  | .directive d => .directive d
  | .declaration ts => .declaration (ts.map f)

namespace PinDecl

/-! ### The head of a declaration -/

/-- What a declaration says, with the tokens of its ranges. -/
structure Head where
  direction : Option Direction
  /-- The words of type and signing. -/
  words : List String
  ranges : List Token
  name : String

/-- The head of a run of tokens; `none` when the run is no declaration. -/
def head? (ts : List Token) : Option Head :=
  let direction := takeDirection ts
  let type := Token.takeWord isType direction.2
  let signing := Token.takeWord (fun w _ => isSigning w) type.2
  match Token.takeRanges? 0 signing.2 with
  | some (ranges, [t]) =>
    t.identifier?.map fun name => ⟨direction.1, type.1 ++ signing.1, ranges, name⟩
  | _ => none

/-- The declaration of a head in a text. -/
def Head.decl (text : Text) (h : Head) : PinDecl :=
  ⟨h.direction, typeText h.words, Token.rangeText text h.ranges, h.name⟩

theorem ofTokens?_eq (text : Text) (ts : List Token) :
    ofTokens? text ts = (head? ts).map (Head.decl text) := by
  unfold ofTokens? head?
  simp only
  rcases Token.takeRanges? 0 _ with _ | ⟨ranges, _ | ⟨t, _ | ⟨u, us⟩⟩⟩
  · rfl
  · rfl
  · simp only [Option.map_map]
    rfl
  · rfl

/-- The ranges of a head are a run of its tokens. -/
theorem infix_of_head? {ts : List Token} {h : Head} (hh : head? ts = some h) :
    h.ranges <:+: ts := by
  unfold head? at hh
  simp only at hh
  split at hh
  · rename_i ranges t hr
    obtain ⟨name, -, rfl⟩ := Option.map_eq_some_iff.mp hh
    have happ := Token.takeRanges?_append hr
    have hsuffix := (Token.takeWord_suffix (fun w _ => isSigning w) _).trans
      ((Token.takeWord_suffix isType _).trans (takeDirection_suffix ts))
    exact List.IsInfix.trans ⟨[], [t], by simpa using happ⟩ hsuffix.isInfix
  · cases hh

end PinDecl

/-! ### Tokens with the same skeletons -/

theorem Direction.ofPayload?_of_skeleton {t u : Token} (h : u.skeleton = t.skeleton) :
    ofPayload? u.payload = ofPayload? t.payload := by
  have key : ∀ t : Token, ofPayload? t.payload = ofPayload? t.skeleton := by
    rintro ⟨p, s⟩
    cases p <;> rfl
  rw [key, key, h]

theorem PinItem.joins_of_skeleton {t u : Token} (h : u.skeleton = t.skeleton) :
    joins u.payload = joins t.payload := by
  have key : ∀ t : Token, joins t.payload = joins t.skeleton := by
    rintro ⟨p, s⟩
    cases p <;> rfl
  rw [key, key, h]

/-- The skeleton of a token that ends an item is all of its payload. -/
theorem PinItem.payload_of_skeleton {t u : Token} (h : u.skeleton = t.skeleton)
    (ht : ¬ joins t.payload = true) : u.payload = t.payload := by
  have key : ∀ t : Token, ¬ joins t.payload = true → t.skeleton = t.payload := by
    rintro ⟨p, s⟩ hp
    cases p <;> first | rfl | exact absurd rfl hp
  have hu : ¬ joins u.payload = true := by rwa [joins_of_skeleton h]
  rw [← key u hu, ← key t ht, h]

section Map

variable {f : Token → Token} (hf : ∀ t, (f t).skeleton = t.skeleton)
include hf

namespace PinItem

theorem step_map (t : Token) (s : List Token × List PinItem) :
    step (f t) (s.1.map f, s.2.map (map f)) =
      ((step t s).1.map f, (step t s).2.map (map f)) := by
  have hrun : ∀ run : List Token, ofRun (run.map f) = (ofRun run).map (map f) := by
    intro run
    unfold ofRun
    rw [List.isEmpty_map]
    split_ifs <;> rfl
  by_cases ht : joins t.payload = true
  · have hft : joins (f t).payload = true := by rwa [joins_of_skeleton (hf t)]
    rw [step_of_joins ht, step_of_joins hft]
    rfl
  · unfold step
    rw [payload_of_skeleton (hf t) ht, hrun]
    split
    · rw [List.map_append]
      rfl
    · rw [List.map_cons, List.map_append]
      rfl
    · rfl

/-- **Tokens with the same skeletons are cut into the same items.** -/
theorem ofTokens_map (ts : List Token) : ofTokens (ts.map f) = (ofTokens ts).map (map f) := by
  have hfold : (ts.map f).foldr step ([], []) =
      ((ts.foldr step ([], [])).1.map f, (ts.foldr step ([], [])).2.map (map f)) := by
    induction ts with
    | nil => rfl
    | cons t ts ih => rw [List.map_cons, List.foldr_cons, List.foldr_cons, ih, step_map hf]
  unfold ofTokens ofRun
  simp only [hfold, List.isEmpty_map, List.map_append]
  split_ifs <;> rfl

end PinItem

namespace PinDecl

theorem takeDirection_map (ts : List Token) :
    takeDirection (ts.map f) = ((takeDirection ts).1, (takeDirection ts).2.map f) := by
  cases ts with
  | nil => rfl
  | cons t ts =>
    rw [List.map_cons, takeDirection, takeDirection, Direction.ofPayload?_of_skeleton (hf t)]
    cases Direction.ofPayload? t.payload <;> rfl

/-- **The head of a declaration is read alike.** -/
theorem head?_map (ts : List Token) : head? (ts.map f) =
    (head? ts).map fun h => ⟨h.direction, h.words, h.ranges.map f, h.name⟩ := by
  have htype : ∀ w us, isType w (us.map f) = isType w us := by
    intro w us
    cases us with
    | nil => rfl
    | cons u us => simp [isType, Token.identifier?_of_skeleton (hf u)]
  unfold head?
  simp only
  rw [takeDirection_map hf, Token.takeWord_map hf htype, Token.takeWord_map hf (fun _ _ => rfl),
    Token.takeRanges?_map hf]
  cases Token.takeRanges? 0 _ with
  | none => rfl
  | some r =>
    match r with
    | (ranges, []) => rfl
    | (ranges, [t]) =>
      simp only [Option.map_some, List.map_cons, List.map_nil,
        Token.identifier?_of_skeleton (hf t), Option.map_map]
      rfl
    | (ranges, t :: u :: us) => rfl

theorem beginsWithDirection_map (items : List PinItem) :
    beginsWithDirection (items.map (PinItem.map f)) = beginsWithDirection items := by
  match items with
  | [] | .directive _ :: _ | .declaration [] :: _ => rfl
  | .declaration (t :: ts) :: _ =>
    exact congrArg Option.isSome (Direction.ofPayload?_of_skeleton (hf t))

end PinDecl

end Map

end DesignAtlas
