import DesignAtlas.Proofs.Checked.Parameter
import DesignAtlas.Proofs.Parameter.Runs

/-! # Parameters of tokens with the same skeletons

The words before the name of a declarator and the ranges are cut off alike from tokens with the
same skeletons (`Parameter.head?_map`). Where the source texts of these tokens are the same too, a
segment is read alike (`Parameter.ofSegment?_map`). Where they are not, the names of the parameters
are the same all the same, and so is the number of segments that declare nothing
(`Parameter.rel_ofStatement?_map`). -/

namespace DesignAtlas.Parameter

/-! ### The head of a declarator -/

/-- What stands before the name of a declarator, and the tokens from the name on. -/
structure Head where
  /-- The words of type and signing. -/
  words : List String
  ranges : List Token
  rest : List Token

/-- The head of the tokens behind a keyword; `none` when a range is not closed. -/
def head? (ts : List Token) : Option Head :=
  let type := Token.takeWord (fun _ rest => isType rest) ts
  let signing := Token.takeWord (fun w _ => isSigning w && !type.1.contains w) type.2
  (Token.takeRanges? 0 signing.2).map fun r => ⟨type.1 ++ signing.1, r.1, r.2⟩

/-- The size or type that a head states. -/
def Head.shape (text : Text) (h : Head) : Option String :=
  (Token.rangeText text h.ranges).or (typeText h.words)

theorem declarator?_eq (text : Text) (ts : List Token) :
    declarator? text ts = (head? ts).bind fun h => binding? text (h.shape text) h.rest := by
  unfold declarator? head? Head.shape
  simp only
  cases Token.takeRanges? 0 _ <;> rfl

/-- Ranges and rest of a head are runs of its tokens. -/
theorem infix_of_head? {ts : List Token} {h : Head} (hh : head? ts = some h) :
    h.ranges <:+: ts ∧ h.rest <:+: ts := by
  unfold head? at hh
  simp only at hh
  obtain ⟨⟨ranges, rest⟩, hr, rfl⟩ := Option.map_eq_some_iff.mp hh
  have happ := Token.takeRanges?_append hr
  have hsuffix := (Token.takeWord_suffix (fun w _ => isSigning w &&
    !(Token.takeWord (fun _ rest => isType rest) ts).1.contains w) _).trans
    (Token.takeWord_suffix (fun _ rest => isType rest) ts)
  constructor
  · exact List.IsInfix.trans ⟨[], rest, by simpa using happ⟩ hsuffix.isInfix
  · exact List.IsInfix.trans ⟨ranges, [], by simpa using happ⟩ hsuffix.isInfix

theorem isKeyword_of_skeleton {t u : Token} (h : u.skeleton = t.skeleton) (o : Options) :
    isKeyword o u = isKeyword o t := by
  have key : ∀ (t : Token) (s : Span), isKeyword o t = isKeyword o ⟨t.skeleton, s⟩ := by
    rintro ⟨p, s⟩ s'
    cases p <;> rfl
  rw [key u t.span, key t t.span, h]

/-- The names of the parameters and the number of segments that declare nothing. -/
def Declared.outline (d : Declared) : List String × Nat :=
  (d.parameters.map Parameter.name, d.rejected.length)

theorem Declared.isEmpty_of_outline {d d' : Declared} (h : d'.outline = d.outline) :
    d'.rejected.isEmpty = d.rejected.isEmpty := by
  have hlength : d'.rejected.length = d.rejected.length := congrArg Prod.snd h
  rw [Bool.eq_iff_iff, List.isEmpty_iff_length_eq_zero, List.isEmpty_iff_length_eq_zero, hlength]

section Map

variable {f : Token → Token} (hf : ∀ t, (f t).skeleton = t.skeleton)
include hf

theorem afterKeyword?_map (o : Options) : ∀ ts : List Token,
    afterKeyword? o (ts.map f) = (afterKeyword? o ts).map (List.map f)
  | [] => rfl
  | t :: ts => by
    have hkeyword := isKeyword_of_skeleton (hf t) o
    have ih := afterKeyword?_map o ts
    unfold afterKeyword? at ih ⊢
    rw [List.map_cons, List.dropWhile_cons, List.dropWhile_cons, hkeyword]
    by_cases h : isKeyword o t = true
    · simp [h]
    · simpa [h] using ih

/-- **A head is cut off alike.** -/
theorem head?_map (ts : List Token) : head? (ts.map f) =
    (head? ts).map fun h => ⟨h.words, h.ranges.map f, h.rest.map f⟩ := by
  have htype : ∀ us : List Token, isType (us.map f) = isType us := by
    intro us
    cases us with
    | nil => rfl
    | cons u us =>
      simp [isType, Token.isSymbol_of_skeleton (hf u), Token.identifier?_of_skeleton (hf u)]
  unfold head?
  simp only
  rw [Token.takeWord_map hf (fun _ us => htype us) ts, Token.takeWord_map hf (fun _ _ => rfl),
    Token.takeRanges?_map hf]
  cases Token.takeRanges? 0 _ <;> rfl

/-! ### The same source texts -/

section Source

variable {text text' : Text} {ts : List Token}
  (hsource : ∀ us, us <:+: ts → Token.sourceOf text' (us.map f) = Token.sourceOf text us)
include hsource

theorem binding?_map (shape : Option String) :
    binding? text' shape (ts.map f) = binding? text shape ts := by
  match ts with
  | [] | [_] | [_, _] => rfl
  | n :: e :: v :: vs =>
    have hvalue := hsource (v :: vs) ⟨[n, e], [], by simp⟩
    rw [List.map_cons] at hvalue
    simp only [List.map_cons, binding?, Token.isSymbol_of_skeleton (hf e),
      Token.identifier?_of_skeleton (hf n), hvalue]

theorem declarator?_map : declarator? text' (ts.map f) = declarator? text ts := by
  rw [declarator?_eq, declarator?_eq, head?_map hf]
  cases hh : head? ts with
  | none => rfl
  | some h =>
    obtain ⟨hranges, hrest⟩ := infix_of_head? hh
    have hshape : Head.shape text' ⟨h.words, h.ranges.map f, h.rest.map f⟩ = h.shape text := by
      unfold Head.shape Token.rangeText
      rw [List.isEmpty_map, hsource h.ranges hranges]
    rw [Option.map_some, Option.bind_some, Option.bind_some, hshape]
    exact binding?_map hf (fun us hus => hsource us (hus.trans hrest)) _

/-- **A segment is read alike** from tokens with the same payloads and the same source texts. -/
theorem ofSegment?_map (o : Options) (inherited : Option (Option String)) :
    ofSegment? text' o inherited (ts.map f) = ofSegment? text o inherited ts := by
  unfold ofSegment?
  rw [afterKeyword?_map hf]
  cases ha : afterKeyword? o ts with
  | some us =>
    have hus := (afterKeyword?_suffix ha).isInfix
    exact declarator?_map hf fun vs hvs => hsource vs (hvs.trans hus)
  | none =>
    simp only [Option.map_none]
    congr 1
    funext shape
    exact binding?_map hf hsource shape

end Source

/-! ### Any source texts -/

theorem name_binding?_map (text text' : Text) (shape shape' : Option String) (ts : List Token) :
    (binding? text' shape' (ts.map f)).map Parameter.name =
      (binding? text shape ts).map Parameter.name := by
  match ts with
  | [] | [_] | [_, _] => rfl
  | n :: e :: v :: vs =>
    simp only [List.map_cons, binding?, Token.isSymbol_of_skeleton (hf e),
      Token.identifier?_of_skeleton (hf n)]
    split_ifs
    · rw [Option.map_map, Option.map_map]
      rfl
    · rfl

theorem name_declarator?_map (text text' : Text) (ts : List Token) :
    (declarator? text' (ts.map f)).map Parameter.name =
      (declarator? text ts).map Parameter.name := by
  rw [declarator?_eq, declarator?_eq, head?_map hf]
  cases head? ts with
  | none => rfl
  | some h => exact name_binding?_map hf ..

theorem name_ofSegment?_map (text text' : Text) (o : Options)
    {inherited inherited' : Option (Option String)}
    (h : inherited'.isSome = inherited.isSome) (ts : List Token) :
    (ofSegment? text' o inherited' (ts.map f)).map Parameter.name =
      (ofSegment? text o inherited ts).map Parameter.name := by
  unfold ofSegment?
  rw [afterKeyword?_map hf]
  cases afterKeyword? o ts with
  | some us => exact name_declarator?_map hf ..
  | none =>
    cases inherited with
    | none =>
      cases inherited' with
      | none => rfl
      | some shape' => cases h
    | some shape =>
      cases inherited' with
      | none => cases h
      | some shape' => exact name_binding?_map hf ..

/-- **Tokens with the same skeletons declare parameters of the same names**, and as many of their
segments declare nothing. -/
theorem outline_outcomes_map (text text' : Text) (o : Options) : ∀ (ss : List (List Token))
    {inherited inherited' : Option (Option String)}, inherited'.isSome = inherited.isSome →
      let rs := outcomes text o inherited ss
      let rs' := outcomes text' o inherited' (ss.map (List.map f))
      Declared.outline ⟨accepted rs', rejected rs'⟩ = Declared.outline ⟨accepted rs, rejected rs⟩
  | [], _, _, _ => rfl
  | s :: ss, inherited, inherited', h => by
    have hname := name_ofSegment?_map hf text text' o h s
    rw [List.map_cons, outcomes, outcomes]
    cases hs : ofSegment? text o inherited s with
    | none =>
      rw [hs, Option.map_none, Option.map_eq_none_iff] at hname
      rw [hname]
      obtain ⟨hnames, hlength⟩ := Prod.mk.inj (outline_outcomes_map text text' o ss h)
      exact Prod.ext hnames (congrArg (· + 1) hlength)
    | some p =>
      rw [hs, Option.map_some] at hname
      obtain ⟨p', hp', hsame⟩ := Option.map_eq_some_iff.mp hname
      rw [hp']
      have hsome : (some p'.sizeOrType).isSome = (some p.sizeOrType).isSome := rfl
      obtain ⟨hnames, hlength⟩ := Prod.mk.inj (outline_outcomes_map text text' o ss hsome)
      exact Prod.ext (congrArg₂ List.cons hsame hnames) hlength

theorem segments_map (ts : List Token) :
    segments (ts.map f) = (segments ts).map (List.map f) := by
  unfold segments
  rw [runs_map hf, List.filter_map]
  congr 1
  refine List.filter_congr fun r _ => ?_
  rw [Function.comp_apply, List.isEmpty_map]

/-- **A statement with the same skeletons** declares parameters of the same names, or none as well.
-/
theorem rel_ofStatement?_map {text text' : Text}
    (hscan : Token.scan text' = (Token.scan text).map f) (o : Options) :
    Option.Rel (fun d d' => d'.outline = d.outline) (ofStatement? o text)
      (ofStatement? o text') := by
  unfold ofStatement?
  rw [hscan, segments_map hf]
  cases segments (Token.scan text) with
  | nil => exact .none
  | cons s ss =>
    have houtline := outline_outcomes_map hf text text' o (s :: ss)
      (rfl : (none : Option (Option String)).isSome = (none : Option (Option String)).isSome)
    rw [List.map_cons] at houtline
    simp only [List.map_cons, afterKeyword?_map hf, Option.isSome_map]
    split_ifs
    · exact .some houtline
    · exact .none

end Map

end DesignAtlas.Parameter
