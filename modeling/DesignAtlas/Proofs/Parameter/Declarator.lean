import DesignAtlas.Proofs.Parameter.Value

/-! # Declarators that are read

Tokens of the form

  [type] [signing] range* name = value

are read as the declarator that they are (`Parameter.declarator?_of_parts`). A signing without a type
before it is always taken for the type, which makes no difference to the words
(`Parameter.words_eq`). -/

namespace DesignAtlas.Parameter

open Token (IsRange)

variable {type signing : Option Token} {ranges : List (List Token)} {label equals : Token}
  {rest : List Token} {name : String}

/-- The tokens begin with a word or a square bracket, but with neither a type nor a signing. -/
structure EndsWords (ts : List Token) : Prop where
  behind : isType ts = true
  ends : ∀ t us, ts = t :: us → ∀ w, t.identifier? = some w → isType us = false ∧ isSigning w = false

/-- The type is a word that tells no signing. -/
def IsTypeWord (type : Option Token) : Prop :=
  ∀ t ∈ type, ∃ w, t.identifier? = some w ∧ isSigning w = false

/-- **The words before the ranges** are read, and what follows them is left. -/
theorem words_eq (htype : IsTypeWord type) (hsigning : PinDecl.IsSigning signing)
    (hrest : EndsWords rest) :
    let types := Token.takeWord (fun _ us => isType us) (type.toList ++ (signing.toList ++ rest))
    let signings := Token.takeWord (fun w _ => isSigning w && !types.1.contains w) types.2
    types.1 ++ signings.1 = (type.toList ++ signing.toList).filterMap Token.identifier? ∧
      signings.2 = rest := by
  have htypes : Token.takeWord (fun _ us => isType us) rest = ([], rest) :=
    Token.takeWord_of_refuse fun t us h w hw => (hrest.ends t us h w hw).1
  have hsignings : ∀ ws : List String,
      Token.takeWord (fun w _ => isSigning w && !ws.contains w) rest = ([], rest) := fun ws =>
    Token.takeWord_of_refuse fun t us h w hw => by simp [(hrest.ends t us h w hw).2]
  cases type with
  | none =>
    cases signing with
    | none =>
      simp only [Option.toList_none, List.nil_append, htypes, hsignings, List.filterMap_nil,
        and_self]
    | some s =>
      -- the signing is taken as the type: a word or a bracket stands behind it
      obtain ⟨v, hv, -⟩ := hsigning s rfl
      have htake : Token.takeWord (fun _ us => isType us) (s :: rest) = ([v], rest) :=
        Token.takeWord_of_accept hv hrest.behind
      simp only [Option.toList_none, Option.toList_some, List.nil_append, List.singleton_append,
        htake, hsignings]
      simp [hv]
  | some t =>
    obtain ⟨w, hw, hno⟩ := htype t rfl
    cases signing with
    | none =>
      have htake : Token.takeWord (fun _ us => isType us) (t :: rest) = ([w], rest) :=
        Token.takeWord_of_accept hw hrest.behind
      simp only [Option.toList_none, Option.toList_some, List.nil_append, List.singleton_append,
        htake, hsignings]
      simp [hw]
    | some s =>
      obtain ⟨v, hv, hs⟩ := hsigning s rfl
      have hbehind : isType (s :: rest) = true := by simp [isType, hv]
      have htake : Token.takeWord (fun _ us => isType us) (t :: s :: rest) = ([w], s :: rest) :=
        Token.takeWord_of_accept hw hbehind
      have hne : v ≠ w := by
        rintro rfl
        rw [hs] at hno
        cases hno
      have hboth : Token.takeWord (fun v _ => isSigning v && !([w] : List String).contains v)
          (s :: rest) = ([v], rest) := Token.takeWord_of_accept hv (by simp [hs, hne])
      simp only [Option.toList_some, List.singleton_append, htake, hboth]
      simp [hw, hv]

/-- Ranges and a name before an equals sign end the words. -/
theorem endsWords_ranges (hranges : ∀ r ∈ ranges, IsRange r) (hlabel : label.identifier? = some name)
    (hsigning : isSigning name = false) (hequals : equals.payload = .symbol .equals)
    (us : List Token) : EndsWords (ranges.flatten ++ label :: equals :: us) := by
  cases ranges with
  | nil =>
    refine ⟨by simp [isType, hlabel], fun t us' h w hw => ?_⟩
    obtain ⟨rfl, rfl⟩ := List.cons.inj h
    rw [hlabel] at hw
    cases hw
    refine ⟨?_, hsigning⟩
    simp [isType, Token.identifier?, Token.isSymbol, hequals, Payload.identifier?]
  | cons r rs =>
    obtain ⟨t, us', rfl, ht⟩ := PinDecl.exists_of_range (hranges r (by simp))
    refine ⟨by simp [isType, Token.isSymbol, ht], fun u vs h w hw => ?_⟩
    obtain ⟨rfl, -⟩ := List.cons.inj h
    rw [Token.identifier?, ht] at hw
    cases hw

/-- The tokens behind a keyword in front. -/
theorem afterKeyword?_cons {o : Options} {k : Token} {us : List Token} (hk : isKeyword o k = true) :
    afterKeyword? o (k :: us) = some us := by
  unfold afterKeyword?
  rw [List.dropWhile_cons_of_neg (by simp [hk])]

theorem binding?_of_parts (text : Text) (shape : Option String)
    (hlabel : label.identifier? = some name) (hequals : equals.payload = .symbol .equals)
    {value : List Token} (hvalue : value ≠ []) :
    binding? text shape (label :: equals :: value) = some ⟨name, shape, valueOf text value⟩ := by
  obtain ⟨v, vs, rfl⟩ := List.exists_cons_of_ne_nil hvalue
  rw [binding?, if_pos (by simp [Token.isSymbol, hequals]), hlabel]
  rfl

/-- **A declarator is read part by part.** -/
theorem declarator?_of_parts (text : Text) (htype : IsTypeWord type)
    (hsigning : PinDecl.IsSigning signing) (hranges : ∀ r ∈ ranges, IsRange r)
    (hlabel : label.identifier? = some name) (hnosigning : isSigning name = false)
    (hequals : equals.payload = .symbol .equals) {value : List Token} (hvalue : value ≠ []) :
    declarator? text (type.toList ++
        (signing.toList ++ (ranges.flatten ++ label :: equals :: value))) =
      some ⟨name, (Token.rangeText text ranges.flatten).or
          (typeText ((type.toList ++ signing.toList).filterMap Token.identifier?)),
        valueOf text value⟩ := by
  obtain ⟨hwords, hrest⟩ := words_eq htype hsigning
    (endsWords_ranges hranges hlabel hnosigning hequals value)
  have hnobracket : ¬ (label :: equals :: value).head?.any (Token.isSymbol .openBracket) = true :=
    Token.not_isSymbol_of_identifier hlabel _
  unfold declarator?
  simp only [hrest, hwords, Token.takeRanges?_append_ranges hranges hnobracket]
  exact binding?_of_parts text _ hlabel hequals hvalue

end DesignAtlas.Parameter
