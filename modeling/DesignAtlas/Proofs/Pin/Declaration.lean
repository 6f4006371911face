import DesignAtlas.Pin.Item
import DesignAtlas.Proofs.Token.Range

/-! # Pin declarations that are read

Tokens of the form

  [direction] [type] [signing] range* name

are read as the declaration that they are (`PinDecl.ofTokens?_of_parts`). A signing without a type
before it and with the name directly behind it is taken for a user type, which makes no difference to
the words of the type (`PinDecl.words_eq`). A token by itself is the name of a declaration, or the
run is none (`PinDecl.ofTokens?_singleton_iff`). -/

namespace DesignAtlas

namespace Token

variable {accept : String → List Token → Bool} {t : Token} {ts : List Token} {w : String}

theorem takeWord_of_accept (ht : t.identifier? = some w) (h : accept w ts = true) :
    takeWord accept (t :: ts) = ([w], ts) := by
  rw [takeWord]
  simp [ht, h]

theorem takeWord_of_refuse
    (h : ∀ t us, ts = t :: us → ∀ w, t.identifier? = some w → accept w us = false) :
    takeWord accept ts = ([], ts) := by
  unfold takeWord
  split
  · rfl
  · rename_i t us
    split
    · rename_i w hw
      rw [h t us rfl w hw, if_neg Bool.false_ne_true]
    · rfl

theorem takeWord_singleton (h : t.identifier? = some w) :
    takeWord accept [t] = if accept w [] then ([w], []) else ([], [t]) := by
  rw [takeWord]
  simp only [h]

end Token

open Token (IsRange)

namespace PinDecl

variable {direction type signing : Option Token} {ranges : List (List Token)} {label : Token}
  {rest : List Token} {name : String}

/-- The tokens begin with neither a type nor a signing. -/
def EndsType (ts : List Token) : Prop :=
  ∀ t us, ts = t :: us → ∀ w, t.identifier? = some w → isType w us = false ∧ isSigning w = false

/-- The type is a word that reads as a type where it stands. -/
def IsTypeBefore (type : Option Token) (ts : List Token) : Prop :=
  ∀ t ∈ type, ∃ w, t.identifier? = some w ∧ isType w ts = true

/-- The signing is a word for one. -/
def IsSigning (signing : Option Token) : Prop :=
  ∀ t ∈ signing, ∃ w, t.identifier? = some w ∧ isSigning w = true

/-! ### The words of a type -/

/-- **The words of the type** are read, and what follows them is left. -/
theorem words_eq (htype : IsTypeBefore type (signing.toList ++ rest)) (hsigning : IsSigning signing)
    (hrest : EndsType rest) :
    let types := Token.takeWord isType (type.toList ++ (signing.toList ++ rest))
    let signings := Token.takeWord (fun w _ => isSigning w) types.2
    types.1 ++ signings.1 = (type.toList ++ signing.toList).filterMap Token.identifier? ∧
      signings.2 = rest := by
  have htypes : Token.takeWord isType rest = ([], rest) :=
    Token.takeWord_of_refuse fun t us h w hw => (hrest t us h w hw).1
  have hsignings : Token.takeWord (fun w _ => isSigning w) rest = ([], rest) :=
    Token.takeWord_of_refuse fun t us h w hw => (hrest t us h w hw).2
  cases signing with
  | none =>
    cases type with
    | none => simp [htypes, hsignings]
    | some t =>
      obtain ⟨w, hw, ht⟩ := htype t rfl
      simp only [Option.toList_none, List.nil_append] at ht
      simp [Token.takeWord_of_accept hw ht, hsignings, hw]
  | some s =>
    obtain ⟨v, hv, hs⟩ := hsigning s rfl
    have hboth : Token.takeWord (fun w _ => isSigning w) (s :: rest) = ([v], rest) :=
      Token.takeWord_of_accept hv hs
    cases type with
    | some t =>
      obtain ⟨w, hw, ht⟩ := htype t rfl
      simp only [Option.toList_some, List.singleton_append] at ht
      simp [Token.takeWord_of_accept hw ht, hboth, hw, hv]
    | none =>
      -- directly before an identifier the signing itself is taken as the type
      by_cases ht : isType v rest = true
      · simp [Token.takeWord_of_accept hv ht, hsignings, hv]
      · have hnone : Token.takeWord isType (s :: rest) = ([], s :: rest) := by
          refine Token.takeWord_of_refuse fun t us h w hw => ?_
          cases h
          rw [hv] at hw
          cases hw
          simpa using ht
        simp [hnone, hboth, hv]

/-! ### What stands behind the words -/

theorem exists_of_range {r : List Token} (h : IsRange r) :
    ∃ t us, r = t :: us ∧ t.payload = .symbol .openBracket := by
  have hfirst := h.first
  cases r with
  | nil => cases hfirst
  | cons t us => exact ⟨t, us, rfl, by simpa [Token.isSymbol] using hfirst⟩

theorem endsType_ranges (hranges : ∀ r ∈ ranges, IsRange r) (hlabel : label.identifier? = some name)
    (htype : name ∉ netTypes) (hsigning : isSigning name = false) :
    EndsType (ranges.flatten ++ [label]) := by
  intro t us h w hw
  cases ranges with
  | nil =>
    cases h
    rw [hlabel] at hw
    cases hw
    exact ⟨by simp [isType, htype], hsigning⟩
  | cons r rs =>
    obtain ⟨u, vs, rfl, hu⟩ := exists_of_range (hranges r (by simp))
    cases h
    rw [Token.identifier?, hu] at hw
    cases hw

/-- Behind the direction stands no other. -/
theorem direction_of_head (htype : IsTypeBefore type (signing.toList ++ rest))
    (hsigning : IsSigning signing) (hranges : ∀ r ∈ ranges, IsRange r)
    (hlabel : label.identifier? = some name) :
    ∀ t ∈ (type.toList ++ (signing.toList ++ (ranges.flatten ++ [label]))).head?,
      Direction.ofPayload? t.payload = none := by
  have hword : ∀ {t : Token} {w : String}, t.identifier? = some w →
      Direction.ofPayload? t.payload = none := by
    intro t w hw
    unfold Token.identifier? Payload.identifier? at hw
    split at hw
    · rename_i hp
      rw [hp]
      rfl
    · cases hw
  intro t ht
  cases type with
  | some u =>
    obtain ⟨w, hw, -⟩ := htype u rfl
    cases ht
    exact hword hw
  | none =>
    cases signing with
    | some u =>
      obtain ⟨w, hw, -⟩ := hsigning u rfl
      cases ht
      exact hword hw
    | none =>
      cases ranges with
      | nil =>
        cases ht
        exact hword hlabel
      | cons r rs =>
        obtain ⟨u, us, rfl, hu⟩ := exists_of_range (hranges r (by simp))
        cases ht
        rw [hu]
        rfl

theorem takeDirection_append (hdirection : ∀ t ∈ direction,
    (Direction.ofPayload? t.payload).isSome = true)
    (hrest : ∀ t ∈ rest.head?, Direction.ofPayload? t.payload = none) :
    takeDirection (direction.toList ++ rest) =
      (direction.bind fun t => Direction.ofPayload? t.payload, rest) := by
  cases direction with
  | some t =>
    obtain ⟨d, hd⟩ := Option.isSome_iff_exists.mp (hdirection t rfl)
    simp [takeDirection, hd]
  | none =>
    cases rest with
    | nil => rfl
    | cons t ts => simp [takeDirection, hrest t rfl]

/-! ### The whole declaration -/

/-- **A declaration is read part by part.** -/
theorem ofTokens?_of_parts (text : Text)
    (hdirection : ∀ t ∈ direction, (Direction.ofPayload? t.payload).isSome = true)
    (htype : IsTypeBefore type (signing.toList ++ (ranges.flatten ++ [label])))
    (hsigning : IsSigning signing) (hranges : ∀ r ∈ ranges, IsRange r)
    (hlabel : label.identifier? = some name) (hnotype : name ∉ netTypes)
    (hnosigning : isSigning name = false) :
    ofTokens? text (direction.toList ++
        (type.toList ++ (signing.toList ++ (ranges.flatten ++ [label])))) =
      some ⟨direction.bind fun t => Direction.ofPayload? t.payload,
        typeText ((type.toList ++ signing.toList).filterMap Token.identifier?),
        Token.rangeText text ranges.flatten, name⟩ := by
  have hdir := takeDirection_append hdirection
    (direction_of_head htype hsigning hranges hlabel)
  obtain ⟨hwords, hrest⟩ := words_eq htype hsigning
    (endsType_ranges hranges hlabel hnotype hnosigning)
  have hnobracket : ¬ [label].head?.any (Token.isSymbol .openBracket) = true :=
    Token.not_isSymbol_of_identifier hlabel _
  unfold ofTokens?
  simp only [hdir, hrest, hwords, Token.takeRanges?_append_ranges hranges hnobracket, hlabel,
    Option.map_some]

/-! ### A token by itself -/

theorem direction_of_ofTokens? {text : Text} {t : Token} {d : PinDecl}
    (h : ofTokens? text [t] = some d) : takeDirection [t] = (none, [t]) := by
  unfold ofTokens? at h
  cases hd : Direction.ofPayload? t.payload with
  | none => simp [takeDirection, hd]
  | some d' => simp [takeDirection, hd, Token.takeWord, Token.takeRanges?] at h

/-- **A single token is a declaration** exactly when it is an identifier that is neither a net type
nor a word for signing. It declares its name and nothing else. -/
theorem ofTokens?_singleton_iff {text : Text} {t : Token} {d : PinDecl} :
    ofTokens? text [t] = some d ↔ ∃ w, t.identifier? = some w ∧ w ∉ netTypes ∧
      isSigning w = false ∧ d = ⟨none, none, none, w⟩ := by
  constructor
  · intro h
    have hdirection := direction_of_ofTokens? h
    unfold ofTokens? at h
    simp only [hdirection] at h
    cases hid : t.identifier? with
    | none =>
      have hword : ∀ accept, Token.takeWord accept [t] = ([], [t]) := by
        intro accept
        simp [Token.takeWord, hid]
      by_cases hb : t.isSymbol .openBracket = true
      · simp [hword, Token.takeRanges?, hb] at h
      · simp [hword, Token.takeRanges?, hb, hid] at h
    | some w =>
      have hword : ∀ accept, Token.takeWord accept [t] =
          if accept w [] then ([w], []) else ([], [t]) := fun accept => Token.takeWord_singleton hid
      have hnil : ∀ accept, Token.takeWord accept [] = ([], []) := fun accept => rfl
      have htype : isType w [] = netTypes.contains w := Bool.or_false _
      by_cases hnet : w ∈ netTypes
      · simp [hword, htype, hnet, hnil, Token.takeRanges?] at h
      by_cases hsigning : isSigning w = true
      · simp [hword, htype, hnet, hsigning, Token.takeRanges?] at h
      · -- an identifier opens no range, so the token is left for the name
        have hbracket := Token.not_isSymbol_of_identifier hid .openBracket
        simp only [hword, htype, List.contains_eq_mem, hnet, hsigning, Token.takeRanges?, hbracket,
          hid, decide_false, Bool.false_eq_true, if_false, Option.map_some, List.append_nil,
          Option.some_inj] at h
        exact ⟨w, rfl, hnet, by simpa using hsigning, h.symm⟩
  · rintro ⟨w, hid, hnet, hsigning, rfl⟩
    exact @ofTokens?_of_parts none none none [] t w text (by simp) (fun _ h => by cases h)
      (fun _ h => by cases h) (by simp) hid hnet hsigning

end PinDecl

end DesignAtlas
