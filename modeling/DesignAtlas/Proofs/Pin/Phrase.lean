import DesignAtlas.Pin.List
import DesignAtlas.Proofs.Checked.Pin
import DesignAtlas.Proofs.Pin.Declaration
import DesignAtlas.Proofs.Pin.Items

/-! # Which pin phrases are recognised

A pin phrase is a text of the form

  [direction] [type] [signing] range* name

with any layout. A pin list that is one phrase is recognised when it gives exactly the pin that the
phrase states and no diagnostic. That is so unless a range holds a comma or a directive, or a user
type stands directly before a range (`PinList.recognises_iff`): the list is cut into items before
ranges are read, and a user type is told by the identifier behind it.

A run of tokens that opens more brackets than it closes is no declaration (`PinDecl.net_eq_zero`),
so the piece before such a comma or directive is reported. -/

namespace DesignAtlas

/-! ### Brackets that are left open -/

namespace Token

/-- How many more square brackets are opened than closed. -/
def net (ts : List Token) : Int := bracketsOpened ts - bracketsClosed ts

variable {t : Token} {ts us : List Token}

@[simp] theorem net_nil : net [] = 0 := rfl

@[simp] theorem net_append : net (ts ++ us) = net ts + net us := by
  simp only [net, bracketsOpened, bracketsClosed, List.countP_append]
  omega

theorem net_cons_open (h : t.isSymbol .openBracket = true) : net (t :: ts) = net ts + 1 := by
  rw [net, net, bracketsOpened_cons, bracketsClosed_cons, if_pos h, if_neg (not_closeBracket h)]
  omega

theorem net_cons_close (h : t.isSymbol .closeBracket = true) : net (t :: ts) = net ts - 1 := by
  have hopen : ¬ t.isSymbol .openBracket = true := fun ho => not_closeBracket ho h
  rw [net, net, bracketsOpened_cons, bracketsClosed_cons, if_pos h, if_neg hopen]
  omega

theorem net_cons_other (ho : ¬ t.isSymbol .openBracket = true)
    (hc : ¬ t.isSymbol .closeBracket = true) : net (t :: ts) = net ts := by
  rw [net, net, bracketsOpened_cons, bracketsClosed_cons, if_neg ho, if_neg hc]
  rfl

theorem net_of_identifier {w : String} (h : t.identifier? = some w) : net (t :: ts) = net ts :=
  net_cons_other (not_isSymbol_of_identifier h _) (not_isSymbol_of_identifier h _)

theorem IsRange.net_eq_zero (h : IsRange ts) : net ts = 0 := by
  rw [net, h.even]
  omega

/-- **Ranges that are taken off** close what they open and the brackets open before them. -/
theorem net_of_takeRanges? {depth : Nat} {ranges rest : List Token}
    (h : takeRanges? depth ts = some (ranges, rest)) : net ranges = -depth := by
  induction ts generalizing depth ranges with
  | nil =>
    unfold takeRanges? at h
    split_ifs at h with hd
    cases h
    simp [hd]
  | cons t ts ih =>
    unfold takeRanges? at h
    by_cases ho : t.isSymbol .openBracket = true
    · rw [if_pos ho] at h
      obtain ⟨⟨us, rest'⟩, hr, heq⟩ := Option.map_eq_some_iff.mp h
      cases heq
      rw [net_cons_open ho, ih hr]
      omega
    rw [if_neg ho] at h
    cases depth with
    | zero =>
      cases h
      rfl
    | succ d =>
      obtain ⟨⟨us, rest'⟩, hr, heq⟩ := Option.map_eq_some_iff.mp h
      cases heq
      have hus := ih hr
      by_cases hc : t.isSymbol .closeBracket = true
      · rw [if_pos hc] at hus
        rw [net_cons_close hc, hus]
        omega
      · rw [if_neg hc] at hus
        rw [net_cons_other ho hc, hus]

theorem net_takeWord (accept : String → List Token → Bool) (ts : List Token) :
    net (takeWord accept ts).2 = net ts := by
  unfold takeWord
  split
  · rfl
  · split
    · rename_i w hw
      split_ifs
      · exact (net_of_identifier hw).symm
      · rfl
    · rfl

end Token

namespace PinDecl

open Token (net)

variable {text : Text} {ts : List Token} {d : PinDecl}

theorem net_takeDirection (ts : List Token) : net (takeDirection ts).2 = net ts := by
  unfold takeDirection
  split
  · rfl
  · rename_i t ts
    split
    · rename_i d hd
      have hsymbol : ∀ s : Symbol, ¬ t.isSymbol s = true := by
        intro s hs
        rw [eq_of_beq hs] at hd
        cases hd
      exact (Token.net_cons_other (hsymbol _) (hsymbol _)).symm
    · rfl

/-- **A declaration leaves no bracket open.** -/
theorem net_eq_zero (h : ofTokens? text ts = some d) : net ts = 0 := by
  unfold ofTokens? at h
  simp only at h
  split at h
  · rename_i ranges t hranges
    obtain ⟨name, hname, -⟩ := Option.map_eq_some_iff.mp h
    have hsplit := Token.takeRanges?_append hranges
    calc net ts = net (Token.takeWord (fun w _ => isSigning w)
          (Token.takeWord isType (takeDirection ts).2).2).2 := by
          rw [Token.net_takeWord, Token.net_takeWord, net_takeDirection]
      _ = net ranges + net [t] := by rw [← hsplit, Token.net_append]
      _ = 0 := by rw [Token.net_of_takeRanges? hranges, Token.net_of_identifier hname]; rfl
  · cases h

end PinDecl

/-! ### Where a list is cut -/

namespace PinItem

open Token (net IsRange)

variable {t : Token} {ts us : List Token}

/-- **A run before a token that does not join** is the first item. -/
theorem exists_ofTokens_cut (hne : ts ≠ []) (h : ∀ u ∈ ts, joins u.payload = true)
    (ht : joins t.payload = false) (us : List Token) :
    ∃ items, ofTokens (ts ++ t :: us) = .declaration ts :: items := by
  have hcut : ∀ s : List Token × List PinItem, ∃ items, step t s = ([], items) := by
    intro s
    unfold step
    split
    · exact ⟨_, rfl⟩
    · exact ⟨_, rfl⟩
    · unfold joins at ht
      split at ht <;> simp_all
  obtain ⟨items, hitems⟩ := hcut (us.foldr step ([], []))
  refine ⟨items, ?_⟩
  simp only [ofTokens, List.foldr_append, List.foldr_cons, hitems, foldr_step_of_joins h]
  simp [ofRun, hne]

/-- The tokens of ranges before the first that does not join leave a bracket open. -/
theorem net_takeWhile_pos : ∀ {rs : List (List Token)}, (∀ r ∈ rs, IsRange r) →
    (∃ r ∈ rs, ∃ t ∈ r, joins t.payload = false) → ∀ us : List Token,
      0 < net ((rs.flatten ++ us).takeWhile (joins ∘ Token.payload))
  | [], _, h, _ => by
    obtain ⟨r, hr, -⟩ := h
    cases hr
  | r :: rs, hrange, h, us => by
    have hr := hrange r List.mem_cons_self
    rw [List.flatten_cons, List.append_assoc]
    by_cases hall : ∀ t ∈ r, (joins ∘ Token.payload) t = true
    · have hlater : ∃ s ∈ rs, ∃ t ∈ s, joins t.payload = false := by
        obtain ⟨s, hs, t, ht, hj⟩ := h
        rcases List.mem_cons.mp hs with rfl | hs
        · exact absurd (hall t ht) (by simp [hj])
        · exact ⟨s, hs, t, ht, hj⟩
      have ih := net_takeWhile_pos (fun s hs => hrange s (List.mem_cons_of_mem r hs)) hlater us
      rw [List.takeWhile_append_of_pos hall, Token.net_append, hr.net_eq_zero]
      omega
    · -- the range is cut inside, where its first bracket is open
      have hcut : r.takeWhile (joins ∘ Token.payload) ≠ r := fun he =>
        hall fun t ht => List.mem_takeWhile_imp (he.symm ▸ ht)
      have hlt : (r.takeWhile (joins ∘ Token.payload)).length ≠ r.length := fun hl =>
        hcut ((List.takeWhile_prefix _).eq_of_length hl)
      have hne : r.takeWhile (joins ∘ Token.payload) ≠ [] := by
        obtain ⟨t, ts, rfl, ht⟩ := PinDecl.exists_of_range hr
        have hjoins : (joins ∘ Token.payload) t = true := by rw [Function.comp, ht]; rfl
        rw [List.takeWhile_cons_of_pos hjoins]
        exact List.cons_ne_nil _ _
      have hinside := hr.inside _ (List.takeWhile_prefix (joins ∘ Token.payload)) hne hcut
      rw [List.takeWhile_append, if_neg hlt, net]
      omega

end PinItem

/-! ### A list of one item -/

namespace PinList

variable {module : String} {o : Options} {text : Text} {run : List Token} {d : PinDecl}

theorem diagnostics_prefix_step (s : PinList) (item : PinItem) :
    s.diagnostics <+: (s.step module text item).diagnostics := by
  cases item with
  | directive e =>
    simp only [step, stepDirective]
    split_ifs
    · exact List.prefix_append _ _
    · exact List.prefix_refl _
  | declaration ts =>
    simp only [step]
    split
    · exact List.prefix_refl _
    · exact List.prefix_append _ _

/-- **Reading items only adds diagnostics.** -/
theorem diagnostics_prefix_foldl : ∀ (items : List PinItem) (s : PinList),
    s.diagnostics <+: (items.foldl (step module text) s).diagnostics
  | [], _ => List.prefix_refl _
  | item :: items, s =>
    (diagnostics_prefix_step s item).trans (diagnostics_prefix_foldl items _)

/-- A first item that is no declaration is reported. -/
theorem diagnostics_ne_nil {items : List PinItem}
    (hitems : PinItem.ofTokens (Token.scan text) = .declaration run :: items)
    (hrun : PinDecl.ofTokens? text run = none) : (ofText module o text).diagnostics ≠ [] := by
  unfold ofText
  rw [hitems, List.foldl_cons, step, hrun]
  generalize (⟨ConditionStack.empty o.elsePolicy, none, Roster.empty, []⟩ : PinList) = s
  intro hnil
  have hprefix : (stepUnknown module text s run).diagnostics <+:
      (items.foldl (step module text) (stepUnknown module text s run)).diagnostics :=
    diagnostics_prefix_foldl items _
  rw [hnil, stepUnknown, List.prefix_nil] at hprefix
  exact List.append_ne_nil_of_right_ne_nil _ (List.cons_ne_nil _ []) hprefix

/-- Without a pattern a pin is as its declaration says. -/
theorem pinOf_none (conditionals : List String) (d : PinDecl) :
    pinOf none conditionals d = d.pin conditionals := by
  unfold pinOf
  split_ifs with hq
  · rfl
  · obtain ⟨direction, dataType, size, name⟩ := d
    simp only [PinDecl.isQualified, Bool.or_eq_true, not_or, Option.not_isSome_iff_eq_none] at hq
    obtain ⟨⟨rfl, rfl⟩, rfl⟩ := hq
    rfl

/-- **A list of one declaration** gives the declared pin. -/
theorem ofText_of_declaration
    (hitems : PinItem.ofTokens (Token.scan text) = [.declaration run])
    (hrun : PinDecl.ofTokens? text run = some d) :
    (ofText module o text).pins = ⟨[d.pin []]⟩ ∧ (ofText module o text).diagnostics = [] := by
  have hread : ofText module o text =
      stepDecl ⟨ConditionStack.empty o.elsePolicy, none, Roster.empty, []⟩ d := by
    unfold ofText
    rw [hitems, List.foldl_cons, step, hrun]
    rfl
  rw [hread]
  refine ⟨?_, rfl⟩
  show Roster.empty.put (pinOf none [] d) = _
  rw [pinOf_none]
  rfl

end PinList

/-! ### Phrases -/

/-- The parts of a text that reads `[direction] [type] [signing] range* name`, as its tokens. -/
structure PinPhrase (text : Text) where
  direction : Option Token
  /-- A net type or a user type. -/
  type : Option Token
  signing : Option Token
  ranges : List (List Token)
  label : Token
  name : String
  scan_eq : Token.scan text = direction.toList ++
    (type.toList ++ (signing.toList ++ (ranges.flatten ++ [label])))
  statesDirection : ∀ t ∈ direction, (Direction.ofPayload? t.payload).isSome = true
  namesType : ∀ t ∈ type, ∃ w, t.identifier? = some w ∧ isSigning w = false
  namesSigning : PinDecl.IsSigning signing
  isRange : ∀ r ∈ ranges, Token.IsRange r
  isName : label.identifier? = some name
  noNetType : name ∉ netTypes
  noSigning : isSigning name = false

namespace PinPhrase

variable {text : Text} (p : PinPhrase text)

/-- The words of the type. -/
def typeWords : List String := (p.type.toList ++ p.signing.toList).filterMap Token.identifier?

/-- The source text of the ranges without its blanks; none when there are no ranges. -/
def size : Option String :=
  if p.ranges.isEmpty then none
  else some (String.ofList (p.ranges.flatMap fun r => Text.squeeze (Token.sourceOf text r)))

/-- What the phrase states. -/
def decl : PinDecl :=
  ⟨p.direction.bind fun t => Direction.ofPayload? t.payload, typeText p.typeWords, p.size, p.name⟩

/-- The type is one that the user has defined. -/
def HasUserType : Prop := ∃ t ∈ p.type, ∃ w, t.identifier? = some w ∧ w ∉ netTypes

/-- No range holds a comma or a directive. -/
def Joined : Prop := ∀ r ∈ p.ranges, ∀ t ∈ r, PinItem.joins t.payload = true

/-- A user type stands directly before a range. -/
def TypeBeforeRange : Prop := p.HasUserType ∧ p.signing = none ∧ p.ranges ≠ []

/-! ### The tokens of a phrase -/

/-- The tokens before the ranges. -/
def front : List Token := p.direction.toList ++ (p.type.toList ++ p.signing.toList)

theorem scan_eq_front : Token.scan text = p.front ++ (p.ranges.flatten ++ [p.label]) := by
  rw [p.scan_eq, front]
  simp only [List.append_assoc]

theorem joins_of_identifier {t : Token} {w : String} (h : t.identifier? = some w) :
    PinItem.joins t.payload = true := by
  unfold PinItem.joins
  split
  · rename_i hp
    rw [Token.identifier?, hp] at h
    cases h
  · rename_i hp
    rw [Token.identifier?, hp] at h
    cases h
  · rfl

theorem direction_of_identifier {t : Token} {w : String} (h : t.identifier? = some w) :
    Direction.ofPayload? t.payload = none := by
  unfold Token.identifier? Payload.identifier? at h
  split at h
  · rename_i hp
    rw [hp]
    rfl
  · cases h

theorem net_of_identifiers : ∀ {ts : List Token}, (∀ t ∈ ts, ∃ w, t.identifier? = some w) →
    Token.net ts = 0
  | [], _ => rfl
  | t :: ts, h => by
    obtain ⟨w, hw⟩ := h t List.mem_cons_self
    rw [Token.net_of_identifier hw,
      net_of_identifiers fun u hu => h u (List.mem_cons_of_mem t hu)]

theorem identifier_of_mem_words : ∀ t ∈ p.type.toList ++ p.signing.toList,
    ∃ w, t.identifier? = some w := by
  intro t ht
  rcases List.mem_append.mp ht with ht | ht
  · obtain ⟨w, hw, -⟩ := p.namesType t (Option.mem_toList.mp ht)
    exact ⟨w, hw⟩
  · obtain ⟨w, hw, -⟩ := p.namesSigning t (Option.mem_toList.mp ht)
    exact ⟨w, hw⟩

theorem joins_front : ∀ t ∈ p.front, PinItem.joins t.payload = true := by
  intro t ht
  rcases List.mem_append.mp ht with ht | ht
  · have hd := p.statesDirection t (Option.mem_toList.mp ht)
    unfold PinItem.joins
    split
    · simp_all [Direction.ofPayload?]
    · simp_all [Direction.ofPayload?]
    · rfl
  · obtain ⟨w, hw⟩ := p.identifier_of_mem_words t ht
    exact joins_of_identifier hw

theorem net_front : Token.net p.front = 0 := by
  rw [front, Token.net_append, net_of_identifiers p.identifier_of_mem_words]
  have hdirection := p.statesDirection
  cases hd : p.direction with
  | none => rfl
  | some t =>
    have ht := PinDecl.net_takeDirection [t]
    obtain ⟨d, hdir⟩ := Option.isSome_iff_exists.mp (hdirection t (by rw [hd]; rfl))
    rw [PinDecl.takeDirection, hdir] at ht
    rw [Option.toList_some, ← ht]
    rfl

theorem squeeze_sourceOf_flatten : ∀ {rs : List (List Token)}, rs.flatten <:+: Token.scan text →
    Text.squeeze (Token.sourceOf text rs.flatten) =
      rs.flatMap fun r => Text.squeeze (Token.sourceOf text r)
  | [], _ => rfl
  | r :: rs, h => by
    rw [List.flatten_cons] at h ⊢
    rw [Token.squeeze_sourceOf_append h, List.flatMap_cons,
      squeeze_sourceOf_flatten ((List.suffix_append r _).isInfix.trans h)]

/-- The ranges taken together have the text of all of them. -/
theorem rangeText_ranges : Token.rangeText text p.ranges.flatten = p.size := by
  have hempty : p.ranges.flatten.isEmpty = p.ranges.isEmpty := by
    cases hr : p.ranges with
    | nil => rfl
    | cons r rs =>
      obtain ⟨t, us, rfl, -⟩ := PinDecl.exists_of_range (p.isRange r (by simp [hr]))
      rfl
  have hinfix : p.ranges.flatten <:+: Token.scan text :=
    ⟨p.front, [p.label], by rw [p.scan_eq_front, List.append_assoc]⟩
  rw [Token.rangeText, size, hempty, squeeze_sourceOf_flatten hinfix]

/-! ### Reading a phrase -/

theorem ofTokens_of_joined (h : p.Joined) :
    PinItem.ofTokens (Token.scan text) = [.declaration (Token.scan text)] := by
  refine PinItem.ofTokens_of_joins (by simp [p.scan_eq]) fun t ht => ?_
  rw [p.scan_eq_front] at ht
  rcases List.mem_append.mp ht with ht | ht
  · exact p.joins_front t ht
  rcases List.mem_append.mp ht with ht | ht
  · obtain ⟨r, hr, ht⟩ := List.mem_flatten.mp ht
    exact h r hr t ht
  · rw [List.mem_singleton.mp ht]
    exact joins_of_identifier p.isName

/-- **A phrase is read part by part** when its type is told by what follows it. -/
theorem ofTokens?_eq_decl (h : ¬ p.TypeBeforeRange) :
    PinDecl.ofTokens? text (Token.scan text) = some p.decl := by
  have htype :
      PinDecl.IsTypeBefore p.type (p.signing.toList ++ (p.ranges.flatten ++ [p.label])) := by
    intro t ht
    obtain ⟨w, hw, -⟩ := p.namesType t ht
    refine ⟨w, hw, ?_⟩
    by_cases hnet : w ∈ netTypes
    · simp [PinDecl.isType, hnet]
    · -- a user type has the signing or the name behind it
      have huser : p.HasUserType := ⟨t, ht, w, hw, hnet⟩
      cases hs : p.signing with
      | some s =>
        obtain ⟨v, hv, -⟩ := p.namesSigning s hs
        simp [PinDecl.isType, hv]
      | none =>
        have hr : p.ranges = [] := by
          by_contra hr
          exact h ⟨huser, hs, hr⟩
        simp [PinDecl.isType, hr, p.isName]
  rw [p.scan_eq, PinDecl.ofTokens?_of_parts text p.statesDirection htype p.namesSigning p.isRange
    p.isName p.noNetType p.noSigning, p.rangeText_ranges]
  rfl

/-- A user type directly before a range is not told as one, and tokens follow it. -/
theorem ofTokens?_of_typeBeforeRange (h : p.TypeBeforeRange) :
    PinDecl.ofTokens? text (Token.scan text) = none := by
  obtain ⟨⟨t, ht, w, hw, hnet⟩, hsigning, hranges⟩ := h
  obtain ⟨v, hv, hnosigning⟩ := p.namesType t ht
  obtain rfl : w = v := Option.some.inj (hw.symm.trans hv)
  obtain ⟨r, rs, hr⟩ := List.exists_cons_of_ne_nil hranges
  obtain ⟨u, us, rfl, hu⟩ := PinDecl.exists_of_range (p.isRange r (by simp [hr]))
  let rest := us ++ (rs.flatten ++ [p.label])
  have hscan : Token.scan text = p.direction.toList ++ (t :: u :: rest) := by
    rw [p.scan_eq, ht, hsigning, hr]
    simp [rest]
  have hu' : u.identifier? = none := by rw [Token.identifier?, hu]; rfl
  have hhead : ∀ t' ∈ (t :: u :: rest).head?, Direction.ofPayload? t'.payload = none := by
    rintro _ ⟨⟩
    exact direction_of_identifier hw
  have hdirection := PinDecl.takeDirection_append p.statesDirection hhead
  have htype : Token.takeWord PinDecl.isType (t :: u :: rest) = ([], t :: u :: rest) := by
    refine Token.takeWord_of_refuse fun t' us' he w' hw' => ?_
    cases he
    obtain rfl : w = w' := Option.some.inj (hw.symm.trans hw')
    simp [PinDecl.isType, hnet, hu']
  have hsign : Token.takeWord (fun w _ => isSigning w) (t :: u :: rest) =
      ([], t :: u :: rest) := by
    refine Token.takeWord_of_refuse fun t' us' he w' hw' => ?_
    cases he
    obtain rfl : w = w' := Option.some.inj (hw.symm.trans hw')
    exact hnosigning
  have hopen : ¬ (t :: u :: rest).head?.any (Token.isSymbol .openBracket) = true := by
    intro ho
    have hp : t.payload = .symbol .openBracket := by simpa [Token.isSymbol] using ho
    rw [Token.identifier?, hp] at hw
    cases hw
  unfold PinDecl.ofTokens?
  simp only [hscan, hdirection, htype, hsign, Checked.takeRanges?_of_not_open hopen]

/-- **A range that does not join leaves an item that is no declaration** in front. -/
theorem exists_unknown (h : ¬ p.Joined) : ∃ run items,
    PinItem.ofTokens (Token.scan text) = .declaration run :: items ∧
      PinDecl.ofTokens? text run = none := by
  have hcut : ∃ r ∈ p.ranges, ∃ t ∈ r, PinItem.joins t.payload = false := by
    simpa [Joined] using h
  have hnet := PinItem.net_takeWhile_pos p.isRange hcut [p.label]
  set test : Token → Bool := PinItem.joins ∘ Token.payload with htest
  have hfront : (Token.scan text).takeWhile test =
      p.front ++ (p.ranges.flatten ++ [p.label]).takeWhile test := by
    rw [p.scan_eq_front]
    exact List.takeWhile_append_of_pos p.joins_front
  have hrun : 0 < Token.net ((Token.scan text).takeWhile test) := by
    rw [hfront, Token.net_append, p.net_front]
    omega
  have hne : (Token.scan text).takeWhile test ≠ [] := by
    intro hnil
    rw [hnil] at hrun
    cases hrun
  obtain ⟨t, us, hdrop⟩ : ∃ t us, (Token.scan text).dropWhile test = t :: us := by
    refine List.exists_cons_of_ne_nil fun hnil => ?_
    obtain ⟨r, hr, t, ht, hj⟩ := hcut
    have hmem : t ∈ Token.scan text := by
      rw [p.scan_eq_front]
      exact List.mem_append_right _ (List.mem_append_left _ (List.mem_flatten.mpr ⟨r, hr, ht⟩))
    have hjoins : PinItem.joins t.payload = true := List.dropWhile_eq_nil_iff.mp hnil t hmem
    rw [hj] at hjoins
    cases hjoins
  have hstop : PinItem.joins t.payload = false := by
    have := List.head?_dropWhile_not test (Token.scan text)
    rw [hdrop] at this
    simpa [htest] using this
  obtain ⟨items, hitems⟩ := PinItem.exists_ofTokens_cut hne
    (fun u hu => List.mem_takeWhile_imp (p := test) hu) hstop us
  rw [← hdrop, List.takeWhile_append_dropWhile] at hitems
  refine ⟨_, items, hitems, Option.eq_none_iff_forall_ne_some.mpr fun d hd => ?_⟩
  rw [PinDecl.net_eq_zero hd] at hrun
  cases hrun

end PinPhrase

/-- **Which pin phrases are recognised.** A pin list that is one phrase gives exactly the pin with
the name, the direction, the words of the type and the ranges without blanks, and no diagnostic, if
and only if no range holds a comma or a directive and no user type stands directly before a
range. -/
theorem PinList.recognises_iff (module : String) (o : Options) {text : Text} (p : PinPhrase text) :
    ((ofText module o text).pins = ⟨[p.decl.pin []]⟩ ∧ (ofText module o text).diagnostics = []) ↔
      p.Joined ∧ ¬ p.TypeBeforeRange := by
  constructor
  · rintro ⟨-, hnone⟩
    by_contra hnot
    by_cases hj : p.Joined
    · have hbefore : p.TypeBeforeRange := by
        by_contra hb
        exact hnot ⟨hj, hb⟩
      exact diagnostics_ne_nil (p.ofTokens_of_joined hj) (p.ofTokens?_of_typeBeforeRange hbefore)
        hnone
    · obtain ⟨run, items, hitems, hrun⟩ := p.exists_unknown hj
      exact diagnostics_ne_nil hitems hrun hnone
  · rintro ⟨hj, hb⟩
    exact ofText_of_declaration (p.ofTokens_of_joined hj) (p.ofTokens?_eq_decl hb)

/-- A range that calls a function with two arguments is cut at the comma between them. -/
theorem PinList.recognises_iff_call :
    ∃ p : PinPhrase "input [f(a,b):0] x".toList,
      p.decl = ⟨some .input, none, some "[f(a,b):0]", "x"⟩ ∧ ¬ p.Joined ∧
        ¬ ((ofText "m" {} "input [f(a,b):0] x".toList).pins = ⟨[p.decl.pin []]⟩ ∧
          (ofText "m" {} "input [f(a,b):0] x".toList).diagnostics = []) := by
  let ts := Token.scan "input [f(a,b):0] x".toList
  let p : PinPhrase "input [f(a,b):0] x".toList :=
    { direction := ts[0]?, type := none, signing := none, ranges := [(ts.drop 1).take 10]
      label := ts.get ⟨11, by decide +kernel⟩, name := "x"
      scan_eq := by decide +kernel
      statesDirection := by decide +kernel
      namesType := by simp
      namesSigning := fun _ h => nomatch h
      isRange := by decide +kernel
      isName := by decide +kernel
      noNetType := by decide
      noSigning := by decide }
  have hj : ¬ p.Joined := by
    unfold PinPhrase.Joined
    decide +kernel
  exact ⟨p, by decide +kernel, hj, fun h => hj ((recognises_iff "m" {} p).mp h).1⟩

end DesignAtlas
