import DesignAtlas.Proofs.Parameter.Parts
import DesignAtlas.Proofs.Pin.Declaration
import DesignAtlas.Proofs.Text.Normal

/-! # The value of a parameter

A segment that declares a parameter ends with its value, and what stands in the place of the value
decides about nothing else: with any other tokens there the segment declares a parameter with their
text as its value (`Parameter.ofSegment?_value`). So text behind a part that declares a parameter
changes the value, unless it is blank (`Parameter.defaultValue_ne_of_behind`). -/

namespace DesignAtlas

namespace Token

/-- Ranges in front of a token are taken whatever follows the token. -/
theorem takeRanges?_replace {n : Token} {rest : List Token} (us : List Token) :
    ∀ {ts : List Token} {depth : Nat} {r : List Token},
      takeRanges? depth ts = some (r, n :: rest) →
        takeRanges? depth (r ++ n :: us) = some (r, n :: us)
  | [], depth, r, h => by
    unfold takeRanges? at h
    split at h <;> cases h
  | t :: ts, depth, r, h => by
    -- every token but the first behind the ranges is passed on
    have hpass : ∀ {d : Nat}, (takeRanges? d ts).map (fun r => (t :: r.1, r.2)) =
        some (r, n :: rest) → ∃ r', r = t :: r' ∧ takeRanges? d (r' ++ n :: us) = some (r', n :: us) := by
      intro d hd
      obtain ⟨⟨r', rest'⟩, hr', heq⟩ := Option.map_eq_some_iff.mp hd
      cases heq
      exact ⟨r', rfl, takeRanges?_replace us hr'⟩
    unfold takeRanges? at h
    split at h
    · rename_i ho
      obtain ⟨r', rfl, hr'⟩ := hpass h
      unfold takeRanges?
      rw [List.cons_append]
      simp only [if_pos ho, hr', Option.map_some]
    · rename_i ho
      split at h
      · cases h
        unfold takeRanges?
        rw [List.nil_append]
        exact if_neg ho
      · obtain ⟨r', rfl, hr'⟩ := hpass h
        unfold takeRanges?
        rw [List.cons_append]
        simp only [if_neg ho, hr', Option.map_some]

theorem takeWord_cases (accept : String → List Token → Bool) (ts : List Token) :
    (takeWord accept ts = ([], ts) ∧
        ∀ t us, ts = t :: us → ∀ w, t.identifier? = some w → accept w us = false) ∨
      ∃ t us w, ts = t :: us ∧ t.identifier? = some w ∧ accept w us = true ∧
        takeWord accept ts = ([w], us) := by
  cases ts with
  | nil => exact Or.inl ⟨rfl, fun _ _ h => nomatch h⟩
  | cons t ts =>
    cases hw : t.identifier? with
    | none =>
      refine Or.inl ⟨by simp [takeWord, hw], fun u us h w hu => ?_⟩
      obtain ⟨rfl, rfl⟩ := List.cons.inj h
      rw [hw] at hu
      cases hu
    | some w =>
      by_cases hacc : accept w ts = true
      · exact Or.inr ⟨t, ts, w, rfl, hw, hacc, takeWord_of_accept hw hacc⟩
      · refine Or.inl ⟨by simp [takeWord, hw, hacc], fun u us h v hv => ?_⟩
        obtain ⟨rfl, rfl⟩ := List.cons.inj h
        rw [hw] at hv
        cases hv
        simpa using hacc

/-- A test that looks at one token takes a word alike whatever follows the second token behind it. -/
theorem takeWord_replace {accept : String → List Token → Bool}
    (haccept : ∀ w us vs, us.head? = vs.head? → accept w us = accept w vs)
    {ts mid us : List Token} {n e : Token} (h : (takeWord accept ts).2 = mid ++ n :: e :: us) :
    ∃ front, ts = front ++ (mid ++ n :: e :: us) ∧
      ∀ vs, takeWord accept (front ++ (mid ++ n :: e :: vs)) =
        ((takeWord accept ts).1, mid ++ n :: e :: vs) := by
  have hhead : ∀ (mid : List Token) (n : Token) (vs : List Token),
      (mid ++ n :: vs).head? = (mid ++ [n]).head? := fun mid n vs => by cases mid <;> rfl
  rcases takeWord_cases accept ts with ⟨htake, hrefuse⟩ | ⟨t, us', w, rfl, hw, hacc, htake⟩
  · rw [htake] at h
    subst h
    refine ⟨[], rfl, fun vs => ?_⟩
    rw [htake]
    refine takeWord_of_refuse fun t us' heq w hw => ?_
    cases mid with
    | nil =>
      obtain ⟨rfl, rfl⟩ := List.cons.inj heq
      rw [← hrefuse n (e :: us) rfl w hw]
      exact haccept w _ _ rfl
    | cons m mid =>
      obtain ⟨rfl, rfl⟩ := List.cons.inj heq
      rw [← hrefuse m (mid ++ n :: e :: us) rfl w hw]
      exact haccept w _ _ ((hhead mid n _).trans (hhead mid n _).symm)
  · rw [htake] at h ⊢
    obtain rfl : us' = mid ++ n :: e :: us := h
    refine ⟨[t], rfl, fun vs => takeWord_of_accept hw ?_⟩
    rw [← hacc]
    exact haccept w _ _ ((hhead mid n _).trans (hhead mid n _).symm)

end Token

namespace Parameter

variable {o : Options} {text : Text} {ts : List Token} {q : Parameter}

/-- The value that tokens state. -/
def valueOf (text : Text) (ts : List Token) : String :=
  String.ofList (Text.collapse (Token.sourceOf text ts))

/-- `ts` declares `q`, whose value begins behind `front`: with other tokens in the place of the value
the same is declared with their value. -/
def ValueBehind (read : Text → List Token → Option Parameter) (text : Text) (ts : List Token)
    (q : Parameter) (front : List Token) : Prop :=
  ∃ v vs, ts = front ++ v :: vs ∧ q.defaultValue = valueOf text (v :: vs) ∧
    ∀ text' v' vs', ∃ q', read text' (front ++ v' :: vs') = some q' ∧
      q'.defaultValue = valueOf text' (v' :: vs')

theorem binding?_value {shape : Option String} (h : binding? text shape ts = some q) :
    ∃ n e, ∀ shape' : Text → Option String,
      ValueBehind (fun text => binding? text (shape' text)) text ts q [n, e] := by
  unfold binding? at h
  split at h
  · rename_i n e v vs
    split at h
    · rename_i he
      obtain ⟨name, hname, rfl⟩ := Option.map_eq_some_iff.mp h
      refine ⟨n, e, fun shape' => ⟨v, vs, rfl, rfl, fun text' v' vs' =>
        ⟨⟨name, shape' text', valueOf text' (v' :: vs')⟩, ?_, rfl⟩⟩⟩
      show binding? text' (shape' text') (n :: e :: v' :: vs') = _
      rw [binding?, if_pos he, hname]
      rfl
    · cases h
  · cases h

theorem declarator?_value (h : declarator? text ts = some q) :
    ∃ front, ValueBehind declarator? text ts q front := by
  unfold declarator? at h
  simp only at h
  split at h
  · cases h
  · rename_i ranges rest hranges
    obtain ⟨n, e, hbinding⟩ := binding?_value h
    obtain ⟨v, vs, rfl, hvalue, hread⟩ := hbinding fun text' => (Token.rangeText text' ranges).or
      (typeText ((Token.takeWord (fun _ rest => isType rest) ts).1 ++ _))
    have happ := (Token.takeRanges?_append hranges).symm
    obtain ⟨signing, hsigning, htakeSigning⟩ :=
      Token.takeWord_replace (fun _ _ _ _ => rfl) happ
    have htypeRest := hsigning.trans (List.append_assoc ..).symm
    obtain ⟨type, htype, htakeType⟩ :=
      Token.takeWord_replace (fun _ us vs hhead => by simp only [isType, hhead]) htypeRest
    refine ⟨type ++ (signing ++ (ranges ++ [n, e])), v, vs, by simpa using htype, hvalue,
      fun text' v' vs' => ?_⟩
    obtain ⟨q', hq', hvalue'⟩ := hread text' v' vs'
    refine ⟨q', ?_, hvalue'⟩
    have htokens : type ++ (signing ++ (ranges ++ [n, e])) ++ v' :: vs' =
        type ++ (signing ++ ranges ++ n :: e :: v' :: vs') := by simp
    have hwords := htakeSigning (v' :: vs')
    rw [← List.append_assoc] at hwords
    unfold declarator?
    simp only [htokens, htakeType, hwords, Token.takeRanges?_replace _ hranges]
    exact hq'

/-! ### Segments -/

theorem afterKeyword?_eq_none_iff : afterKeyword? o ts = none ↔ ∀ t ∈ ts, isKeyword o t = false := by
  have hdrop : afterKeyword? o ts = none ↔ ts.dropWhile (fun t => !isKeyword o t) = [] := by
    unfold afterKeyword?
    split <;> simp_all
  rw [hdrop, List.dropWhile_eq_nil_iff]
  simp

/-- The tokens behind a keyword that is the first. -/
theorem afterKeyword?_append {pre us : List Token} {k : Token}
    (hpre : ∀ t ∈ pre, isKeyword o t = false) (hk : isKeyword o k = true) :
    afterKeyword? o (pre ++ k :: us) = some us := by
  unfold afterKeyword?
  rw [List.dropWhile_append_of_pos fun t ht => by simp [hpre t ht],
    List.dropWhile_cons_of_neg (by simp [hk])]

theorem exists_of_afterKeyword? {us : List Token} (h : afterKeyword? o ts = some us) :
    ∃ pre k, ts = pre ++ k :: us ∧ (∀ t ∈ pre, isKeyword o t = false) ∧ isKeyword o k = true := by
  unfold afterKeyword? at h
  split at h
  · cases h
  · rename_i k us' hd
    obtain rfl := Option.some.inj h
    refine ⟨ts.takeWhile fun t => !isKeyword o t, k, ?_, fun t ht => ?_, ?_⟩
    · rw [← hd, List.takeWhile_append_dropWhile]
    · simpa using List.mem_takeWhile_imp ht
    · have := List.head?_dropWhile_not (fun t => !isKeyword o t) ts
      rw [hd] at this
      simpa using this

/-- **What stands in the place of the value** of a segment decides about nothing else, if it does not
hold the only keyword. -/
theorem ofSegment?_value {inherited : Option (Option String)}
    (h : ofSegment? text o inherited ts = some q) :
    ∃ front v vs, ts = front ++ v :: vs ∧ q.defaultValue = valueOf text (v :: vs) ∧
      ∀ text' v' vs', ((∀ t ∈ ts, isKeyword o t = false) →
          ∀ t ∈ v' :: vs', isKeyword o t = false) →
        ∃ q', ofSegment? text' o inherited (front ++ v' :: vs') = some q' ∧
          q'.defaultValue = valueOf text' (v' :: vs') := by
  unfold ofSegment? at h
  cases ha : afterKeyword? o ts with
  | some us =>
    rw [ha] at h
    obtain ⟨front, v, vs, rfl, hvalue, hread⟩ := declarator?_value h
    obtain ⟨pre, k, rfl, hpre, hk⟩ := exists_of_afterKeyword? ha
    refine ⟨pre ++ k :: front, v, vs, by simp, hvalue, fun text' v' vs' _ => ?_⟩
    obtain ⟨q', hq', hvalue'⟩ := hread text' v' vs'
    refine ⟨q', ?_, hvalue'⟩
    rw [List.append_assoc, List.cons_append, ofSegment?, afterKeyword?_append hpre hk]
    exact hq'
  | none =>
    rw [ha] at h
    obtain ⟨shape, rfl, h⟩ := Option.bind_eq_some_iff.mp h
    obtain ⟨n, e, hbinding⟩ := binding?_value h
    obtain ⟨v, vs, rfl, hvalue, hread⟩ := hbinding fun _ => shape
    have hnone := afterKeyword?_eq_none_iff.mp ha
    refine ⟨[n, e], v, vs, rfl, hvalue, fun text' v' vs' hkeyword => ?_⟩
    obtain ⟨q', hq', hvalue'⟩ := hread text' v' vs'
    refine ⟨q', ?_, hvalue'⟩
    have hnone' : afterKeyword? o ([n, e] ++ v' :: vs') = none := by
      refine afterKeyword?_eq_none_iff.mpr fun t ht => ?_
      rcases List.mem_append.mp ht with ht | ht
      · exact hnone t (List.mem_append_left _ ht)
      · exact hkeyword hnone t ht
    rw [ofSegment?, hnone']
    exact hq'

/-! ### Text behind a part -/

/-- **A part that declares a parameter ends with its value,** and text behind the part goes on with
the value, if it does not bring the only keyword. -/
theorem exists_value {inherited : Option (Option String)} {t : Text}
    (h : ofPart? o inherited t = some q) :
    ∃ value : Text, q.defaultValue = String.ofList (Text.collapse value) ∧
      ∀ u : Text, ((∀ tok ∈ Token.scan t, isKeyword o tok = false) →
          ∀ tok ∈ Token.scan (t ++ u), isKeyword o tok = false) →
        ∃ q', ofPart? o inherited (t ++ u) = some q' ∧
          q'.defaultValue = String.ofList (Text.collapse (value ++ u)) := by
  obtain ⟨front, v, vs, hscan, hvalue, hread⟩ := ofSegment?_value h
  obtain ⟨gs, tail, rfl, htail, hall⟩ := Glyph.exists_layout t
  have hplace : Token.scan (Glyph.spell gs ++ tail) = Glyph.place Position.start gs :=
    Glyph.scanFrom_spell_blank hall htail _
  obtain ⟨as, bs, rfl, hfront, hbehind⟩ := Glyph.place_eq_append (hplace.symm.trans hscan)
  obtain ⟨g, bs, rfl⟩ : ∃ g bs', bs = g :: bs' := by
    cases bs with
    | nil => cases hbehind
    | cons g bs => exact ⟨g, bs, rfl⟩
  obtain ⟨hallFront, hallBehind⟩ := Glyph.readAll_append.mp hall
  have hsource : ∀ u, Text.collapse (Token.sourceOf (Glyph.spell (as ++ g :: bs) ++ tail ++ u)
      (Token.scanFrom (Position.start.advance (Glyph.spell as))
        (Glyph.spell (g :: bs) ++ tail ++ u))) =
      Text.collapse (Glyph.spell (g :: bs) ++ tail ++ u) := by
    intro u
    have := Token.collapse_sourceOf_scanFrom (Glyph.spell as) (Glyph.spell (g :: bs) ++ tail ++ u) []
    simpa using this
  refine ⟨Glyph.spell (g :: bs) ++ tail, ?_, fun u hkeyword => ?_⟩
  · have hscanValue : Token.scanFrom (Position.start.advance (Glyph.spell as))
        (Glyph.spell (g :: bs) ++ tail) = v :: vs := by
      rw [← hbehind]
      exact Glyph.scanFrom_spell_blank hallBehind htail _
    have := hsource []
    rw [List.append_nil, List.append_nil, hscanValue] at this
    rw [hvalue, valueOf, this]
  · obtain ⟨c, cs, htext, hc, -⟩ := hallBehind.1.lexeme
    have hfrontAll : Glyph.ReadAll as (Glyph.spell (g :: bs) ++ tail ++ u) := by
      refine Glyph.readAll_append_right hallFront ?_ u
      simp [Glyph.spelling, htext]
    have hscan' := Glyph.scanFrom_spell hfrontAll Position.start
    have htext' : Glyph.spell as ++ (Glyph.spell (g :: bs) ++ tail ++ u) =
        Glyph.spell (as ++ g :: bs) ++ tail ++ u := by simp
    rw [htext', hfront] at hscan'
    -- the first character of the value is not blank, so there is a token
    obtain ⟨v', vs', hv'⟩ : ∃ v' vs', Token.scanFrom (Position.start.advance (Glyph.spell as))
        (Glyph.spell (g :: bs) ++ tail ++ u) = v' :: vs' := by
      refine List.exists_cons_of_ne_nil fun hnil => ?_
      have hwords := congrArg Text.words (hsource u)
      rw [hnil, Text.words_collapse, Text.words_collapse] at hwords
      have hblank := Text.words_eq_nil_iff.mp hwords.symm c (by simp [Glyph.spelling, htext])
      rw [hc] at hblank
      cases hblank
    rw [hv'] at hscan'
    obtain ⟨q', hq', hvalue'⟩ := hread (Glyph.spell (as ++ g :: bs) ++ tail ++ u) v' vs'
      fun hold tok htok => by
        refine hkeyword hold tok ?_
        rw [Token.scan, hscan']
        exact List.mem_append_right _ htok
    refine ⟨q', ?_, ?_⟩
    · rw [ofPart?, Token.scan, hscan']
      exact hq'
    · rw [hvalue', valueOf, ← hv', hsource]

/-- **Words on lines behind a part that declares a parameter** become words of its value. -/
theorem defaultValue_ne_of_behind {inherited : Option (Option String)} {t u : Text}
    (h : ofPart? o inherited t = some q) (hquote : '\x22' ∉ u)
    (hkeyword : ∀ p, ∀ tok ∈ Token.scanFrom p u, isKeyword o tok = false)
    (hwords : Text.words u ≠ []) :
    ∃ q', ofPart? o inherited (t ++ '\n' :: u) = some q' ∧ q'.defaultValue ≠ q.defaultValue := by
  obtain ⟨value, hvalue, hbehind⟩ := exists_value h
  obtain ⟨ts, us, hsplit, hskeleton, hus⟩ := Token.scanFrom_behind t hquote Position.start
  obtain ⟨q', hq', hvalue'⟩ := hbehind ('\n' :: u) fun hold tok htok => by
    rw [Token.scan, hsplit] at htok
    rcases List.mem_append.mp htok with hts | hts
    · obtain ⟨old, hmem, heq⟩ := List.mem_map.mp (hskeleton ▸ List.mem_map_of_mem hts)
      rw [isKeyword_of_skeleton heq.symm]
      exact hold old hmem
    · rcases hus with rfl | rfl
      · cases hts
      · exact hkeyword _ tok hts
  refine ⟨q', hq', fun hsame => hwords ?_⟩
  have hcollapse : Text.collapse (value ++ '\n' :: u) = Text.collapse value := by
    rw [hvalue', hvalue] at hsame
    have := congrArg String.toList hsame
    rwa [String.toList_ofList, String.toList_ofList] at this
  have := congrArg Text.words hcollapse
  rw [Text.words_collapse, Text.words_collapse, Text.words_append_blank isBlank_newline] at this
  exact List.append_right_eq_self.mp this

end Parameter

end DesignAtlas
