import DesignAtlas.Proofs.ModuleInfo.Normal
import DesignAtlas.Proofs.Statement.Requoted
import DesignAtlas.Proofs.Text.Cut

/-! # Where a statement stands in a body

The code of a body is each of its lines up to the first directive. A body that is cut in code is
read in two parts (`Piece.exists_ofBody_append`), so the code and the directives of both parts put
together are those of the body. A place in the body is such a cut, and a statement begins at a place
when as many semicolons stand in the code before it as statements precede it, and its text stands
behind it (`Statement.BeginsAt`). -/

namespace DesignAtlas

open Text (split)

/-! ### Cuts in code -/

/-- Behind each backtick of the text its line ends, so what comes next is no part of a directive. -/
def Text.InCode (t : Text) : Prop := ∀ u ∈ t.tails, u.head? = some '\x60' → '\n' ∈ u

instance (t : Text) : Decidable t.InCode := inferInstanceAs (Decidable (∀ u ∈ t.tails, _ → _))

namespace Text

theorem inCode_nil : InCode [] := by decide

theorem inCode_cons {c : Char} {t : Text} :
    InCode (c :: t) ↔ (c = '\x60' → '\n' ∈ t) ∧ InCode t := by
  unfold InCode
  rw [List.tails_cons, List.forall_mem_cons]
  refine and_congr_left' ?_
  rw [List.head?_cons, Option.some_inj]
  refine forall_congr' fun hc => ?_
  subst hc
  simp

theorem InCode.of_suffix {t u : Text} (h : t.InCode) (hu : u <:+ t) : u.InCode := by
  intro v hv
  rw [List.mem_tails] at hv
  exact h v ((List.mem_tails _ _).mpr (hv.trans hu))

theorem inCode_of_plain {t : Text} (h : '\x60' ∉ t) : t.InCode := by
  intro u hu hhead
  exact absurd (((List.mem_tails _ _).mp hu).subset (List.mem_of_head? hhead)) h

/-- A line with its newline keeps what follows it in code. -/
theorem InCode.line {t : Text} (h : t.InCode) : ∀ l : Text, (l ++ '\n' :: t).InCode
  | [] => inCode_cons.mpr ⟨fun hc => absurd hc (by decide), h⟩
  | c :: l => inCode_cons.mpr ⟨fun _ => by simp, h.line l⟩

theorem lines_of_line {l : Text} (hl : '\n' ∉ l) : lines l = [l] := by
  refine split_of_none fun c hc => ?_
  rw [beq_eq_false_iff_ne]
  rintro rfl
  exact hl hc

theorem lines_append {l : Text} (hl : '\n' ∉ l) (t : Text) :
    lines (l ++ '\n' :: t) = l :: lines t := by
  have hline := lines_of_line hl
  unfold lines at hline ⊢
  rw [split_append_sep (by decide), hline, List.singleton_append]

end Text

namespace Piece

theorem ofBody_cons {c : Char} (hc : c ≠ '\x60') (t : Text) :
    ofBody (c :: t) = .char c :: ofBody t := by
  unfold ofBody Text.lines
  rw [Text.split_cons]
  by_cases hline : c = '\n'
  · subst hline
    rfl
  · obtain ⟨l, ls, hl⟩ := List.exists_cons_of_ne_nil (Text.split_ne_nil (· == '\n') t)
    rw [if_neg (by simpa using hline), hl, consHead, List.flatMap_cons, List.flatMap_cons]
    simp [ofLine, Directive.cut, hc]

theorem ofBody_line {l : Text} (hl : '\n' ∉ l) (t : Text) :
    ofBody (l ++ '\n' :: t) = ofLine l ++ ofBody t := by
  unfold ofBody
  rw [Text.lines_append hl, List.flatMap_cons]

/-- **A body that is cut in code** is read as its parts are, but for the newline at the cut. -/
theorem exists_ofBody_append : ∀ {a : Text}, a.InCode → ∃ qs, ofBody a = qs ++ [.char '\n'] ∧
    ∀ b, ofBody (a ++ b) = qs ++ ofBody b
  | [], _ => ⟨[], rfl, fun _ => rfl⟩
  | c :: a, h => by
    obtain ⟨hline, ha⟩ := Text.inCode_cons.mp h
    by_cases hc : c = '\x60'
    · -- the line of the backtick ends before the cut
      obtain ⟨l, t, rfl, hl⟩ := List.eq_append_cons_of_mem (hline hc)
      have hnl : '\n' ∉ c :: l := by
        rw [List.mem_cons, not_or]
        exact ⟨by rw [hc]; decide, hl⟩
      obtain ⟨qs, hqs, hcut⟩ := exists_ofBody_append
        (ha.of_suffix ((List.suffix_cons '\n' t).trans (List.suffix_append l _)))
      have hread : ∀ u, ofBody (c :: (l ++ '\n' :: u)) = ofLine (c :: l) ++ ofBody u :=
        ofBody_line hnl
      refine ⟨ofLine (c :: l) ++ qs, ?_, fun b => ?_⟩
      · rw [hread, hqs, List.append_assoc]
      · rw [List.cons_append, List.append_assoc, List.cons_append, hread, hcut, List.append_assoc]
    · obtain ⟨qs, hqs, hcut⟩ := exists_ofBody_append ha
      refine ⟨.char c :: qs, ?_, fun b => ?_⟩
      · rw [ofBody_cons hc, hqs, List.cons_append]
      · rw [List.cons_append, ofBody_cons hc, hcut, List.cons_append]
  termination_by a => a.length

/-- A body begins with code, be it a newline. -/
theorem exists_ofBody_eq_cons (body : Text) : ∃ c ps, ofBody body = .char c :: ps := by
  obtain ⟨l, ls, hl⟩ := List.exists_cons_of_ne_nil (Text.split_ne_nil (· == '\n') body)
  unfold ofBody Text.lines
  rw [hl, List.flatMap_cons, ofLine]
  cases (Directive.cut l).1 with
  | nil => exact ⟨'\n', _, rfl⟩
  | cons c t => exact ⟨c, _, rfl⟩

end Piece

namespace Statement

/-- The code of a body: its lines up to their first directives. -/
def code (body : Text) : Text :=
  (Text.lines body).flatMap fun line => (Directive.cut line).1 ++ ['\n']

theorem filterMap_char?_ofBody (body : Text) :
    (Piece.ofBody body).filterMap Piece.char? = code body := by
  have hline : ∀ line : Text, (Piece.ofLine line).filterMap Piece.char? =
      (Directive.cut line).1 ++ ['\n'] := by
    intro line
    rw [Piece.ofLine, List.filterMap_append, List.filterMap_map, List.filterMap_cons]
    cases (Directive.cut line).2 <;> simp [Function.comp_def, Piece.char?]
  unfold Piece.ofBody code
  rw [List.filterMap_flatMap]
  simp only [hline]

theorem code_of_plain {t : Text} (h : '\x60' ∉ t) : code t = t ++ ['\n'] := by
  rw [← filterMap_char?_ofBody, Piece.ofBody_of_plain h, List.filterMap_map]
  exact List.filterMap_some

theorem code_cons {c : Char} (hc : c ≠ '\x60') (t : Text) : code (c :: t) = c :: code t := by
  rw [← filterMap_char?_ofBody, Piece.ofBody_cons hc, ← filterMap_char?_ofBody]
  rfl

theorem code_of_line {l : Text} (hl : '\n' ∉ l) : code l = (Directive.cut l).1 ++ ['\n'] := by
  rw [code, Text.lines_of_line hl, List.flatMap_singleton]

theorem code_line {l : Text} (hl : '\n' ∉ l) (t : Text) :
    code (l ++ '\n' :: t) = (Directive.cut l).1 ++ '\n' :: code t := by
  unfold code
  rw [Text.lines_append hl, List.flatMap_cons, List.append_assoc]
  rfl

theorem exists_code_eq_concat (body : Text) : ∃ x, code body = x ++ ['\n'] := by
  obtain ⟨ls, l, hl⟩ := Text.exists_split_eq_concat (· == '\n') body
  refine ⟨(ls.flatMap fun line => (Directive.cut line).1 ++ ['\n']) ++ (Directive.cut l).1, ?_⟩
  unfold code Text.lines
  rw [hl, List.flatMap_append, List.flatMap_singleton, List.append_assoc]

/-- The newline at the end of the code makes the last piece longer. -/
theorem split_newline {x p : Text} {ps : List Text} (h : split (· == ';') x = ps ++ [p]) :
    split (· == ';') (x ++ ['\n']) = ps ++ [p ++ ['\n']] :=
  Text.split_append rfl h

/-- The code of a body that is cut in code is that of its parts. -/
theorem exists_code_append {a : Text} (h : a.InCode) :
    ∃ x, code a = x ++ ['\n'] ∧ ∀ b, code (a ++ b) = x ++ code b := by
  obtain ⟨qs, ha, hcut⟩ := Piece.exists_ofBody_append h
  refine ⟨qs.filterMap Piece.char?, ?_, fun b => ?_⟩
  · rw [← filterMap_char?_ofBody, ha, List.filterMap_append]
    rfl
  · rw [← filterMap_char?_ofBody, hcut, List.filterMap_append, filterMap_char?_ofBody]

/-- The directives of a body that is cut in code are those of its parts. -/
theorem applied_append {a : Text} (h : a.InCode) (b : Text) :
    applied (a ++ b) = applied a ++ applied b := by
  obtain ⟨qs, ha, hcut⟩ := Piece.exists_ofBody_append h
  unfold applied
  rw [hcut, ha, List.filterMap_append, List.filterMap_append]
  exact congrArg (· ++ _) (List.append_nil _).symm

/-! ### The statements in order -/

/-- **A statement is that of its fragment**, at the depth that the fragments before it leave. -/
theorem getElem?_ofFragments : ∀ (fs : List Fragment) (depth k : Nat),
    (ofFragments depth fs)[k]? =
      fs[k]?.map (ofFragment ((fs.take k).foldl depthBehind depth))
  | [], _, _ => rfl
  | f :: fs, depth, 0 => rfl
  | f :: fs, depth, k + 1 => by
    rw [ofFragments_cons, List.getElem?_cons_succ, getElem?_ofFragments fs, List.getElem?_cons_succ,
      List.take_succ_cons, List.foldl_cons]

/-- The fragment of a statement, and the piece of code that it is. -/
theorem exists_fragment {o : Options} {body : Text} {k : Nat} {s : Statement}
    (h : (ofBody o body)[k]? = some s) :
    ∃ g, (Fragment.ofPieces (ConditionStack.empty o.elsePolicy) none [] (Piece.ofBody body))[k]? =
        some g ∧
      (split (· == ';') (code body))[k]? = some g.text ∧
      s.conditionals = g.conditionals ∧ s.text = (dropEnds (Text.trim g.text)).2 := by
  rw [ofBody, getElem?_ofFragments] at h
  obtain ⟨g, hg, rfl⟩ := Option.map_eq_some_iff.mp h
  refine ⟨g, hg, ?_, rfl, rfl⟩
  have htexts := Fragment.map_text_ofPieces (Piece.ofBody body)
    (ConditionStack.empty o.elsePolicy) none []
  rw [filterMap_char?_ofBody] at htexts
  have hid : (split (· == ';') (code body)).modifyHead ([].reverse ++ ·) =
      split (· == ';') (code body) := by
    cases split (· == ';') (code body) <;> rfl
  rw [hid] at htexts
  rw [← htexts, List.getElem?_map, hg]
  rfl

/-- The text of statement `k` begins at the cut between `a` and `b`: in code, behind `k` semicolons,
and with only blanks before the next one. -/
structure BeginsAt (k : Nat) (text a b : Text) : Prop where
  inCode : a.InCode
  behind : (split (· == ';') (code a)).length = k + 1
  before : ∃ trail qs, split (· == ';') (code b) = (text ++ trail) :: qs ∧
    ∀ c ∈ trail, isBlank c = true

theorem dropEnds_suffix (t : Text) : (dropEnds t).2 <:+ t := by
  fun_induction dropEnds t with
  | case1 t h => exact List.suffix_refl t
  | case2 t r h ih => exact ih.trans (afterEnd?_suffix h)

/-- A piece of code ends with the text of its statement, but for blanks; they are there when the
piece is the last one. -/
theorem exists_front {p v : Text} (hp : v = [] → ∃ q, p = q ++ ['\n']) :
    ∃ front trail, p = front ++ ((dropEnds (Text.trim p)).2 ++ trail) ∧
      (∀ c ∈ trail, isBlank c = true) ∧ (dropEnds (Text.trim p)).2 ++ (trail ++ v) ≠ [] := by
  obtain ⟨lead, trail, htrim, hlead, htrail⟩ := Text.exists_trim p
  by_cases hnil : Text.trim p = []
  · rw [hnil, dropEnds_nil]
    rw [hnil] at htrim
    refine ⟨[], p, rfl, ?_, fun h => ?_⟩
    · rw [htrim]
      exact List.forall_mem_append.mpr ⟨hlead, htrail⟩
    · obtain ⟨rfl, rfl⟩ : p = [] ∧ v = [] := by simpa using h
      obtain ⟨q, hq⟩ := hp rfl
      simp at hq
  · obtain ⟨y, hy⟩ := dropEnds_suffix (Text.trim p)
    refine ⟨lead ++ y, trail, ?_, htrail, fun h => ?_⟩
    · rw [List.append_assoc, ← List.append_assoc y, hy]
      exact htrim
    · -- the newline at the end is no part of a trimmed text
      obtain ⟨-, rfl, rfl⟩ : (dropEnds (Text.trim p)).2 = [] ∧ trail = [] ∧ v = [] := by
        simpa using h
      obtain ⟨q, hq⟩ := hp rfl
      have hlast : (Text.trim p).getLast? = some '\n' := by
        have := congrArg List.getLast? (htrim.symm.trans hq)
        rwa [List.append_nil, List.getLast?_append_of_ne_nil _ hnil, List.getLast?_concat] at this
      exact absurd ((Text.trimmed_trim p).back _ hlast) (by decide)

/-- **The text of a statement in the code**: what stands before it and what begins with it. A cut of
the body that cuts the code there is a place where the text begins. -/
theorem exists_text_of_getElem? {o : Options} {body : Text} {k : Nat} {s : Statement}
    (hs : (ofBody o body)[k]? = some s) :
    ∃ x z, code body = x ++ z ∧ z ≠ [] ∧ s.text <+: z ∧
      ∀ a b, a.InCode → code a = x ++ ['\n'] → code b = z → BeginsAt k s.text a b := by
  obtain ⟨g, -, hpiece, -, htext⟩ := exists_fragment hs
  have hsep := Text.sep_of_mem_split (List.mem_of_getElem? hpiece)
  obtain ⟨u, v, ps, hcode, hu, hk, hv⟩ := Text.exists_of_getElem?_split hpiece
  have hlast : v = [] → ∃ q, g.text = q ++ ['\n'] := by
    rintro rfl
    obtain ⟨x, hx⟩ := exists_code_eq_concat body
    obtain ⟨ps', q, hps'⟩ := Text.exists_split_eq_concat (· == ';') x
    have h := Text.split_append (Text.split_of_none hsep) hu
    rw [← List.append_nil g.text, ← hcode, hx,
      split_newline hps'] at h
    exact ⟨q, by simpa using (List.append_inj' h rfl).2.symm⟩
  obtain ⟨front, trail, hfront, htrail, hne⟩ := exists_front hlast
  rw [← htext] at hfront hne
  refine ⟨u ++ front, s.text ++ (trail ++ v), by rw [hcode, hfront]; simp, hne,
    List.prefix_append _ _, fun a b ha hacode hbcode => ⟨ha, ?_, ?_⟩⟩
  · have hpart : split (· == ';') (front ++ ['\n']) = [front ++ ['\n']] := by
      refine Text.split_of_none fun d hd => ?_
      rcases List.mem_append.mp hd with hd | hd
      · exact hsep d (hfront ▸ List.mem_append_left _ hd)
      · rw [List.mem_singleton.mp hd]
        rfl
    rw [hacode, List.append_assoc, Text.split_append hpart hu]
    simp [hk]
  · obtain ⟨qs, hqs⟩ := hv (s.text ++ trail) fun d hd =>
      hsep d (hfront ▸ List.mem_append_right _ hd)
    exact ⟨trail, qs, by rw [hbcode, ← hqs, List.append_assoc], htrail⟩

/-- Where the text of a statement begins, its piece of code ends with the text. -/
theorem BeginsAt.exists_piece {k : Nat} {text a b p : Text} (h : BeginsAt k text a b)
    (hp : (split (· == ';') (code (a ++ b)))[k]? = some p) :
    ∃ x ps front trail qs, code a = x ++ ['\n'] ∧ split (· == ';') x = ps ++ [front] ∧
      ps.length = k ∧ split (· == ';') (code (a ++ b)) = ps ++ p :: qs ∧
        p = front ++ (text ++ trail) ∧ ∀ c ∈ trail, isBlank c = true := by
  obtain ⟨x, hx, hcut⟩ := exists_code_append h.inCode
  obtain ⟨trail, qs, hb, htrail⟩ := h.before
  obtain ⟨ps, front, hps⟩ := Text.exists_split_eq_concat (· == ';') x
  have hk : ps.length = k := by
    have hbehind := h.behind
    rw [hx, split_newline hps] at hbehind
    simpa using hbehind
  have hsplit : split (· == ';') (code (a ++ b)) = ps ++ (front ++ (text ++ trail)) :: qs := by
    rw [hcut, Text.split_append hb hps]
  obtain rfl : front ++ (text ++ trail) = p := by
    rw [hsplit, ← hk, List.getElem?_append_right le_rfl] at hp
    simpa using hp
  exact ⟨x, ps, front, trail, qs, hx, hps, hk, hsplit, rfl, htrail⟩

end Statement

end DesignAtlas
