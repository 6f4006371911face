import DesignAtlas.Parameter.Segment
import DesignAtlas.Proofs.Token.Skeleton
import Mathlib.Data.List.Basic
import Mathlib.Tactic.Common

/-! # Cutting tokens at commas

Tokens are whole when the depth never meets a comma at zero among them and is zero behind them
(`Parameter.Whole`); whatever follows goes on with the same run. Whole tokens one after the other are
whole (`Whole.append`), and a comma behind them ends the run (`Whole.runs_comma`). Conversely the
tokens that a comma cuts off as one run are whole (`exists_comma_of_runs`). -/

namespace DesignAtlas.Parameter

variable {t : Token} {ts us : List Token} {depth : Nat}

theorem consHead_eq_modifyHead {α : Type} (a : α) {ls : List (List α)} (h : ls ≠ []) :
    consHead a ls = ls.modifyHead (a :: ·) := by
  obtain ⟨l, ls, rfl⟩ := List.exists_cons_of_ne_nil h
  rfl

theorem runs_ne_nil (depth : Nat) (ts : List Token) : runs depth ts ≠ [] := by
  cases ts with
  | nil => exact List.cons_ne_nil _ _
  | cons t ts =>
    rw [runs]
    split
    · exact List.cons_ne_nil _ _
    · unfold consHead
      split <;> exact List.cons_ne_nil _ _

theorem runs_cons (depth : Nat) (t : Token) (ts : List Token) : runs depth (t :: ts) =
    if t.isSymbol .comma && depth == 0 then [] :: runs depth ts
    else (runs (nesting depth t) ts).modifyHead (t :: ·) := by
  rw [runs, consHead_eq_modifyHead t (runs_ne_nil _ ts)]

/-- A run that begins with a token goes on behind it. -/
theorem runs_tail {u : Token} {l : List Token} {ls : List (List Token)}
    (h : runs depth (t :: ts) = (u :: l) :: ls) :
    ¬ (t.isSymbol .comma && depth == 0) = true ∧ u = t ∧ runs (nesting depth t) ts = l :: ls := by
  rw [runs_cons] at h
  split at h
  · cases h
  · rename_i hc
    obtain ⟨k, ks, hk⟩ := List.exists_cons_of_ne_nil (runs_ne_nil (nesting depth t) ts)
    rw [hk, List.modifyHead_cons] at h
    obtain ⟨hhead, rfl⟩ := List.cons.inj h
    obtain ⟨rfl, rfl⟩ := List.cons.inj hhead
    exact ⟨hc, rfl, hk⟩

/-! ### Whole tokens -/

/-- What follows the tokens goes on with their run, at depth zero. -/
def Whole (ts : List Token) : Prop :=
  ∀ us, runs 0 (ts ++ us) = (runs 0 us).modifyHead (ts ++ ·)

theorem whole_nil : Whole [] := fun us => by
  obtain ⟨l, ls, h⟩ := List.exists_cons_of_ne_nil (runs_ne_nil 0 us)
  rw [List.nil_append, h]
  rfl

/-- **Whole tokens one after the other** are whole. -/
theorem Whole.append (hts : Whole ts) (hus : Whole us) : Whole (ts ++ us) := fun vs => by
  rw [List.append_assoc, hts, hus, List.modifyHead_modifyHead]
  congr 1
  funext l
  simp

theorem Whole.runs_eq (h : Whole ts) : runs 0 ts = [ts] := by
  have := h []
  rwa [List.append_nil, runs, List.modifyHead_cons, List.append_nil] at this

/-- **A comma behind whole tokens** ends their run. -/
theorem Whole.runs_comma {c : Token} (h : Whole ts) (hc : c.payload = .symbol .comma)
    (us : List Token) : runs 0 (ts ++ c :: us) = ts :: runs 0 us := by
  have hcomma : c.isSymbol .comma = true := by simp [Token.isSymbol, hc]
  rw [h, runs_cons, if_pos (by simp [hcomma]), List.modifyHead_cons, List.append_nil]

/-! ### Flat tokens -/

/-- Tokens that neither end a segment nor open or close brackets. -/
def flat (p : Payload) : Bool :=
  match p with
  | .symbol .comma | .symbol .openParen | .symbol .openBracket | .symbol .openBrace
  | .symbol .closeParen | .symbol .closeBracket | .symbol .closeBrace => false
  | _ => true

theorem flat_step (depth : Nat) (h : flat t.payload = true) :
    t.isSymbol .comma = false ∧ nesting depth t = depth := by
  unfold flat at h
  unfold Token.isSymbol nesting
  refine ⟨?_, ?_⟩
  · simp only [beq_eq_false_iff_ne]
    intro hc
    rw [hc] at h
    cases h
  · split <;> simp_all

theorem whole_of_flat : ∀ {ts : List Token}, (∀ t ∈ ts, flat t.payload = true) → Whole ts
  | [], _ => whole_nil
  | t :: ts, h => fun us => by
    obtain ⟨hc, hn⟩ := flat_step 0 (h t (by simp))
    have ih := whole_of_flat (fun x hx => h x (List.mem_cons_of_mem t hx)) us
    rw [List.cons_append, runs_cons, hc, hn, ih, Bool.false_and, if_neg Bool.false_ne_true,
      List.modifyHead_modifyHead]
    rfl

/-! ### One run -/

theorem runs_eq_nil_singleton : ∀ {depth : Nat} {ts : List Token}, runs depth ts = [[]] → ts = []
  | _, [], _ => rfl
  | depth, t :: ts, h => by
    rw [runs_cons] at h
    split at h
    · exact absurd (List.cons.inj h).2 (runs_ne_nil depth ts)
    · obtain ⟨l, ls, hl⟩ := List.exists_cons_of_ne_nil (runs_ne_nil (nesting depth t) ts)
      rw [hl, List.modifyHead_cons] at h
      exact absurd (List.cons.inj h).1 (List.cons_ne_nil t l)

/-- **What a comma at the end cuts off as one run** is whole. -/
theorem exists_comma_of_runs : ∀ {us : List Token} {depth : Nat} {ts : List Token},
    runs depth us = [ts, []] → ∃ c, c.payload = .symbol .comma ∧ us = ts ++ [c] ∧
      ∀ vs, runs depth (ts ++ vs) = (runs 0 vs).modifyHead (ts ++ ·)
  | [], _, _, h => by cases h
  | t :: us, depth, ts, h => by
    rw [runs_cons] at h
    split at h
    · rename_i hc
      obtain ⟨rfl, hus⟩ := List.cons.inj h
      obtain rfl := runs_eq_nil_singleton hus
      rw [Bool.and_eq_true, beq_iff_eq] at hc
      obtain ⟨hc, rfl⟩ := hc
      exact ⟨t, by simpa [Token.isSymbol] using hc, rfl, whole_nil⟩
    · rename_i hc
      obtain ⟨l, ls, hl⟩ := List.exists_cons_of_ne_nil (runs_ne_nil (nesting depth t) us)
      rw [hl, List.modifyHead_cons] at h
      obtain ⟨rfl, rfl⟩ := List.cons.inj h
      obtain ⟨c, hcomma, rfl, hgo⟩ := exists_comma_of_runs hl
      refine ⟨c, hcomma, rfl, fun vs => ?_⟩
      rw [List.cons_append, runs_cons, if_neg hc, hgo, List.modifyHead_modifyHead]
      rfl

/-- One run stays one with flat tokens behind it. -/
theorem runs_append_flat : ∀ {ts : List Token} {depth : Nat}, runs depth ts = [ts] →
    (∀ u ∈ us, flat u.payload = true) → runs depth (ts ++ us) = [ts ++ us]
  | [], depth, _, hus => by
    induction us with
    | nil => rfl
    | cons u us ih =>
      obtain ⟨hc, hn⟩ := flat_step depth (hus u (by simp))
      rw [List.nil_append] at ih ⊢
      rw [runs_cons, hc, hn, ih fun v hv => hus v (List.mem_cons_of_mem u hv), Bool.false_and,
        if_neg Bool.false_ne_true, List.modifyHead_cons]
  | t :: ts, depth, h, hus => by
    obtain ⟨hc, -, htail⟩ := runs_tail h
    rw [List.cons_append, runs_cons, if_neg hc, runs_append_flat htail hus,
      List.modifyHead_cons]

/-- The beginning of one run is one run. -/
theorem runs_of_append : ∀ {ts : List Token} {depth : Nat}, runs depth (ts ++ us) = [ts ++ us] →
    runs depth ts = [ts]
  | [], _, _ => rfl
  | t :: ts, depth, h => by
    obtain ⟨hc, -, htail⟩ := runs_tail h
    rw [runs_cons, if_neg hc, runs_of_append htail, List.modifyHead_cons]

/-! ### Tokens with the same skeletons -/

theorem nesting_of_skeleton {u : Token} (h : u.skeleton = t.skeleton) (depth : Nat) :
    nesting depth u = nesting depth t := by
  have key : ∀ (t : Token) (s : Span), nesting depth t = nesting depth ⟨t.skeleton, s⟩ := by
    rintro ⟨p, s⟩ s'
    cases p <;> rfl
  rw [key u t.span, key t t.span, h]

section Map

variable {f : Token → Token} (hf : ∀ t, (f t).skeleton = t.skeleton)
include hf

theorem runs_map : ∀ (depth : Nat) (ts : List Token),
    runs depth (ts.map f) = (runs depth ts).map (List.map f)
  | _, [] => rfl
  | depth, t :: ts => by
    have hsymbol := Token.isSymbol_of_skeleton (hf t) .comma
    have hnesting := nesting_of_skeleton (hf t) depth
    obtain ⟨l, ls, hl⟩ := List.exists_cons_of_ne_nil (runs_ne_nil (nesting depth t) ts)
    rw [List.map_cons, runs_cons, runs_cons, hsymbol, hnesting, runs_map, runs_map]
    split
    · rfl
    · rw [hl]
      rfl

end Map

theorem runs_eq_singleton : ∀ {depth : Nat} {ts r : List Token}, runs depth ts = [r] → r = ts
  | _, [], r, h => (List.cons.inj h).1.symm
  | depth, t :: ts, r, h => by
    cases r with
    | nil => exact absurd (runs_eq_nil_singleton h) (List.cons_ne_nil t ts)
    | cons t' r =>
      obtain ⟨-, rfl, htail⟩ := runs_tail h
      rw [runs_eq_singleton htail]

/-- Tokens with the same skeletons are cut alike. -/
theorem runs_congr (h : us.map Token.skeleton = ts.map Token.skeleton) (depth : Nat) :
    (runs depth us).map (List.map Token.skeleton) =
      (runs depth ts).map (List.map Token.skeleton) := by
  -- both lists are the same once all tokens are bare and put at one place
  let bare : Payload → Token := fun p => ⟨p, ⟨Position.start, Position.start⟩⟩
  have hbare : ∀ t : Token, ((bare ∘ Token.skeleton) t).skeleton = t.skeleton := by
    rintro ⟨p, s⟩
    cases p <;> rfl
  have heq : us.map (bare ∘ Token.skeleton) = ts.map (bare ∘ Token.skeleton) := by
    rw [← List.map_map, ← List.map_map, h]
  have hskeleton : ∀ rs : List (List Token),
      (rs.map (List.map (bare ∘ Token.skeleton))).map (List.map Token.skeleton) =
        rs.map (List.map Token.skeleton) := fun rs => by
    rw [List.map_map]
    congr 1
    funext r
    simp only [Function.comp_apply, List.map_map]
    exact List.map_congr_left fun t _ => hbare t
  rw [← hskeleton, ← runs_map hbare, heq, runs_map hbare, hskeleton]

theorem runs_singleton_congr (h : us.map Token.skeleton = ts.map Token.skeleton)
    (hts : runs depth ts = [ts]) : runs depth us = [us] := by
  have := runs_congr h depth
  rw [hts] at this
  obtain ⟨r, hr, -⟩ := List.map_eq_singleton_iff.mp this
  rw [hr, runs_eq_singleton hr]

/-- **Tokens with the skeletons of whole tokens** are whole. -/
theorem Whole.congr (hts : Whole ts) (h : us.map Token.skeleton = ts.map Token.skeleton) :
    Whole us := by
  let c : Token := ⟨.symbol .comma, ⟨Position.start, Position.start⟩⟩
  have hcut : runs 0 (ts ++ [c]) = [ts, []] := hts.runs_comma rfl []
  have hskeleton : (us ++ [c]).map Token.skeleton = (ts ++ [c]).map Token.skeleton := by simp [h]
  have hmap := runs_congr hskeleton 0
  rw [hcut] at hmap
  obtain ⟨r, rs, hruns, -, hrs⟩ := List.map_eq_cons_iff.mp hmap
  obtain ⟨r', rfl, hr'⟩ := List.map_eq_singleton_iff.mp hrs
  rw [List.map_eq_nil_iff.mp hr'] at hruns
  obtain ⟨c', -, happ, hwhole⟩ := exists_comma_of_runs hruns
  obtain ⟨rfl, -⟩ := List.append_inj' happ rfl
  exact hwhole

end DesignAtlas.Parameter
