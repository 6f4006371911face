import DesignAtlas.Proofs.Pin.Items
import DesignAtlas.Proofs.Text.Pieces
import Mathlib.Data.List.TakeWhile
import Mathlib.Data.List.Infix

/-! # The runs of a token list

A run is a longest stretch of tokens that are neither commas nor directives. The runs of a list are
found from its front (`PinRun.all`) and are exactly the longest stretches, each once and in order
(`PinRun.mem_all`, `PinRun.pairwise_all`). When a list grows without going on with its last run, its
runs stay and those of the new part follow (`PinRun.allFrom_append`). -/

namespace DesignAtlas

/-- Whether the token is neither a comma nor a directive. -/
def Token.joins (t : Token) : Bool := PinItem.joins t.payload

/-- Some tokens of a list, and what stands to their left. -/
structure PinRun where
  left : List Token
  tokens : List Token
  deriving DecidableEq

namespace PinRun

/-- No comma and no directive is among the tokens, and one stands on either side of them, unless the
list ends there. -/
structure IsMaximal (ts : List Token) (r : PinRun) : Prop where
  ne_nil : r.tokens ≠ []
  joins : ∀ t ∈ r.tokens, t.joins = true
  before : ∀ t ∈ r.left.getLast?, t.joins = false
  behind : ∃ right, ts = r.left ++ (r.tokens ++ right) ∧ ∀ t ∈ right.head?, t.joins = false

/-- The runs of `ts` when `left` stands to its left. -/
def allFrom (left : List Token) : List Token → List PinRun
  | [] => []
  | t :: ts =>
    if t.joins && !left.getLast?.any Token.joins then
      ⟨left, (t :: ts).takeWhile Token.joins⟩ :: allFrom (left ++ [t]) ts
    else allFrom (left ++ [t]) ts

/-- The runs of a list, from left to right. -/
def all (ts : List Token) : List PinRun := allFrom [] ts

variable {left ts us : List Token} {t : Token} {r : PinRun}

theorem any_getLast?_iff : (!left.getLast?.any Token.joins) = true ↔
    ∀ t ∈ left.getLast?, t.joins = false := by
  cases left.getLast? <;> simp

theorem allFrom_begin (h : t.joins = true) (hleft : ∀ u ∈ left.getLast?, u.joins = false) :
    allFrom left (t :: ts) =
      ⟨left, (t :: ts).takeWhile Token.joins⟩ :: allFrom (left ++ [t]) ts := by
  rw [allFrom, if_pos]
  rw [Bool.and_eq_true, any_getLast?_iff]
  exact ⟨h, hleft⟩

theorem allFrom_skip (h : ¬ (t.joins = true ∧ ∀ u ∈ left.getLast?, u.joins = false)) :
    allFrom left (t :: ts) = allFrom (left ++ [t]) ts := by
  rw [allFrom, if_neg]
  rwa [Bool.and_eq_true, any_getLast?_iff]

/-! ### The runs are the longest stretches -/

/-- The run that begins with a list is its longest stretch in front. -/
theorem isMaximal_front : IsMaximal (left ++ us) ⟨left, ts⟩ ↔
    ts ≠ [] ∧ (∀ t ∈ left.getLast?, t.joins = false) ∧ ts = us.takeWhile Token.joins := by
  constructor
  · rintro ⟨hne, hjoins, hbefore, right, hus, hright⟩
    refine ⟨hne, hbefore, ?_⟩
    obtain rfl := List.append_cancel_left hus
    rw [List.takeWhile_append_of_pos hjoins]
    cases right with
    | nil => simp
    | cons u right => simp [hright u rfl]
  · rintro ⟨hne, hbefore, rfl⟩
    refine ⟨hne, fun t ht => List.mem_takeWhile_imp ht, hbefore, us.dropWhile Token.joins, ?_,
      fun t ht => ?_⟩
    · rw [List.takeWhile_append_dropWhile]
    · have hhead := List.head?_dropWhile_not Token.joins us
      rw [Option.mem_def.mp ht] at hhead
      simpa using hhead

/-- The longest stretch right behind `left`, if `left` ends where one may begin. -/
theorem isMaximal_begin : r.left = left ∧ r.IsMaximal (left ++ t :: ts) ↔
    (t.joins = true ∧ ∀ u ∈ left.getLast?, u.joins = false) ∧
      r = ⟨left, (t :: ts).takeWhile Token.joins⟩ := by
  obtain ⟨l, us⟩ := r
  constructor
  · rintro ⟨rfl, h⟩
    obtain ⟨hne, hbefore, rfl⟩ := isMaximal_front.mp h
    refine ⟨⟨?_, hbefore⟩, rfl⟩
    by_contra hjoins
    exact hne (List.takeWhile_cons_of_neg hjoins)
  · rintro ⟨⟨hjoins, hbefore⟩, heq⟩
    obtain ⟨rfl, rfl⟩ := PinRun.mk.inj heq
    refine ⟨rfl, isMaximal_front.mpr ⟨?_, hbefore, rfl⟩⟩
    rw [List.takeWhile_cons_of_pos hjoins]
    exact List.cons_ne_nil t _

/-- A run begins right behind `left` or farther on. -/
theorem IsMaximal.prefix_iff (h : r.IsMaximal (left ++ t :: ts)) :
    left <+: r.left ↔ r.left = left ∨ left ++ [t] <+: r.left := by
  obtain ⟨right, hts, -⟩ := h.behind
  constructor
  · rintro ⟨a, ha⟩
    cases a with
    | nil => exact Or.inl (by rw [← ha, List.append_nil])
    | cons u a =>
      rw [← ha, List.append_assoc] at hts
      obtain ⟨rfl, -⟩ := List.cons.inj (List.append_cancel_left hts)
      exact Or.inr ⟨a, by rw [← ha, List.append_assoc]; rfl⟩
  · rintro (h | h)
    · rw [h]
    · exact (List.prefix_append left [t]).trans h

/-- **The runs found are the longest stretches** that begin behind `left`. -/
theorem mem_allFrom : ∀ {left ts : List Token},
    r ∈ allFrom left ts ↔ left <+: r.left ∧ r.IsMaximal (left ++ ts)
  | left, [] => by
    refine iff_of_false List.not_mem_nil fun ⟨⟨a, ha⟩, h⟩ => h.ne_nil ?_
    obtain ⟨right, hts, -⟩ := h.behind
    have hlength := congrArg List.length hts
    rw [← ha] at hlength
    simp only [List.append_nil, List.length_append] at hlength
    exact List.length_eq_zero_iff.mp (by omega)
  | left, t :: ts => by
    have ih := @mem_allFrom (left ++ [t]) ts
    rw [List.append_assoc, List.singleton_append] at ih
    have hsplit : left <+: r.left ∧ r.IsMaximal (left ++ t :: ts) ↔
        r.left = left ∧ r.IsMaximal (left ++ t :: ts) ∨ r ∈ allFrom (left ++ [t]) ts := by
      rw [ih, ← or_and_right]
      exact and_congr_left fun h => h.prefix_iff
    rw [hsplit, isMaximal_begin]
    by_cases h : t.joins = true ∧ ∀ u ∈ left.getLast?, u.joins = false
    · rw [allFrom_begin h.1 h.2, List.mem_cons, and_iff_right h]
    · rw [allFrom_skip h, or_iff_right fun h' => h h'.1]

theorem mem_all : r ∈ all ts ↔ r.IsMaximal ts := by
  rw [all, mem_allFrom, List.nil_append, and_iff_right (List.nil_prefix)]

/-- **The runs are found in order**, each once. -/
theorem pairwise_allFrom : ∀ left ts : List Token,
    (allFrom left ts).Pairwise fun r r' => r.left.length < r'.left.length
  | _, [] => .nil
  | left, t :: ts => by
    have ih := pairwise_allFrom (left ++ [t]) ts
    by_cases h : t.joins = true ∧ ∀ u ∈ left.getLast?, u.joins = false
    · rw [allFrom_begin h.1 h.2]
      refine .cons (fun r hr => ?_) ih
      have hlength := (mem_allFrom.mp hr).1.length_le
      rw [List.length_append, List.length_singleton] at hlength
      exact hlength
    · rw [allFrom_skip h]
      exact ih

/-- A list that begins with a token of a run begins with all of the run. -/
theorem exists_run (h : t.joins = true) (us : List Token) : ∃ run rest, t :: us = run ++ rest ∧
    run ≠ [] ∧ (∀ u ∈ run, u.joins = true) ∧ ∀ u ∈ rest.head?, u.joins = false := by
  obtain ⟨run, rest, hus, hrun, hrest⟩ := Text.exists_span Token.joins (t :: us)
  refine ⟨run, rest, hus, ?_, hrun, hrest⟩
  rintro rfl
  rw [hrest t (by rw [← List.nil_append rest, ← hus]; rfl)] at h
  cases h

/-! ### Lists in two parts -/

/-- No run goes on from the end of `ts` into `us`. -/
def Apart (ts us : List Token) : Prop :=
  ∀ t ∈ ts.getLast?, ∀ u ∈ us.head?, t.joins = true → u.joins = false

theorem apart_nil (us : List Token) : Apart [] us := fun _ ht => nomatch ht

theorem takeWhile_append (h : Apart ts us) (hne : ts ≠ []) :
    (ts ++ us).takeWhile Token.joins = ts.takeWhile Token.joins := by
  rw [List.takeWhile_append]
  split_ifs with hlength
  · have hjoins := List.takeWhile_eq_self_iff.mp
      ((List.takeWhile_prefix Token.joins).eq_of_length hlength)
    rw [List.takeWhile_eq_self_iff.mpr hjoins]
    cases us with
    | nil => rw [List.takeWhile_nil, List.append_nil]
    | cons u us =>
      have hu := h _ (List.getLast?_eq_getLast_of_ne_nil hne) u rfl
        (hjoins _ (List.getLast_mem hne))
      rw [List.takeWhile_cons_of_neg (by simp [hu]), List.append_nil]
  · rfl

/-- **The runs of a list in two parts**, when none of them goes on from one part into the other. -/
theorem allFrom_append : ∀ {left ts us : List Token}, Apart ts us →
    allFrom left (ts ++ us) = allFrom left ts ++ allFrom (left ++ ts) us
  | left, [], us, _ => by rw [List.nil_append, List.append_nil, allFrom, List.nil_append]
  | left, t :: ts, us, h => by
    have hrest : Apart ts us := by
      cases ts with
      | nil => exact fun _ hu => nomatch hu
      | cons u ts => exact fun v hv => h v (by rwa [List.getLast?_cons_cons])
    have ih := @allFrom_append (left ++ [t]) ts us hrest
    rw [List.append_assoc, List.singleton_append] at ih
    rw [List.cons_append]
    by_cases hbegin : t.joins = true ∧ ∀ u ∈ left.getLast?, u.joins = false
    · have hrun := takeWhile_append h (List.cons_ne_nil t ts)
      rw [List.cons_append] at hrun
      rw [allFrom_begin hbegin.1 hbegin.2, allFrom_begin hbegin.1 hbegin.2, hrun, ih,
        List.cons_append]
    · rw [allFrom_skip hbegin, allFrom_skip hbegin, ih]

/-- A token that ends runs is in none. -/
theorem all_append_singleton (h : t.joins = false) (ts : List Token) :
    all (ts ++ [t]) = all ts := by
  have happ : allFrom [] (ts ++ [t]) = allFrom [] ts ++ allFrom ts [t] :=
    allFrom_append fun u _ v hv _ => by
      obtain rfl : t = v := Option.some.inj hv
      exact h
  rw [all, happ, allFrom_skip (by simp [h]), allFrom, List.append_nil]
  rfl

/-- Nothing begins in the midst of a run. -/
theorem allFrom_of_joins : ∀ {left ts : List Token}, (∃ u ∈ left.getLast?, u.joins = true) →
    (∀ t ∈ ts, t.joins = true) → allFrom left ts = []
  | _, [], _, _ => rfl
  | left, t :: ts, hleft, h => by
    obtain ⟨ht, hts⟩ := List.forall_mem_cons.mp h
    rw [allFrom_skip fun hbegin => ?_]
    · exact allFrom_of_joins ⟨t, by simp, ht⟩ hts
    · obtain ⟨u, hu, hjoins⟩ := hleft
      rw [hbegin.2 u hu] at hjoins
      cases hjoins

/-- A list of tokens of one run has just this run. -/
theorem allFrom_run (hleft : ∀ t ∈ left.getLast?, t.joins = false) (hne : ts ≠ [])
    (hts : ∀ t ∈ ts, t.joins = true) : allFrom left ts = [⟨left, ts⟩] := by
  have hrun : ts.takeWhile Token.joins = ts := List.takeWhile_eq_self_iff.mpr hts
  obtain ⟨t, ts, rfl⟩ := List.exists_cons_of_ne_nil hne
  obtain ⟨ht, hbehind⟩ := List.forall_mem_cons.mp hts
  rw [allFrom_begin ht hleft, hrun, allFrom_of_joins ⟨t, by simp, ht⟩ hbehind]

/-- **One more run** behind tokens that end with none is the last of the runs. -/
theorem all_append_run (hleft : ∀ t ∈ left.getLast?, t.joins = false) (hne : ts ≠ [])
    (hts : ∀ t ∈ ts, t.joins = true) : all (left ++ ts) = all left ++ [⟨left, ts⟩] := by
  have happ : allFrom [] (left ++ ts) = allFrom [] left ++ allFrom left ts :=
    allFrom_append fun u hu v _ hjoins => by
      rw [hleft u hu] at hjoins
      cases hjoins
  rw [all, happ, allFrom_run hleft hne hts]
  rfl

/-- **Reading run by run.** What holds where nothing is left to read, and holds before a token that
ends runs and before a run when it holds behind them, holds wherever no run is under way. -/
theorem reading_induction {motive : List Token → List Token → Prop}
    (nil : ∀ ts, motive ts [])
    (ender : ∀ ts t us, t.joins = false → motive (ts ++ [t]) us → motive ts (t :: us))
    (run : ∀ ts run us, (∀ t ∈ ts.getLast?, t.joins = false) → run ≠ [] →
      (∀ t ∈ run, t.joins = true) → (∀ u ∈ us.head?, u.joins = false) →
        motive (ts ++ run) us → motive ts (run ++ us)) :
    ∀ ts us : List Token, Apart ts us → motive ts us
  | ts, [], _ => nil ts
  | ts, t :: us, hapart => by
    by_cases ht : t.joins = true
    · have hts : ∀ u ∈ ts.getLast?, u.joins = false := by
        intro u hu
        by_contra hj
        rw [hapart u hu t rfl (by simpa using hj)] at ht
        cases ht
      obtain ⟨front, rest, hus, hne, hrun, hrest⟩ := exists_run ht us
      have hlength : rest.length < (t :: us).length := by
        have := List.length_pos_iff.mpr hne
        rw [hus, List.length_append]
        omega
      rw [hus]
      exact run ts front rest hts hne hrun hrest
        (reading_induction nil ender run _ _ fun _ _ u hu _ => hrest u hu)
    · have ht : t.joins = false := by simpa using ht
      refine ender ts t us ht (reading_induction nil ender run _ _ fun u hu v _ hj => ?_)
      obtain rfl : t = u := by simpa using hu
      rw [ht] at hj
      cases hj
  termination_by _ us => us.length
  decreasing_by
    · exact hlength
    · exact Nat.lt_succ_self us.length

end PinRun

/-! ### The items of a list by its runs -/

namespace PinItem

variable {t : Token} {ts us : List Token}

/-- A comma is no item. -/
theorem ofTokens_comma (h : t.payload = .symbol .comma) (ts : List Token) :
    ofTokens (t :: ts) = ofTokens ts := by
  simp [ofTokens, step, h, ofRun]

/-- **Two kinds of tokens end a run.** -/
theorem comma_or_directive (h : t.joins = false) :
    t.payload = .symbol .comma ∨ ∃ d, t.payload = .directive d := by
  unfold Token.joins joins at h
  split at h
  · exact Or.inl ‹_›
  · exact Or.inr ⟨_, ‹_›⟩
  · cases h

/-- A token that ends a run leaves none unfinished. -/
theorem step_of_not_joins (h : t.joins = false) (s : List Token × List PinItem) :
    (step t s).1 = [] := by
  rcases comma_or_directive h with hp | ⟨d, hp⟩ <;> simp only [step, hp]

/-- **A run in front is the first item.** -/
theorem ofTokens_run (hne : ts ≠ []) (hts : ∀ t ∈ ts, t.joins = true)
    (hus : ∀ u ∈ us.head?, u.joins = false) :
    ofTokens (ts ++ us) = .declaration ts :: ofTokens us := by
  cases us with
  | nil =>
    rw [List.append_nil, ofTokens_of_joins hne hts]
    rfl
  | cons u us =>
    have hu := step_of_not_joins (hus u rfl) (us.foldr step ([], []))
    simp only [ofTokens, List.foldr_append, List.foldr_cons, foldr_step_of_joins hts, hu]
    simp [ofRun, hne]

end PinItem

end DesignAtlas
