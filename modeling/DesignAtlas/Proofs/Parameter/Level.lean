import DesignAtlas.Proofs.Parameter.Runs
import DesignAtlas.Proofs.Token.Range

/-! # Brackets of all kinds

Segments are cut with brackets of the three kinds counted together. Tokens are level when they close
what is open and what they open, and hold commas only inside brackets (`Parameter.Level`). Level tokens
are whole (`Level.whole`). A range is level when its last token alone closes all of its brackets
(`Enclosed.level`). -/

namespace DesignAtlas.Parameter

/-- Whether the token opens a bracket of any kind. -/
def opens (t : Token) : Bool :=
  t.isSymbol .openParen || t.isSymbol .openBracket || t.isSymbol .openBrace

/-- Whether the token closes a bracket of any kind. -/
def closes (t : Token) : Bool :=
  t.isSymbol .closeParen || t.isSymbol .closeBracket || t.isSymbol .closeBrace

/-- The number of brackets that open. -/
def opened (ts : List Token) : Nat := ts.countP opens

/-- The number of brackets that close. -/
def closed (ts : List Token) : Nat := ts.countP closes

/-- Behind `depth` open brackets the tokens close these and their own, never more on the way, and
some bracket is open at every comma. -/
structure Level (depth : Nat) (ts : List Token) : Prop where
  all : closed ts = opened ts + depth
  never : ∀ us, us <+: ts → closed us ≤ opened us + depth
  commas : ∀ us, us <+: ts → us.getLast?.any (Token.isSymbol .comma) = true →
    closed us < opened us + depth

instance (depth : Nat) (ts : List Token) : Decidable (Level depth ts) :=
  decidable_of_iff (closed ts = opened ts + depth ∧
      (∀ us ∈ ts.inits, closed us ≤ opened us + depth) ∧
      ∀ us ∈ ts.inits, us.getLast?.any (Token.isSymbol .comma) = true →
        closed us < opened us + depth)
    ⟨fun h => ⟨h.1, fun us hus => h.2.1 us ((List.mem_inits us ts).mpr hus),
        fun us hus => h.2.2 us ((List.mem_inits us ts).mpr hus)⟩,
      fun h => ⟨h.all, fun us hus => h.never us ((List.mem_inits us ts).mp hus),
        fun us hus => h.commas us ((List.mem_inits us ts).mp hus)⟩⟩

/-- The tokens close all that they open, and not before their last. -/
structure Enclosed (ts : List Token) : Prop where
  even : closed ts = opened ts
  inside : ∀ us, us <+: ts → us ≠ [] → us ≠ ts → closed us < opened us

instance (ts : List Token) : Decidable (Enclosed ts) :=
  decidable_of_iff (closed ts = opened ts ∧
      ∀ us ∈ ts.inits, us ≠ [] → us ≠ ts → closed us < opened us)
    ⟨fun h => ⟨h.1, fun us hus => h.2 us ((List.mem_inits us ts).mpr hus)⟩,
      fun h => ⟨h.even, fun us hus => h.inside us ((List.mem_inits us ts).mp hus)⟩⟩

/-! ### Token by token -/

section Cons

variable {t : Token} {ts : List Token} {depth : Nat}

theorem opened_cons (us : List Token) : opened (t :: us) = opened us + if opens t then 1 else 0 :=
  List.countP_cons

theorem closed_cons (us : List Token) : closed (t :: us) = closed us + if closes t then 1 else 0 :=
  List.countP_cons

theorem closes_of_opens (h : opens t = true) : closes t = false := by
  simp only [opens, Token.isSymbol, Bool.or_eq_true, beq_iff_eq] at h
  rcases h with (h | h) | h
  all_goals
    unfold closes Token.isSymbol
    rw [h]
    rfl

theorem nesting_eq (depth : Nat) (t : Token) : nesting depth t =
    if opens t then depth + 1 else if closes t then depth - 1 else depth := by
  obtain ⟨p, s⟩ := t
  cases p with
  | symbol y => cases y <;> rfl
  | _ => rfl

theorem not_opens_of_comma (h : t.isSymbol .comma = true) : opens t = false ∧ closes t = false := by
  have hp : t.payload = .symbol .comma := by simpa [Token.isSymbol] using h
  unfold opens closes Token.isSymbol
  rw [hp]
  exact ⟨rfl, rfl⟩

theorem level_nil_iff : Level depth [] ↔ depth = 0 := by
  constructor
  · intro h
    have := h.all
    simp only [closed, opened, List.countP_nil] at this
    omega
  · rintro rfl
    refine ⟨rfl, fun us hus => ?_, fun us hus hcomma => ?_⟩
    · rw [List.prefix_nil.mp hus]
      exact Nat.le_refl _
    · rw [List.prefix_nil.mp hus] at hcomma
      cases hcomma

/-- The first of level tokens is a comma only inside brackets. -/
theorem Level.not_comma (h : Level depth (t :: ts)) :
    ¬ (t.isSymbol .comma && depth == 0) = true := by
  intro hc
  rw [Bool.and_eq_true, beq_iff_eq] at hc
  obtain ⟨hc, rfl⟩ := hc
  obtain ⟨ho, hcl⟩ := not_opens_of_comma hc
  have := h.commas [t] (List.prefix_append [t] ts) (by simpa using hc)
  rw [opened_cons, closed_cons, ho, hcl] at this
  simp [opened, closed] at this

/-- **Behind their first token** level tokens are level at the depth that it leaves. -/
theorem Level.tail (h : Level depth (t :: ts)) : Level (nesting depth t) ts := by
  have hall := h.all
  have hfirst := h.never [t] (List.prefix_append [t] ts)
  have hnever : ∀ us, us <+: ts → closed (t :: us) ≤ opened (t :: us) + depth := fun us hus =>
    h.never (t :: us) (List.cons_prefix_cons.mpr ⟨rfl, hus⟩)
  have hcommas : ∀ us, us <+: ts → us.getLast?.any (Token.isSymbol .comma) = true →
      closed (t :: us) < opened (t :: us) + depth := by
    intro us hus hcomma
    refine h.commas (t :: us) (List.cons_prefix_cons.mpr ⟨rfl, hus⟩) ?_
    cases us with
    | nil => cases hcomma
    | cons u us => rwa [List.getLast?_cons_cons]
  have hnil : opened [] = 0 ∧ closed [] = 0 := ⟨rfl, rfl⟩
  rw [nesting_eq]
  simp only [opened_cons, closed_cons, hnil.1, hnil.2] at hall hfirst hnever hcommas
  by_cases ho : opens t = true
  · simp only [if_pos ho, closes_of_opens ho, Bool.false_eq_true, if_false] at hall hnever hcommas ⊢
    exact ⟨by omega, fun us hus => by have := hnever us hus; omega,
      fun us hus hcomma => by have := hcommas us hus hcomma; omega⟩
  by_cases hc : closes t = true
  · simp only [if_neg ho, if_pos hc] at hall hfirst hnever hcommas ⊢
    exact ⟨by omega, fun us hus => by have := hnever us hus; omega,
      fun us hus hcomma => by have := hcommas us hus hcomma; omega⟩
  · simp only [if_neg ho, if_neg hc] at hall hnever hcommas ⊢
    exact ⟨by omega, fun us hus => by have := hnever us hus; omega,
      fun us hus hcomma => by have := hcommas us hus hcomma; omega⟩

end Cons

/-! ### Level tokens are whole -/

/-- What follows level tokens goes on with their run. -/
theorem Level.runs_append : ∀ {ts : List Token} {depth : Nat}, Level depth ts →
    ∀ us, runs depth (ts ++ us) = (runs 0 us).modifyHead (ts ++ ·)
  | [], depth, h, us => by
    rw [level_nil_iff.mp h]
    exact whole_nil us
  | t :: ts, depth, h, us => by
    rw [List.cons_append, runs_cons, if_neg h.not_comma, h.tail.runs_append,
      List.modifyHead_modifyHead]
    rfl

/-- **Level tokens are whole.** -/
theorem Level.whole {ts : List Token} (h : Level 0 ts) : Whole ts := h.runs_append

/-- **A range whose last token closes all of its brackets** is level. -/
theorem Enclosed.level {ts : List Token} (h : Enclosed ts) (hrange : Token.IsRange ts) :
    Level 0 ts := by
  refine ⟨h.even, fun us hus => ?_, fun us hus hcomma => ?_⟩
  · by_cases hnil : us = []
    · rw [hnil]
      exact Nat.zero_le _
    by_cases hall : us = ts
    · rw [hall, h.even]
      exact Nat.le_refl _
    · exact Nat.le_of_lt (h.inside us hus hnil hall)
  · refine h.inside us hus ?_ ?_
    · rintro rfl
      cases hcomma
    · -- the last token is the bracket that closes the range
      rintro rfl
      have hlast := hrange.last
      rcases List.eq_nil_or_concat us with rfl | ⟨init, t, rfl⟩
      · cases hcomma
      · simp only [List.concat_eq_append, List.getLast?_concat, Option.any_some, Token.isSymbol,
          beq_iff_eq] at hcomma hlast
        rw [hcomma] at hlast
        cases hlast

end DesignAtlas.Parameter
