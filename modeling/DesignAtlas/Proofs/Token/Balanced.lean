import DesignAtlas.Token.Bracket
import Mathlib.Data.List.Infix
import Mathlib.Tactic.Common

/-! # Tokens whose parentheses balance

Parentheses balance when as many close as open and no beginning of the tokens closes more than it
opens. The parenthesis that `closeParen?` finds behind an open one is the one behind balanced
tokens, and there is only one such (`closeParen?_eq_some_iff`). -/

namespace DesignAtlas.Token

/-- The number of opening parentheses. -/
def opened (ts : List Token) : Nat := ts.countP (isSymbol .openParen)

/-- The number of closing parentheses. -/
def closed (ts : List Token) : Nat := ts.countP (isSymbol .closeParen)

/-- As many parentheses close as open, and never more on the way. -/
structure Balanced (ts : List Token) : Prop where
  even : closed ts = opened ts
  never : ∀ us, us <+: ts → closed us ≤ opened us

instance (ts : List Token) : Decidable (Balanced ts) :=
  decidable_of_iff (closed ts = opened ts ∧ ∀ us ∈ ts.inits, closed us ≤ opened us)
    ⟨fun h => ⟨h.1, fun us hus => h.2 us ((List.mem_inits us ts).mpr hus)⟩,
      fun h => ⟨h.even, fun us hus => h.never us ((List.mem_inits us ts).mp hus)⟩⟩

/-- The tokens close `depth` parentheses more than they open, and never more on the way. -/
structure Closes (depth : Nat) (ts : List Token) : Prop where
  all : closed ts = opened ts + depth
  never : ∀ us, us <+: ts → closed us ≤ opened us + depth

theorem closes_zero_iff {ts : List Token} : Closes 0 ts ↔ Balanced ts :=
  ⟨fun h => ⟨h.all, h.never⟩, fun h => ⟨h.even, h.never⟩⟩

theorem closes_nil_iff {depth : Nat} : Closes depth [] ↔ depth = 0 := by
  constructor
  · intro h
    have := h.all
    simp only [closed, opened, List.countP_nil] at this
    omega
  · rintro rfl
    refine ⟨rfl, fun us hus => ?_⟩
    rw [List.prefix_nil.mp hus]
    exact Nat.le_refl _

section Cons

variable {t : Token} {ts : List Token} {depth d c o : Nat}

/-- A token in front that closes `c` parentheses and opens `o` shifts the depth. -/
theorem closes_cons_iff (hc : ∀ us, closed (t :: us) = closed us + c)
    (ho : ∀ us, opened (t :: us) = opened us + o) (h : depth + o = d + c) :
    Closes depth (t :: ts) ↔ Closes d ts := by
  constructor
  · intro hcl
    refine ⟨?_, fun us hus => ?_⟩
    · have := hcl.all
      rw [ho, hc] at this
      omega
    · have := hcl.never (t :: us) (List.cons_prefix_cons.mpr ⟨rfl, hus⟩)
      rw [ho, hc] at this
      omega
  · intro hcl
    refine ⟨?_, fun us hus => ?_⟩
    · have := hcl.all
      rw [ho, hc]
      omega
    · rcases List.prefix_cons_iff.mp hus with rfl | ⟨vs, rfl, hvs⟩
      · exact Nat.zero_le _
      · have := hcl.never vs hvs
        rw [ho, hc]
        omega

theorem closed_cons (us : List Token) :
    closed (t :: us) = closed us + if t.isSymbol .closeParen then 1 else 0 := List.countP_cons

theorem opened_cons (us : List Token) :
    opened (t :: us) = opened us + if t.isSymbol .openParen then 1 else 0 := List.countP_cons

theorem not_open_of_close (h : t.isSymbol .closeParen = true) : t.isSymbol .openParen = false := by
  unfold isSymbol at h ⊢
  rw [eq_of_beq h]
  rfl

theorem closes_cons_close (h : t.isSymbol .closeParen = true) :
    Closes (depth + 1) (t :: ts) ↔ Closes depth ts :=
  closes_cons_iff closed_cons opened_cons (by simp [h, not_open_of_close h])

/-- A closing parenthesis in front needs an open one before it. -/
theorem not_closes_zero_cons (h : t.isSymbol .closeParen = true) : ¬ Closes 0 (t :: ts) := by
  intro hcl
  have := hcl.never [t] (List.cons_prefix_cons.mpr ⟨rfl, List.nil_prefix⟩)
  rw [closed_cons, opened_cons, if_pos h, not_open_of_close h] at this
  simp [opened] at this

theorem closes_cons_open (hc : ¬ t.isSymbol .closeParen = true)
    (ho : t.isSymbol .openParen = true) : Closes depth (t :: ts) ↔ Closes (depth + 1) ts :=
  closes_cons_iff closed_cons opened_cons (by simp [hc, ho])

theorem closes_cons_other (hc : ¬ t.isSymbol .closeParen = true)
    (ho : ¬ t.isSymbol .openParen = true) : Closes depth (t :: ts) ↔ Closes depth ts :=
  closes_cons_iff closed_cons opened_cons (by simp [hc, ho])

end Cons

/-! ### Finding the closing parenthesis -/

section Find

variable {t : Token} {ts : List Token} {depth : Nat}

theorem closeParen?_cons_last (hc : t.isSymbol .closeParen = true) :
    closeParen? 0 (t :: ts) = some ⟨[], t, ts⟩ := if_pos hc

theorem closeParen?_cons_close (hc : t.isSymbol .closeParen = true) :
    closeParen? (depth + 1) (t :: ts) = (closeParen? depth ts).map (.cons t) := if_pos hc

theorem closeParen?_cons_open (hc : ¬ t.isSymbol .closeParen = true)
    (ho : t.isSymbol .openParen = true) :
    closeParen? depth (t :: ts) = (closeParen? (depth + 1) ts).map (.cons t) :=
  (if_neg hc).trans (if_pos ho)

theorem closeParen?_cons_other (hc : ¬ t.isSymbol .closeParen = true)
    (ho : ¬ t.isSymbol .openParen = true) :
    closeParen? depth (t :: ts) = (closeParen? depth ts).map (.cons t) :=
  (if_neg hc).trans (if_neg ho)

end Find

theorem closes_of_closeParen? : ∀ {ts : List Token} {depth : Nat} {e : Enclosed},
    closeParen? depth ts = some e → Closes depth e.inner ∧ e.close.isSymbol .closeParen = true
  | t :: ts, depth, e, h => by
    unfold closeParen? at h
    split_ifs at h with hc ho
    · cases depth with
      | zero =>
        obtain rfl := Option.some.inj h
        exact ⟨closes_nil_iff.mpr rfl, hc⟩
      | succ d =>
        obtain ⟨e', he', rfl⟩ := Option.map_eq_some_iff.mp h
        obtain ⟨h1, h2⟩ := closes_of_closeParen? he'
        exact ⟨(closes_cons_close hc).mpr h1, h2⟩
    · obtain ⟨e', he', rfl⟩ := Option.map_eq_some_iff.mp h
      obtain ⟨h1, h2⟩ := closes_of_closeParen? he'
      exact ⟨(closes_cons_open hc ho).mpr h1, h2⟩
    · obtain ⟨e', he', rfl⟩ := Option.map_eq_some_iff.mp h
      obtain ⟨h1, h2⟩ := closes_of_closeParen? he'
      exact ⟨(closes_cons_other hc ho).mpr h1, h2⟩

theorem closeParen?_of_closes {c : Token} (hclose : c.isSymbol .closeParen = true)
    (rest : List Token) : ∀ {inner : List Token} {depth : Nat}, Closes depth inner →
      closeParen? depth (inner ++ c :: rest) = some ⟨inner, c, rest⟩
  | [], depth, h => by
    obtain rfl := closes_nil_iff.mp h
    simp [closeParen?, hclose]
  | t :: inner, depth, h => by
    rw [List.cons_append]
    unfold closeParen?
    split_ifs with hc ho
    · cases depth with
      | zero => exact absurd h (not_closes_zero_cons hc)
      | succ d =>
        simp only [closeParen?_of_closes hclose rest ((closes_cons_close hc).mp h)]
        rfl
    · rw [closeParen?_of_closes hclose rest ((closes_cons_open hc ho).mp h)]
      rfl
    · rw [closeParen?_of_closes hclose rest ((closes_cons_other hc ho).mp h)]
      rfl

/-- **The parenthesis that closes an open one** stands behind balanced tokens. -/
theorem closeParen?_eq_some_iff {ts : List Token} {e : Enclosed} :
    closeParen? 0 ts = some e ↔
      Balanced e.inner ∧ e.close.isSymbol .closeParen = true ∧
        e.inner ++ e.close :: e.rest = ts := by
  constructor
  · intro h
    obtain ⟨h1, h2⟩ := closes_of_closeParen? h
    exact ⟨closes_zero_iff.mp h1, h2, closeParen?_append h⟩
  · rintro ⟨hb, hc, rfl⟩
    exact closeParen?_of_closes hc e.rest (closes_zero_iff.mpr hb)

end DesignAtlas.Token
