import DesignAtlas.Pin.Item
import Mathlib.Tactic.Common

/-! # The items of a token list

Two kinds of tokens end an item of a pin list, commas and directives. Tokens of other kinds join, and
a list in which they stand before a comma is cut at that comma (`ofTokens_append_comma`). Directives
are items exactly as they stand in the list (`ofTokens_directive`, `exists_of_directive`). -/

namespace DesignAtlas.PinItem

/-- Whether a token goes on with the item before it. -/
def joins (p : Payload) : Bool :=
  match p with
  | .symbol .comma | .directive _ => false
  | _ => true

variable {t : Token} {ts : List Token}

/-! ### One token -/

theorem step_of_joins (h : joins t.payload = true) (s : List Token × List PinItem) :
    step t s = (t :: s.1, s.2) := by
  unfold step
  split
  · rename_i hp
    rw [hp] at h
    cases h
  · rename_i hp
    rw [hp] at h
    cases h
  · rfl

theorem ofTokens_directive {d : Directive} (h : t.payload = .directive d) (ts : List Token) :
    ofTokens (t :: ts) = .directive d :: ofTokens ts := by
  simp [ofTokens, step, h, ofRun]

/-! ### A run of tokens -/

theorem foldr_step_of_joins : ∀ {ts : List Token}, (∀ t ∈ ts, joins t.payload = true) →
    ∀ s : List Token × List PinItem, ts.foldr step s = (ts ++ s.1, s.2)
  | [], _, _ => rfl
  | t :: ts, h, s => by
    rw [List.foldr_cons, foldr_step_of_joins (fun u hu => h u (by simp [hu])) s,
      step_of_joins (h t (by simp))]
    rfl

theorem ofTokens_of_joins (hne : ts ≠ []) (h : ∀ t ∈ ts, joins t.payload = true) :
    ofTokens ts = [.declaration ts] := by
  simp [ofTokens, foldr_step_of_joins h, ofRun, hne]

/-- **A run before a comma** is an item of its own. -/
theorem ofTokens_append_comma (hne : ts ≠ []) (h : ∀ t ∈ ts, joins t.payload = true)
    (ht : t.payload = .symbol .comma) (us : List Token) :
    ofTokens (ts ++ t :: us) = .declaration ts :: ofTokens us := by
  have hcomma : ∀ s : List Token × List PinItem, step t s = ([], ofRun s.1 ++ s.2) := by
    intro s
    rw [step, ht]
  simp only [ofTokens, List.foldr_append, List.foldr_cons, hcomma, foldr_step_of_joins h]
  simp [ofRun, hne]

/-! ### Directives -/

theorem not_mem_ofRun {d : Directive} {run : List Token} : .directive d ∉ ofRun run := by
  unfold ofRun
  split_ifs <;> simp

/-- **Each directive of the items** is one of the tokens. -/
theorem exists_of_directive {d : Directive} (h : .directive d ∈ ofTokens ts) :
    ∃ t ∈ ts, t.payload = .directive d := by
  have hfold : .directive d ∈ (ts.foldr step ([], [])).2 :=
    (List.mem_append.mp h).resolve_left not_mem_ofRun
  clear h
  induction ts with
  | nil => cases hfold
  | cons t ts ih =>
    have hbehind : .directive d ∈ (ts.foldr step ([], [])).2 →
        ∃ u ∈ t :: ts, u.payload = .directive d := fun hd =>
      let ⟨u, hu, hp⟩ := ih hd
      ⟨u, List.mem_cons_of_mem t hu, hp⟩
    rw [List.foldr_cons, step] at hfold
    split at hfold
    · exact hbehind ((List.mem_append.mp hfold).resolve_left not_mem_ofRun)
    · rename_i e he
      rcases List.mem_cons.mp hfold with heq | hfold
      · cases heq
        exact ⟨t, List.mem_cons_self, he⟩
      · exact hbehind ((List.mem_append.mp hfold).resolve_left not_mem_ofRun)
    · exact hbehind hfold

end DesignAtlas.PinItem
