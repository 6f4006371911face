import DesignAtlas.Condition
import Mathlib.Tactic.Common

/-! # The depth of a stack of conditions

How many regions are open behind a directive, and whether the directive is rejected, depends on the
number of regions open before it and on the name of the directive (`depth_advance`,
`rejects_eq`); the conditions themselves, and what an `else` does to them, do not matter. -/

namespace DesignAtlas.ConditionStack

theorem depth_amend (s : ConditionStack) (f : Condition → Condition) :
    (s.amend f).depth = s.depth := by
  unfold amend depth
  split
  · rename_i hr
    rw [hr]
    rfl
  · rfl

/-- **How many regions are open behind a directive.** -/
theorem depth_advance (s : ConditionStack) (d : Directive) :
    (s.advance d).depth =
      if d.name = "ifdef" ∨ d.name = "ifndef" then s.depth + 1
      else if d.name = "endif" then s.depth - 1
      else s.depth := by
  unfold advance apply
  by_cases h1 : d.name = "ifdef"
  · simp [h1, push, depth]
  by_cases h2 : d.name = "ifndef"
  · simp [h2, push, depth]
  by_cases h3 : d.name = "endif"
  · rcases hr : s.regions with _ | ⟨c, cs⟩ <;> simp [h3, pop, hr, depth]
  by_cases h4 : d.name = "else"
  · simp [h4, depth_amend]
  by_cases h5 : d.name = "elsif"
  · simp [h5, depth_amend]
  · simp [h1, h2, h3, h4, h5]

/-- **Only an `endif` outside all regions is rejected.** -/
theorem rejects_eq (s : ConditionStack) (d : Directive) :
    s.rejects d = (d.name == "endif" && s.depth == 0) := by
  unfold rejects apply
  by_cases h1 : d.name = "ifdef"
  · simp [h1]
  by_cases h2 : d.name = "ifndef"
  · simp [h2]
  by_cases h3 : d.name = "endif"
  · rcases hr : s.regions with _ | ⟨c, cs⟩ <;> simp [h3, pop, hr, depth]
  by_cases h4 : d.name = "else"
  · simp [h4]
  by_cases h5 : d.name = "elsif"
  · simp [h5]
  · simp [h1, h2, h3, h4, h5]

variable {s s' : ConditionStack}

theorem depth_advance_congr (h : s.depth = s'.depth) (d : Directive) :
    (s.advance d).depth = (s'.advance d).depth := by
  rw [depth_advance, depth_advance, h]

theorem rejects_congr (h : s.depth = s'.depth) (d : Directive) : s.rejects d = s'.rejects d := by
  rw [rejects_eq, rejects_eq, h]

theorem rejected_congr : ∀ {s s' : ConditionStack}, s.depth = s'.depth → ∀ ds : List Directive,
    s.rejected ds = s'.rejected ds
  | _, _, _, [] => rfl
  | _, _, h, d :: ds => by
    rw [rejected, rejected, rejects_congr h, rejected_congr (depth_advance_congr h d) ds]

/-! ### Open conditions and the policy -/

theorem snapshot_push (s : ConditionStack) (c : Condition) :
    (s.push c).snapshot = s.snapshot ++ [c.display] := by
  simp [snapshot, push]

/-- A stack without open conditions is the one outside all regions. -/
theorem eq_empty_of_snapshot (h : s.snapshot = []) : s = empty s.policy := by
  obtain ⟨policy, regions⟩ := s
  have hregions : regions = [] := by simpa [snapshot] using h
  rw [hregions]
  rfl

theorem policy_advance (s : ConditionStack) (d : Directive) : (s.advance d).policy = s.policy := by
  unfold advance apply amend push pop
  split_ifs <;> rcases s with ⟨_ | _, _ | _⟩ <;> rfl

theorem policy_foldl_advance : ∀ (ds : List Directive) (s : ConditionStack),
    (ds.foldl advance s).policy = s.policy
  | [], _ => rfl
  | d :: ds, s => (policy_foldl_advance ds (s.advance d)).trans (policy_advance s d)

end DesignAtlas.ConditionStack
