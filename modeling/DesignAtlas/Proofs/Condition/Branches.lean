import DesignAtlas.Proofs.Condition.Nested

/-! # The branches of a region

A region is divided into branches: the first stands behind its `ifdef` or `ifndef`, others behind an
`elsif`, and the last perhaps behind an `else` (`Division`). Under the policy that negates, the
condition of a branch is what its directive states, and that of the `else` is the negation of the
condition before it. Negating leaves the condition of an `elsif` as it is. So the `else` is told
apart from the branch before it exactly when this is the first one, and otherwise the two carry the
same condition (`snapshot_alternative_ne_iff`). -/

namespace DesignAtlas

namespace Directive

/-- A branch of a region: the directive in front of it and the well nested ones in it. -/
structure Branch where
  head : Directive
  inner : List Directive
  nested : Nested false inner

/-- The directives of the branch in order. -/
def Branch.directives (b : Branch) : List Directive := b.head :: b.inner

/-- A region with an `else`: the branches before it, of which `last` stands directly before it, and
the `else` branch. -/
structure Division where
  earlier : List Branch
  last : Branch
  alternative : Branch
  begun : ∀ b ∈ (earlier ++ [last]).head?, b.head.begins = true
  continued : ∀ b ∈ (earlier ++ [last]).tail, b.head.name = "elsif"
  negated : alternative.head.name = "else"

namespace Division

/-- The directives up to a place in the branch before the `else`, behind those in `p`. -/
def beforeElse (r : Division) (p : List Directive) : List Directive :=
  r.earlier.flatMap Branch.directives ++ r.last.head :: p

/-- The directives up to a place in the `else` branch, behind those in `q`. -/
def insideElse (r : Division) (q : List Directive) : List Directive :=
  r.beforeElse r.last.inner ++ r.alternative.head :: q

end Division

end Directive

open Directive (Nested Branch Division)

/-! ### Negated conditions -/

/-- **Negating a condition** changes it, unless an `elsif` states it. -/
theorem Condition.display_negate_eq_iff (c : Condition) :
    c.negate.display = c.display ↔ c.kind = .elsif := by
  have hne : ∀ argument, Directive.display ⟨"ifndef", argument⟩ ≠
      Directive.display ⟨"ifdef", argument⟩ := by
    intro argument h
    have hlength := congrArg String.length h
    unfold Directive.display at hlength
    split at hlength <;> simp only [String.length_append, Nat.add_left_inj] at hlength <;>
      exact absurd hlength (by decide)
  obtain ⟨kind, argument⟩ := c
  cases kind with
  | ifdef => exact iff_of_false (hne argument) (fun h => nomatch h)
  | ifndef => exact iff_of_false (hne argument).symm (fun h => nomatch h)
  | elsif => exact iff_of_true rfl rfl

namespace ConditionStack

variable {s : ConditionStack} {inside : Bool} {ds p : List Directive}

/-! ### Places among well nested directives -/

/-- A prefix ends in one of two lists or behind the first. -/
theorem prefix_append {α : Type} {p l m : List α} (h : p <+: l ++ m) :
    p <+: l ∨ ∃ q, p = l ++ q ∧ q <+: m := by
  obtain ⟨r, hr⟩ := h
  rcases List.append_eq_append_iff.mp hr with ⟨a, rfl, -⟩ | ⟨c, rfl, hm⟩
  · exact Or.inl (List.prefix_append p a)
  · exact Or.inr ⟨c, rfl, ⟨r, hm.symm⟩⟩

/-- The regions that well nested directives cannot change: those around them, of which a divided one
is none. -/
def around (inside : Bool) (s : ConditionStack) : List Condition :=
  if inside then s.regions.tail else s.regions

theorem around_suffix (inside : Bool) (s : ConditionStack) : s.around inside <:+ s.regions := by
  cases inside with
  | false => exact List.suffix_rfl
  | true => exact List.tail_suffix s.regions

theorem around_advance_of_divides {d : Directive} (h : d.divides = true) (s : ConditionStack) :
    (s.advance d).around true = s.around true := by
  obtain ⟨f, hf⟩ := apply_of_divides h s
  rw [advance_of_apply hf]
  obtain ⟨policy, regions⟩ := s
  cases policy <;> cases regions <;> rfl

/-- **The regions around well nested directives** stay open at every place among them. -/
theorem around_suffix_of_nested (h : Nested inside ds) : ∀ {p : List Directive}, p <+: ds →
    ∀ s : ConditionStack, s.around inside <:+ (p.foldl advance s).regions := by
  induction h with
  | nil =>
    intro p hp s
    rw [List.prefix_nil.mp hp]
    exact around_suffix _ s
  | unrelated plain _ ih =>
    intro p hp s
    rcases List.prefix_cons_iff.mp hp with rfl | ⟨q, rfl, hq⟩
    · exact around_suffix _ s
    · rw [List.foldl_cons, advance_of_apply (apply_of_not_conditional plain s)]
      exact ih hq s
  | divider divides _ ih =>
    intro p hp s
    rcases List.prefix_cons_iff.mp hp with rfl | ⟨q, rfl, hq⟩
    · exact around_suffix _ s
    · rw [List.foldl_cons, ← around_advance_of_divides divides]
      exact ih hq _
  | region begins inner ends _ ihinner ihrest =>
    intro p hp s
    rcases List.prefix_cons_iff.mp hp with rfl | ⟨q, rfl, hq⟩
    · exact around_suffix _ s
    obtain ⟨k, -, hk⟩ := apply_of_begins begins s
    rw [List.foldl_cons, advance_of_apply hk]
    rcases prefix_append hq with hq | ⟨r, rfl, hr⟩
    · exact (around_suffix _ s).trans (ihinner hq (s.push ⟨k, _⟩))
    -- behind the region the stack is as it was before
    obtain ⟨c, hc⟩ := applyAll_push_of_nested inner s ⟨k, _⟩
    rw [List.foldl_append, foldl_advance_of_applyAll hc]
    rcases List.prefix_cons_iff.mp hr with rfl | ⟨t, rfl, ht⟩
    · exact (around_suffix _ s).trans (List.suffix_cons c s.regions)
    · rw [List.foldl_cons, advance_of_apply (apply_push_of_ends ends s c)]
      exact ihrest ht s

/-- Among well nested directives a snapshot begins with that of the stack before them. -/
theorem snapshot_prefix_of_nested (h : Nested false ds) (hp : p <+: ds) (s : ConditionStack) :
    s.snapshot <+: (p.foldl advance s).snapshot := by
  obtain ⟨extra, hextra⟩ : s.regions <:+ (p.foldl advance s).regions :=
    around_suffix_of_nested h hp s
  unfold snapshot
  rw [← hextra, List.reverse_append, List.map_append]
  exact List.prefix_append _ _

/-! ### Conditions of branches -/

/-- An `elsif` states the condition of its branch under the policy that negates. -/
theorem advance_elsif (hs : s.policy = .negate) {d : Directive} (hd : d.name = "elsif")
    (c : Condition) : (s.push c).advance d = s.push ⟨.elsif, d.argument⟩ := by
  have happly : (s.push c).apply d = (.ok (), (s.push c).amend fun _ => ⟨.elsif, d.argument⟩) := by
    simp [apply, hd]
  rw [advance_of_apply happly, amend_push, if_pos hs]

/-- An `else` negates the condition of its region under the policy that negates. -/
theorem advance_else (hs : s.policy = .negate) {d : Directive} (hd : d.name = "else")
    (c : Condition) : (s.push c).advance d = s.push c.negate := by
  have happly : (s.push c).apply d = (.ok (), (s.push c).amend Condition.negate) := by
    simp [apply, hd]
  rw [advance_of_apply happly, amend_push, if_pos hs]

theorem foldl_advance_branch (b : Branch) (s : ConditionStack) :
    b.directives.foldl advance s = s.advance b.head := by
  rw [Branch.directives, List.foldl_cons, foldl_advance_of_nested b.nested]

/-- Branches behind an `elsif` change at most the condition of their region. -/
theorem exists_foldl_advance_branches (hs : s.policy = .negate) : ∀ {bs : List Branch},
    (∀ b ∈ bs, b.head.name = "elsif") → ∀ c, ∃ c',
      (bs.flatMap Branch.directives).foldl advance (s.push c) = s.push c'
  | [], _, c => ⟨c, rfl⟩
  | b :: bs, h, c => by
    obtain ⟨hb, hbs⟩ := List.forall_mem_cons.mp h
    rw [List.flatMap_cons, List.foldl_append, foldl_advance_branch, advance_elsif hs hb]
    exact exists_foldl_advance_branches hs hbs _

/-- **The condition of the branch before the `else`** is that of an `elsif`, unless the branch is
the first one. -/
theorem exists_condition (hs : s.policy = .negate) (r : Division) :
    ∃ c : Condition, (c.kind = .elsif ↔ r.earlier ≠ []) ∧
      (r.beforeElse []).foldl advance s = s.push c := by
  obtain ⟨earlier, last, alternative, begun, continued, negated⟩ := r
  unfold Division.beforeElse
  cases earlier with
  | nil =>
    obtain ⟨k, hk, happly⟩ := apply_of_begins (begun last rfl) s
    exact ⟨⟨k, _⟩, iff_of_false hk (fun h => h rfl), advance_of_apply happly⟩
  | cons b bs =>
    obtain ⟨hbs, hlast⟩ := List.forall_mem_append.mp continued
    obtain ⟨k, -, happly⟩ := apply_of_begins (begun b rfl) s
    obtain ⟨c, hc⟩ := exists_foldl_advance_branches hs hbs ⟨k, _⟩
    refine ⟨⟨.elsif, last.head.argument⟩, iff_of_true rfl (List.cons_ne_nil b bs), ?_⟩
    rw [List.foldl_append, List.flatMap_cons, List.foldl_append, foldl_advance_branch,
      advance_of_apply happly, hc]
    exact advance_elsif hs (hlast last List.mem_cons_self) c

/-- The conditions listed behind some directives. -/
def snapshotBehind (s : ConditionStack) (ds : List Directive) : List String :=
  (ds.foldl advance s).snapshot

/-- **The snapshots in the `else` branch and in the branch before it**: both begin with the
conditions around the region; the condition of the region follows, and it is negated in the
`else`. At the end of a branch nothing else is listed. -/
theorem exists_snapshots (hs : s.policy = .negate) (r : Division) :
    ∃ c : Condition, (c.kind = .elsif ↔ r.earlier ≠ []) ∧
      (∀ p, p <+: r.last.inner → s.snapshot ++ [c.display] <+: s.snapshotBehind (r.beforeElse p)) ∧
      (∀ q, q <+: r.alternative.inner →
        s.snapshot ++ [c.negate.display] <+: s.snapshotBehind (r.insideElse q)) ∧
      s.snapshotBehind (r.beforeElse r.last.inner) = s.snapshot ++ [c.display] ∧
      s.snapshotBehind (r.insideElse r.alternative.inner) = s.snapshot ++ [c.negate.display] := by
  obtain ⟨c, hkind, hc⟩ := exists_condition hs r
  have hbefore : ∀ p, (r.beforeElse p).foldl advance s = p.foldl advance (s.push c) := by
    intro p
    rw [← hc, ← List.foldl_append, Division.beforeElse, Division.beforeElse, List.append_assoc,
      List.singleton_append]
  have hlast : (r.beforeElse r.last.inner).foldl advance s = s.push c := by
    rw [hbefore, foldl_advance_of_nested r.last.nested]
  have hinside : ∀ q, (r.insideElse q).foldl advance s = q.foldl advance (s.push c.negate) := by
    intro q
    rw [Division.insideElse, List.foldl_append, hlast, List.foldl_cons, advance_else hs r.negated]
  have halternative : (r.insideElse r.alternative.inner).foldl advance s = s.push c.negate := by
    rw [hinside, foldl_advance_of_nested r.alternative.nested]
  unfold snapshotBehind
  refine ⟨c, hkind, fun p hp => ?_, fun q hq => ?_, ?_, ?_⟩
  · rw [hbefore, ← snapshot_push]
    exact snapshot_prefix_of_nested r.last.nested hp _
  · rw [hinside, ← snapshot_push]
    exact snapshot_prefix_of_nested r.alternative.nested hq _
  · rw [hlast, snapshot_push]
  · rw [halternative, snapshot_push]

/-- **An `else` is told apart from the branch before it exactly when that is the first branch.**
Then no snapshot taken in the one is taken in the other; behind an `elsif`, the two branches are
listed under the same conditions. -/
theorem snapshot_alternative_ne_iff (hs : s.policy = .negate) (r : Division) :
    ((∀ p q, p <+: r.last.inner → q <+: r.alternative.inner →
        s.snapshotBehind (r.insideElse q) ≠ s.snapshotBehind (r.beforeElse p)) ↔
          r.earlier = []) ∧
    (r.earlier ≠ [] → s.snapshotBehind (r.insideElse r.alternative.inner) =
      s.snapshotBehind (r.beforeElse r.last.inner)) := by
  obtain ⟨c, hkind, hbefore, hinside, hlast, halternative⟩ := exists_snapshots hs r
  have hequal : r.earlier ≠ [] → s.snapshotBehind (r.insideElse r.alternative.inner) =
      s.snapshotBehind (r.beforeElse r.last.inner) := by
    intro h
    rw [hlast, halternative, c.display_negate_eq_iff.mpr (hkind.mpr h)]
  refine ⟨⟨fun h => ?_, fun h p q hp hq heq => ?_⟩, hequal⟩
  · by_contra hne
    exact h _ _ List.prefix_rfl List.prefix_rfl (hequal hne)
  · -- the two conditions stand at the same place of both snapshots
    have hprefix := hinside q hq
    rw [heq] at hprefix
    have hsame := (List.prefix_of_prefix_length_le hprefix (hbefore p hp) (by simp)).eq_of_length
      (by simp)
    have hdisplay : c.negate.display = c.display := by simpa using hsame
    exact hkind.mp (c.display_negate_eq_iff.mp hdisplay) h

/-- An `else` behind an `elsif` in an open region: both branches are listed under the condition of the
`elsif`. -/
theorem snapshot_alternative_ne_iff_elsif :
    let s : ConditionStack := ⟨.negate, [⟨.ifndef, "X"⟩]⟩
    let r : Division :=
      { earlier := [⟨⟨"ifdef", "A"⟩, [], .nil⟩]
        last := ⟨⟨"elsif", "B"⟩, [⟨"define", "W 8"⟩], .unrelated (by decide) .nil⟩
        alternative := ⟨⟨"else", ""⟩, [], .nil⟩
        begun := by simp [Directive.begins]
        continued := by simp
        negated := rfl }
    s.policy = .negate ∧ r.earlier ≠ [] ∧
    s.snapshotBehind (r.beforeElse r.last.inner) = ["`ifndef X", "`elsif B"] ∧
    s.snapshotBehind (r.insideElse r.alternative.inner) = ["`ifndef X", "`elsif B"] := by
  intro s r
  have hearlier : r.earlier ≠ [] := by simp [r]
  have hbefore : s.snapshotBehind (r.beforeElse r.last.inner) = ["`ifndef X", "`elsif B"] := by
    decide
  exact ⟨rfl, hearlier, hbefore, ((snapshot_alternative_ne_iff rfl r).2 hearlier).trans hbefore⟩

end ConditionStack

end DesignAtlas
