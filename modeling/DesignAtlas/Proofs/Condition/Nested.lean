import DesignAtlas.Proofs.Condition.Depth
import DesignAtlas.Proofs.Statement.Directives
import Mathlib.Order.Bounds.Defs

/-! # Directives that are well nested

Regions nest like brackets: an `ifdef` or `ifndef` begins one and an `endif` ends it, and only inside
do `else` and `elsif` divide it (`Directive.Nested`). Well nested directives are all applied and
leave the stack as it was, because a region changes nothing but its own condition, which its `endif`
takes away (`applyAll_of_nested`).

Of other directives, an `endif` is rejected whenever more have been met than regions were begun. So
the number of rejected ones is how far the endings outnumber the beginnings in some prefix, at most
(`isGreatest_length_rejected`), and the depth is what the counts and the rejected ones leave
(`depth_foldl_advance`). -/

namespace DesignAtlas

namespace Directive

/-- Whether the directive begins a region. -/
def begins (d : Directive) : Bool := d.name == "ifdef" || d.name == "ifndef"

/-- Whether the directive divides the region in which it stands. -/
def divides (d : Directive) : Bool := d.name == "else" || d.name == "elsif"

/-- Whether the directive ends a region. -/
def ends (d : Directive) : Bool := d.name == "endif"

/-- Well nested directives: unrelated ones, and regions from their beginning to their end. `inside`
tells whether all of this stands in a region, which `else` and `elsif` may then divide. -/
inductive Nested : Bool → List Directive → Prop where
  | nil {inside : Bool} : Nested inside []
  | unrelated {inside : Bool} {d : Directive} {ds : List Directive}
    (plain : d.isConditional = false) (rest : Nested inside ds) : Nested inside (d :: ds)
  | divider {d : Directive} {ds : List Directive} (divides : d.divides = true)
    (rest : Nested true ds) : Nested true (d :: ds)
  | region {inside : Bool} {b e : Directive} {ds es : List Directive} (begins : b.begins = true)
    (inner : Nested true ds) (ends : e.ends = true) (rest : Nested inside es) :
    Nested inside (b :: (ds ++ e :: es))

/-- How many of the directives begin a region. -/
def beginnings (ds : List Directive) : Nat := ds.countP begins

/-- How many of the directives end a region. -/
def endings (ds : List Directive) : Nat := ds.countP ends

theorem beginnings_cons (d : Directive) (ds : List Directive) :
    beginnings (d :: ds) = beginnings [d] + beginnings ds := by
  rw [beginnings, ← List.singleton_append, List.countP_append]
  rfl

theorem endings_cons (d : Directive) (ds : List Directive) :
    endings (d :: ds) = endings [d] + endings ds := by
  rw [endings, ← List.singleton_append, List.countP_append]
  rfl

end Directive

namespace ConditionStack

open Directive (Nested beginnings endings)

variable {s s' : ConditionStack} {d : Directive} {ds es : List Directive}

/-! ### One directive -/

/-- A directive that begins a region states its condition. -/
theorem apply_of_begins (h : d.begins = true) (s : ConditionStack) :
    ∃ k : ConditionKind, k ≠ .elsif ∧ s.apply d = (.ok (), s.push ⟨k, d.argument⟩) := by
  obtain h | h : d.name = "ifdef" ∨ d.name = "ifndef" := by simpa [Directive.begins] using h
  · exact ⟨.ifdef, by decide, by simp [apply, h]⟩
  · exact ⟨.ifndef, by decide, by simp [apply, h]⟩

/-- A directive that divides a region changes at most its condition. -/
theorem apply_of_divides (h : d.divides = true) (s : ConditionStack) :
    ∃ f, s.apply d = (.ok (), s.amend f) := by
  obtain h | h : d.name = "else" ∨ d.name = "elsif" := by simpa [Directive.divides] using h
  · exact ⟨Condition.negate, by simp [apply, h]⟩
  · exact ⟨fun _ => ⟨.elsif, d.argument⟩, by simp [apply, h]⟩

theorem amend_push (s : ConditionStack) (c : Condition) (f : Condition → Condition) :
    (s.push c).amend f = s.push (if s.policy = .negate then f c else c) := by
  obtain ⟨policy, regions⟩ := s
  cases policy <;> rfl

theorem apply_push_of_divides (h : d.divides = true) (s : ConditionStack) (c : Condition) :
    ∃ c', (s.push c).apply d = (.ok (), s.push c') := by
  obtain ⟨f, hf⟩ := apply_of_divides h (s.push c)
  exact ⟨_, hf.trans (congrArg (Prod.mk _) (amend_push s c f))⟩

theorem apply_push_of_ends (h : d.ends = true) (s : ConditionStack) (c : Condition) :
    (s.push c).apply d = (.ok (), s) := by
  have h : d.name = "endif" := by simpa [Directive.ends] using h
  simp [apply, h, push, pop]

theorem advance_of_apply (h : s.apply d = (.ok (), s')) : s.advance d = s' := by
  rw [advance, h]

/-- **A directive that cannot be applied** leaves the stack as it was: nothing is there to be taken
away. -/
theorem apply_of_error {e : ConditionError} (h : (s.apply d).1 = .error e) : (s.apply d).2 = s := by
  obtain ⟨policy, regions⟩ := s
  unfold apply at h ⊢
  split_ifs at h ⊢
  -- only an `endif` gives an error
  cases regions with
  | nil => rfl
  | cons c cs => cases h

/-! ### Directives in order -/

/-- Applies directives in order, up to the first that cannot be applied. -/
def applyAll (s : ConditionStack) : List Directive → Except ConditionError Unit × ConditionStack
  | [] => (.ok (), s)
  | d :: ds =>
    match s.apply d with
    | (.ok _, s') => s'.applyAll ds
    | (.error e, s') => (.error e, s')

theorem applyAll_cons (h : s.apply d = (.ok (), s')) (ds : List Directive) :
    s.applyAll (d :: ds) = s'.applyAll ds := by
  rw [applyAll, h]

/-- Directives that can all be applied lead where they lead one by one. -/
theorem foldl_advance_of_applyAll : ∀ {ds : List Directive} {s : ConditionStack},
    s.applyAll ds = (.ok (), s') → ds.foldl advance s = s'
  | [], _, h => congrArg Prod.snd h
  | d :: ds, s, h => by
    rcases hd : s.apply d with ⟨_ | ⟨⟩, t⟩
    · rw [applyAll, hd] at h
      cases h
    · rw [applyAll_cons hd] at h
      rw [List.foldl_cons, advance_of_apply hd]
      exact foldl_advance_of_applyAll h

theorem applyAll_append (es : List Directive) : ∀ {ds : List Directive} {s : ConditionStack},
    s.applyAll ds = (.ok (), s') → s.applyAll (ds ++ es) = s'.applyAll es
  | [], _, h => congrArg (fun x => applyAll x.2 es) h
  | d :: ds, s, h => by
    rcases hd : s.apply d with ⟨_ | ⟨⟩, t⟩
    · rw [applyAll, hd] at h
      cases h
    · rw [applyAll_cons hd] at h
      rw [List.cons_append, applyAll_cons hd]
      exact applyAll_append es h

/-! ### Well nested directives -/

/-- Well nested directives in a region change at most its condition. -/
theorem applyAll_push_of_nested {inside : Bool} (h : Nested inside ds) :
    ∀ (s : ConditionStack) (c : Condition),
      ∃ c', (s.push c).applyAll ds = (.ok (), s.push c') := by
  induction h with
  | nil => exact fun s c => ⟨c, rfl⟩
  | unrelated plain _ ih =>
    intro s c
    rw [applyAll_cons (apply_of_not_conditional plain _)]
    exact ih s c
  | divider divides _ ih =>
    intro s c
    obtain ⟨c₁, hc₁⟩ := apply_push_of_divides divides s c
    rw [applyAll_cons hc₁]
    exact ih s c₁
  | region begins _ ends _ ihinner ihrest =>
    intro s c
    obtain ⟨k, -, hk⟩ := apply_of_begins begins (s.push c)
    obtain ⟨c₁, hc₁⟩ := ihinner (s.push c) ⟨k, _⟩
    rw [applyAll_cons hk, applyAll_append _ hc₁, applyAll_cons (apply_push_of_ends ends _ _)]
    exact ihrest s c

/-- **Well nested directives are all applied and leave the stack as it was.** -/
theorem applyAll_of_nested (h : Nested false ds) (s : ConditionStack) :
    s.applyAll ds = (.ok (), s) := by
  generalize hinside : false = inside at h
  induction h with
  | nil => rfl
  | unrelated plain _ ih =>
    rw [applyAll_cons (apply_of_not_conditional plain s)]
    exact ih hinside
  | divider => cases hinside
  | region begins inner ends _ _ ihrest =>
    obtain ⟨k, -, hk⟩ := apply_of_begins begins s
    obtain ⟨c, hc⟩ := applyAll_push_of_nested inner s ⟨k, _⟩
    rw [applyAll_cons hk, applyAll_append _ hc, applyAll_cons (apply_push_of_ends ends s c)]
    exact ihrest hinside

theorem foldl_advance_of_nested (h : Nested false ds) (s : ConditionStack) :
    ds.foldl advance s = s :=
  foldl_advance_of_applyAll (applyAll_of_nested h s)

/-! ### Any directives -/

theorem rejected_append : ∀ (ds es : List Directive) (s : ConditionStack),
    s.rejected (ds ++ es) = s.rejected ds ++ (ds.foldl advance s).rejected es
  | [], _, _ => rfl
  | d :: ds, es, s => by
    rw [List.cons_append, rejected, rejected, rejected_append ds es, List.foldl_cons]
    split <;> rfl

/-- One directive changes the depth by the region that it begins or ends; a rejected ending does
not. -/
theorem depth_advance_add (s : ConditionStack) (d : Directive) :
    (s.advance d).depth + endings [d] = s.depth + beginnings [d] + (s.rejected [d]).length := by
  have hrejected : (s.rejected [d]).length = if d.ends = true ∧ s.depth = 0 then 1 else 0 := by
    rw [rejected, rejects_eq]
    split <;> simp_all [rejected, Directive.ends]
  rw [hrejected, depth_advance, endings, beginnings, List.countP_singleton, List.countP_singleton]
  by_cases hends : d.name = "endif"
  · by_cases hzero : s.depth = 0
    · simp [Directive.ends, Directive.begins, hends, hzero]
    · simp [Directive.ends, Directive.begins, hends, hzero]
      omega
  · simp only [Directive.ends, Directive.begins]
    split <;> simp_all

/-- **The depth behind some directives** is what the regions begun and ended leave, where each
rejected ending counts for nothing. -/
theorem depth_foldl_advance : ∀ (ds : List Directive) (s : ConditionStack),
    (ds.foldl advance s).depth + endings ds =
      s.depth + beginnings ds + (s.rejected ds).length
  | [], s => rfl
  | d :: ds, s => by
    have hstep := depth_advance_add s d
    have ih := depth_foldl_advance ds (s.advance d)
    have hrejected := congrArg List.length (rejected_append [d] ds s)
    rw [List.singleton_append, List.length_append, List.foldl_cons, List.foldl_nil] at hrejected
    rw [List.foldl_cons, Directive.endings_cons, Directive.beginnings_cons]
    omega

/-- Behind the last of the directives that are rejected, no region is open. -/
theorem exists_prefix_depth_eq_zero (policy : ElsePolicy) (ds : List Directive) :
    ∃ p, p <+: ds ∧ (p.foldl advance (empty policy)).depth = 0 ∧
      ((empty policy).rejected p).length = ((empty policy).rejected ds).length := by
  induction ds using List.reverseRecOn with
  | nil => exact ⟨[], List.prefix_rfl, rfl, rfl⟩
  | append_singleton ds d ih =>
    obtain ⟨p, hp, hdepth, hlength⟩ := ih
    by_cases hd : (ds.foldl advance (empty policy)).rejects d = true
    · -- the stack is empty where the directive is rejected, and stays empty
      have hzero := hd
      rw [rejects_eq, Bool.and_eq_true, beq_iff_eq, beq_iff_eq] at hzero
      refine ⟨ds ++ [d], List.prefix_rfl, ?_, rfl⟩
      rw [List.foldl_append, List.foldl_cons, List.foldl_nil, depth_advance, hzero.2]
      simp [hzero.1]
    · refine ⟨p, hp.trans (List.prefix_append ds [d]), hdepth, ?_⟩
      rw [hlength, rejected_append, rejected, if_neg hd, rejected, List.append_nil]

/-- **How many directives are rejected** is how far the endings outnumber the beginnings in some
prefix, at most. -/
theorem isGreatest_length_rejected (policy : ElsePolicy) (ds : List Directive) :
    IsGreatest {k : Int | ∃ p, p <+: ds ∧ k = (endings p : Int) - beginnings p}
      ((empty policy).rejected ds).length := by
  have hcount : ∀ p, ((p.foldl advance (empty policy)).depth : Int) + endings p =
      beginnings p + ((empty policy).rejected p).length := by
    intro p
    have hp := depth_foldl_advance p (empty policy)
    have hzero : (empty policy).depth = 0 := rfl
    omega
  constructor
  · obtain ⟨p, hp, hdepth, hlength⟩ := exists_prefix_depth_eq_zero policy ds
    have := hcount p
    exact ⟨p, hp, by omega⟩
  · rintro k ⟨p, ⟨q, rfl⟩, rfl⟩
    have := hcount p
    rw [rejected_append, List.length_append]
    omega

/-! ### The stack and its directives -/

/-- **The stack matches its directives.** Well nested directives are all applied and leave it as it
was, under either policy; a directive that cannot be applied leaves it as it was; and of any
directives whatever, as many are rejected as the endings ever outnumber the beginnings, and the
depth is what the others leave. -/
theorem matches_directives :
    (∀ (s : ConditionStack) (ds : List Directive), Nested false ds →
      s.applyAll ds = (.ok (), s)) ∧
    (∀ (s : ConditionStack) (d : Directive) (e : ConditionError), (s.apply d).1 = .error e →
      (s.apply d).2 = s) ∧
    ∀ (policy : ElsePolicy) (ds : List Directive),
      IsGreatest {k : Int | ∃ p, p <+: ds ∧ k = (endings p : Int) - beginnings p}
          ((empty policy).rejected ds).length ∧
        ((ds.foldl advance (empty policy)).depth : Int) =
          beginnings ds - endings ds + ((empty policy).rejected ds).length := by
  refine ⟨fun s ds h => applyAll_of_nested h s, fun s d e => apply_of_error, ?_⟩
  intro policy ds
  refine ⟨isGreatest_length_rejected policy ds, ?_⟩
  have hcount := depth_foldl_advance ds (empty policy)
  have hzero : (empty policy).depth = 0 := rfl
  omega

/-- A region with three branches, one of which holds a region, inside an open one; an `endif` outside
all regions; and two more of them around a region. -/
theorem matches_directives_divided :
    let stack : ConditionStack := ⟨.negate, [⟨.ifdef, "X"⟩]⟩
    let region : List Directive := [⟨"ifdef", "A"⟩, ⟨"define", "W 8"⟩, ⟨"elsif", "B"⟩,
      ⟨"ifndef", "C"⟩, ⟨"endif", ""⟩, ⟨"else", ""⟩, ⟨"endif", ""⟩]
    let torn : List Directive := [⟨"endif", ""⟩, ⟨"ifdef", "A"⟩, ⟨"endif", ""⟩, ⟨"endif", ""⟩,
      ⟨"ifndef", "B"⟩]
    Nested false region ∧ stack.applyAll region = (.ok (), stack) ∧
    ((empty .keep).apply ⟨"endif", ""⟩).1 = .error .unbalancedEndif ∧
    ((empty .keep).apply ⟨"endif", ""⟩).2 = empty .keep ∧
    IsGreatest {k : Int | ∃ p, p <+: torn ∧ k = (endings p : Int) - beginnings p} 2 ∧
    (torn.foldl advance (empty .negate)).depth = 1 := by
  intro stack region torn
  have hbranch : Nested true [⟨"ifndef", "C"⟩, ⟨"endif", ""⟩, ⟨"else", ""⟩] :=
    @Nested.region true _ _ [] _ (by decide) .nil (by decide) (.divider (by decide) .nil)
  have hinner : Nested true [⟨"define", "W 8"⟩, ⟨"elsif", "B"⟩, ⟨"ifndef", "C"⟩, ⟨"endif", ""⟩,
      ⟨"else", ""⟩] :=
    .unrelated (by decide) (.divider (by decide) hbranch)
  have hregion : Nested false region := .region (by decide) hinner (by decide) .nil
  have herror : ((empty .keep).apply ⟨"endif", ""⟩).1 = .error .unbalancedEndif := rfl
  obtain ⟨hnested, hfailing, hany⟩ := matches_directives
  have hdepth : ((torn.foldl advance (empty .negate)).depth : Int) = 1 := (hany .negate torn).2
  exact ⟨hregion, hnested stack region hregion, herror, hfailing _ _ _ herror, (hany .negate torn).1,
    by omega⟩

end ConditionStack

end DesignAtlas
