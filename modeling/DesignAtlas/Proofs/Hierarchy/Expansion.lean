import DesignAtlas.Hierarchy
import Mathlib.Tactic.Common

/-! # Expanding instances, case by case

Expansion hands the diagnostics on from one instance to the next and only ever puts reports behind
them (`expandOnto_eq`), so it can be read as the trees of the instances with the reports of their
cycles. The instance at the front of a list is unknown, or it closes a cycle, or it is expanded;
there is one equation for each (`expandAll_unknown`, `expandAll_cycle`, `expandAll_open`), and
`expandAll_induct` is the induction along them. No equation reads more of a design than the module
of a name, so expansion is the same in designs with the same look-up (`expand_congr`). -/

namespace DesignAtlas.Hierarchy

variable {d d' : Design} {path : List String} {owner : String} {i : Instance} {is : List Instance}
  {m : ModuleInfo}

/-! ### Diagnostics from before -/

section Onto

variable {ds : List Diagnostic} {below later : List Hierarchy × List Diagnostic}

theorem expandAllOnto_unknown (h : d.find? i.callee = none) :
    expandAllOnto d path owner (i :: is) ds = expandAllOnto d path owner is ds := by
  rw [expandAllOnto]
  split
  · rfl
  · simp_all

theorem expandAllOnto_cycle (h : d.find? i.callee = some m) (hp : i.callee ∈ path)
    (hlater : expandAllOnto d path owner is (ds ++ [cycleReport path owner i.callee]) = later) :
    expandAllOnto d path owner (i :: is) ds = (node i.callee true [] :: later.1, later.2) := by
  rw [expandAllOnto]
  split
  · simp_all
  · rw [dif_pos hp, hlater]

theorem expandAllOnto_open (h : d.find? i.callee = some m) (hp : i.callee ∉ path)
    (hbelow : expandAllOnto d (path ++ [i.callee]) i.callee m.instances ds = below)
    (hlater : expandAllOnto d path owner is below.2 = later) :
    expandAllOnto d path owner (i :: is) ds =
      (node i.callee false below.1 :: later.1, later.2) := by
  rw [expandAllOnto]
  split
  · simp_all
  · rename_i m' hm'
    obtain rfl : m = m' := by rw [h] at hm'; exact Option.some.inj hm'
    subst hbelow hlater
    rw [dif_neg hp]

/-- Diagnostics from before stay in front and change nothing else. -/
theorem expandAllOnto_append (before : List Diagnostic) (path : List String) (owner : String)
    (is : List Instance) (ds : List Diagnostic) :
    expandAllOnto d path owner is (before ++ ds) =
      ((expandAllOnto d path owner is ds).1, before ++ (expandAllOnto d path owner is ds).2) := by
  -- along the run with `ds` alone, which hands on what it has reported so far
  induction path, owner, is, ds using expandAllOnto.induct d with
  | case1 path owner ds => rw [expandAllOnto, expandAllOnto]
  | case2 path owner i is ds hnone ih =>
    rw [expandAllOnto_unknown hnone, expandAllOnto_unknown hnone, ih]
  | case3 path owner i is ds m hsome hp ih =>
    rw [← List.append_assoc] at ih
    rw [expandAllOnto_cycle hsome hp ih, expandAllOnto_cycle hsome hp rfl]
  | case4 path owner i is ds m hsome hp below ihBelow ihLater =>
    rw [expandAllOnto_open hsome hp ihBelow ihLater, expandAllOnto_open hsome hp rfl rfl]

theorem expandAllOnto_eq (d : Design) (path : List String) (owner : String) (is : List Instance)
    (ds : List Diagnostic) : expandAllOnto d path owner is ds =
      ((expandAll d path owner is).1, ds ++ (expandAll d path owner is).2) := by
  have happend := expandAllOnto_append (d := d) ds path owner is []
  rwa [List.append_nil] at happend

/-- **The reports of cycles are put behind the diagnostics from before,** which change neither the
tree nor the reports. -/
theorem expandOnto_eq (d : Design) (root : String) (ds : List Diagnostic) :
    expandOnto d root ds = ((expand d root).1, ds ++ (expand d root).2) := by
  unfold expand expandOnto
  rcases d.find? root with _ | m
  · exact congrArg _ (List.append_nil ds).symm
  · exact congrArg (fun x => (node root false x.1, x.2)) (expandAllOnto_eq d [root] root _ ds)

end Onto

/-! ### One instance after the other -/

@[simp] theorem expandAll_nil : expandAll d path owner [] = ([], []) := by
  rw [expandAll, expandAllOnto]

theorem expandAll_unknown (h : d.find? i.callee = none) :
    expandAll d path owner (i :: is) = expandAll d path owner is :=
  expandAllOnto_unknown h

theorem expandAll_cycle (h : d.find? i.callee = some m) (hp : i.callee ∈ path) :
    expandAll d path owner (i :: is) =
      (node i.callee true [] :: (expandAll d path owner is).1,
        cycleReport path owner i.callee :: (expandAll d path owner is).2) :=
  expandAllOnto_cycle h hp (expandAllOnto_eq d path owner is _)

theorem expandAll_open (h : d.find? i.callee = some m) (hp : i.callee ∉ path) :
    expandAll d path owner (i :: is) =
      (node i.callee false (expandAll d (path ++ [i.callee]) i.callee m.instances).1 ::
          (expandAll d path owner is).1,
        (expandAll d (path ++ [i.callee]) i.callee m.instances).2 ++
          (expandAll d path owner is).2) :=
  expandAllOnto_open h hp rfl (expandAllOnto_eq d path owner is _)

/-- The induction along the equations: over the instances, and below an instance over the names that
are not on the path. -/
theorem expandAll_induct (d : Design) {motive : List String → String → List Instance → Prop}
    (nil : ∀ path owner, motive path owner [])
    (unknown : ∀ path owner i is, d.find? i.callee = none → motive path owner is →
      motive path owner (i :: is))
    (cycle : ∀ path owner i is m, d.find? i.callee = some m → i.callee ∈ path →
      motive path owner is → motive path owner (i :: is))
    (opened : ∀ path owner i is m, d.find? i.callee = some m → i.callee ∉ path →
      motive path owner is → motive (path ++ [i.callee]) i.callee m.instances →
        motive path owner (i :: is))
    (path : List String) (owner : String) (is : List Instance) : motive path owner is :=
  expandAllOnto.induct d (fun path owner is _ => motive path owner is)
    (fun path owner _ => nil path owner)
    (fun path owner i is _ => unknown path owner i is)
    (fun path owner i is _ m => cycle path owner i is m)
    (fun path owner i is _ m hsome hp ihBelow ihLater =>
      opened path owner i is m hsome hp ihLater ihBelow)
    path owner is []

theorem expand_eq (d : Design) (root : String) : expand d root =
    match d.find? root with
    | none => (node root false [], [])
    | some m => (node root false (expandAll d [root] root m.instances).1,
        (expandAll d [root] root m.instances).2) := rfl

theorem expand_of_find? {root : String} (h : d.find? root = some m) :
    expand d root = (node root false (expandAll d [root] root m.instances).1,
      (expandAll d [root] root m.instances).2) := by
  rw [expand_eq, h]

theorem name_expand (d : Design) (n : String) : (expand d n).1.name = n := by
  rw [expand_eq]
  split <;> rfl

theorem expandAll_congr (h : ∀ n, d.find? n = d'.find? n) (path : List String) (owner : String)
    (is : List Instance) : expandAll d path owner is = expandAll d' path owner is := by
  -- the recursion of `expandAll d`: over the instances, and below an instance over the free names
  induction path, owner, is using expandAll_induct d with
  | nil path owner => rw [expandAll_nil, expandAll_nil]
  | unknown path owner i is hnone ih =>
    rw [expandAll_unknown hnone, expandAll_unknown (h _ ▸ hnone), ih]
  | cycle path owner i is m hsome hp ih =>
    rw [expandAll_cycle hsome hp, expandAll_cycle (h _ ▸ hsome) hp, ih]
  | opened path owner i is m hsome hp ih ih' =>
    rw [expandAll_open hsome hp, expandAll_open (h _ ▸ hsome) hp, ih, ih']

/-- **Expansion asks a design for nothing but the modules of names.** -/
theorem expand_congr (h : ∀ n, d.find? n = d'.find? n) (root : String) :
    expand d root = expand d' root := by
  rw [expand_eq, expand_eq, h root]
  simp only [expandAll_congr h]

end DesignAtlas.Hierarchy
