import DesignAtlas.Proofs.Hierarchy.Cycles

/-! # The hierarchy of a design without cycles

Expansion asks at every instance whether its module stands on the path from the root. When no cycle
of calls can be reached, the answer is always no: whatever is reached from an instance has not been
met on the way to it (`Apart`), so the trees of some instances do not depend on the path
(`expandAll_eq_of_apart`). Every subtree is then the hierarchy of the module at its root
(`subtrees_of_acyclic`). -/

namespace DesignAtlas

open Relation

/-- No cycle of calls can be reached from the module. -/
def Design.AcyclicFrom (d : Design) (n : String) : Prop :=
  ∀ x, ReflTransGen d.Calls n x → ¬ TransGen d.Calls x x

/-- The known modules that a module has instances of, in the order of the instances and with
repetitions. -/
def Design.knownCallees (d : Design) (n : String) : List String :=
  match d.find? n with
  | some m => (m.instances.map Instance.callee).filter d.contains
  | none => []

theorem Design.AcyclicFrom.of_calls {d : Design} {a b : String} (h : d.AcyclicFrom a)
    (hab : d.Calls a b) : d.AcyclicFrom b :=
  fun x hx => h x (.head hab hx)

namespace Hierarchy

variable {d : Design} {path : List String} {owner n : String} {is : List Instance}
  {i j : Instance} {m : ModuleInfo}

/-- From no known module among the callees can a cycle or a name of the path be reached. -/
structure Apart (d : Design) (path : List String) (is : List Instance) : Prop where
  acyclic : ∀ i ∈ is, i.callee ∈ d.names → d.AcyclicFrom i.callee
  free : ∀ i ∈ is, i.callee ∈ d.names → ∀ x, ReflTransGen d.Calls i.callee x → x ∉ path

theorem Apart.tail (h : Apart d path (i :: is)) : Apart d path is :=
  ⟨fun j hj => h.acyclic j (List.mem_cons_of_mem i hj),
    fun j hj => h.free j (List.mem_cons_of_mem i hj)⟩

theorem Apart.notMem_path (h : Apart d path (i :: is)) (hi : d.find? i.callee = some m) :
    i.callee ∉ path :=
  h.free i List.mem_cons_self (mem_names_of_find? hi) i.callee .refl

theorem calls_of_mem (hn : d.find? n = some m) (hj : j ∈ m.instances) (hc : j.callee ∈ d.names) :
    d.Calls n j.callee := ⟨m, hn, ⟨j, hj, rfl⟩, hc⟩

/-- The instances of a module stand apart from a path through the module. -/
theorem apart_instances (hn : d.find? n = some m) (h : d.AcyclicFrom n)
    (hfree : ∀ x, ReflTransGen d.Calls n x → x ∉ path) : Apart d (path ++ [n]) m.instances := by
  refine ⟨fun j hj hc => h.of_calls (calls_of_mem hn hj hc), fun j hj hc x hx hmem => ?_⟩
  have hcall := calls_of_mem hn hj hc
  rcases List.mem_append.mp hmem with hp | hself
  · exact hfree x (.head hcall hx) hp
  · -- the module itself would be reached again
    rw [List.mem_singleton.mp hself] at hx
    exact h n .refl (.head' hcall hx)

theorem Apart.below (h : Apart d path (i :: is)) (hi : d.find? i.callee = some m) :
    Apart d (path ++ [i.callee]) m.instances := by
  have hc := mem_names_of_find? hi
  exact apart_instances hi (h.acyclic i List.mem_cons_self hc) (h.free i List.mem_cons_self hc)

/-! ### Independence of the path -/

/-- **The trees of instances do not depend on the path** when they stand apart from it. -/
theorem expandAll_eq_of_apart {path' : List String} (owner' : String) (h : Apart d path is)
    (h' : Apart d path' is) : expandAll d path owner is = expandAll d path' owner' is := by
  -- the recursion of `expandAll`; the other path is any that the instances stand apart from
  induction path, owner, is using expandAll_induct d generalizing path' owner' with
  | nil path owner => rw [expandAll_nil, expandAll_nil]
  | unknown path owner i is hnone ih =>
    rw [expandAll_unknown hnone, expandAll_unknown hnone, ih owner' h.tail h'.tail]
  | cycle path owner i is m hsome hp ih => exact absurd hp (h.notMem_path hsome)
  | opened path owner i is m hsome hp ihLater ihBelow =>
    rw [expandAll_open hsome hp, expandAll_open hsome (h'.notMem_path hsome),
      ihBelow i.callee (h.below hsome) (h'.below hsome), ihLater owner' h.tail h'.tail]

theorem expand_eq_of_apart (h : Apart d path (i :: is)) (hi : d.find? i.callee = some m) :
    (expand d i.callee).1 =
      node i.callee false (expandAll d (path ++ [i.callee]) i.callee m.instances).1 := by
  have halone : Apart d [i.callee] m.instances :=
    apart_instances hi (h.acyclic i List.mem_cons_self (mem_names_of_find? hi))
      (fun _ _ => List.not_mem_nil)
  rw [expand_of_find? hi, expandAll_eq_of_apart i.callee halone (h.below hi)]

/-- The trees of instances that stand apart are the hierarchies of known modules without cycles. -/
theorem exists_of_mem_expandAll {t : Hierarchy} (h : Apart d path is)
    (ht : t ∈ (expandAll d path owner is).1) :
    ∃ n, d.AcyclicFrom n ∧ t = (expand d n).1 := by
  induction path, owner, is using expandAll_induct d with
  | nil path owner =>
    rw [expandAll_nil] at ht
    cases ht
  | unknown path owner i is hnone ih =>
    rw [expandAll_unknown hnone] at ht
    exact ih h.tail ht
  | cycle path owner i is m hsome hp ih => exact absurd hp (h.notMem_path hsome)
  | opened path owner i is m hsome hp ihLater ihBelow =>
    rw [expandAll_open hsome hp] at ht
    rcases List.mem_cons.mp ht with rfl | ht
    · exact ⟨i.callee, h.acyclic i List.mem_cons_self (mem_names_of_find? hsome),
        (expand_eq_of_apart h hsome).symm⟩
    · exact ihLater h.tail ht

/-! ### Subtrees -/

theorem cycle_expand (d : Design) (n : String) : (expand d n).1.cycle = false := by
  rw [expand_eq]
  split <;> rfl

theorem names_expandAll (d : Design) (path : List String) (owner : String) (is : List Instance) :
    (expandAll d path owner is).1.map name = (is.map Instance.callee).filter d.contains := by
  induction path, owner, is using expandAll_induct d with
  | nil path owner => rw [expandAll_nil]; rfl
  | unknown path owner i is hnone ih =>
    have hc : d.contains i.callee = false := by rw [Roster.contains_eq_isSome, hnone]; rfl
    rw [expandAll_unknown hnone, ih, List.map_cons, List.filter_cons_of_neg (by simp [hc])]
  | cycle path owner i is m hsome hp ih =>
    have hc : d.contains i.callee = true := by rw [Roster.contains_eq_isSome, hsome]; rfl
    rw [expandAll_cycle hsome hp, List.map_cons, ih, List.map_cons, List.filter_cons_of_pos hc]
    rfl
  | opened path owner i is m hsome hp ihLater ihBelow =>
    have hc : d.contains i.callee = true := by rw [Roster.contains_eq_isSome, hsome]; rfl
    rw [expandAll_open hsome hp, List.map_cons, ihLater, List.map_cons, List.filter_cons_of_pos hc]
    rfl

/-- A module has one node below it for each instance of a known module. -/
theorem names_children_expand (d : Design) (n : String) :
    (expand d n).1.children.map name = d.knownCallees n := by
  rw [Design.knownCallees]
  rcases hm : d.find? n with _ | m
  · rw [expand_eq, hm]
    rfl
  · rw [expand_of_find? hm]
    exact names_expandAll d [n] n m.instances

theorem exists_of_mem_children {t : Hierarchy} (hn : d.AcyclicFrom n)
    (ht : t ∈ (expand d n).1.children) : ∃ x, d.AcyclicFrom x ∧ t = (expand d x).1 := by
  rcases hm : d.find? n with _ | m
  · rw [expand_eq, hm] at ht
    cases ht
  · rw [expand_of_find? hm] at ht
    have happart : Apart d [n] m.instances :=
      apart_instances hm hn fun _ _ => List.not_mem_nil
    exact exists_of_mem_expandAll happart ht

/-- Below a module without cycles every subtree is the hierarchy of a module. -/
theorem exists_of_mem_located : ∀ {t : Hierarchy} {n : String} {e : List String × Hierarchy},
    d.AcyclicFrom n → t = (expand d n).1 → e ∈ t.located → ∃ x, e.2 = (expand d x).1
  | node r c ts, n, e, hn, ht, he => by
    rw [located, List.mem_cons, List.mem_map] at he
    rcases he with rfl | ⟨e', he', rfl⟩
    · exact ⟨n, ht⟩
    · obtain ⟨u, hu, heu⟩ := exists_mem_of_mem_locatedAll he'
      have hchildren : ts = (expand d n).1.children := congrArg children ht
      obtain ⟨x, hx, hux⟩ := exists_of_mem_children hn (hchildren ▸ hu)
      exact exists_of_mem_located (e := e') hx hux heu

/-- **Without cycles every subtree is free of its context.** When no cycle of calls can be reached
from the root, nothing is reported; no node closes a cycle, every node has one node below it for each
instance of a known module, in the order of the instances, and the subtree at every node is the
hierarchy of its module. -/
theorem subtrees_of_acyclic (d : Design) {root : String}
    (h : ¬ ∃ n, ReflTransGen d.Calls root n ∧ TransGen d.Calls n n) :
    (expand d root).2 = [] ∧
    ∀ e ∈ (expand d root).1.walk, e.2.cycle = false ∧
      e.2.children.map name = d.knownCallees e.2.name ∧ e.2 = (expand d e.2.name).1 := by
  have hacyclic : d.AcyclicFrom root := fun x hx hc => h ⟨x, hx, hc⟩
  refine ⟨not_not.mp fun hne => h ((reports_ne_nil_iff d root).mp hne), fun e he => ?_⟩
  rw [walk_eq_located, List.mem_map] at he
  obtain ⟨e, he, rfl⟩ := he
  obtain ⟨x, hx⟩ := exists_of_mem_located hacyclic rfl he
  simp only [hx, name_expand]
  exact ⟨cycle_expand d x, names_children_expand d x, trivial⟩

/-- Two modules share a third one, which is used twice by one of them and stands next to an unknown
module. -/
theorem subtrees_of_acyclic_shared :
    let use (n : String) : Instance := ⟨n, none, "", []⟩
    let d : Design := ⟨[⟨"a", "s.v", .empty, .empty, "", [use "b", use "c"]⟩,
      ⟨"b", "s.v", .empty, .empty, "", [use "c", use "ram", use "c"]⟩,
      ⟨"c", "s.v", .empty, .empty, "", []⟩]⟩
    (¬ ∃ n, ReflTransGen d.Calls "a" n ∧ TransGen d.Calls n n) ∧ (expand d "a").2 = [] ∧
    ∀ e ∈ (expand d "a").1.walk, e.2.cycle = false ∧
      e.2.children.map name = d.knownCallees e.2.name ∧ e.2 = (expand d e.2.name).1 := by
  intro use d
  have ha : d.find? "a" = some ⟨"a", "s.v", .empty, .empty, "", [use "b", use "c"]⟩ := rfl
  have hb : d.find? "b" =
      some ⟨"b", "s.v", .empty, .empty, "", [use "c", use "ram", use "c"]⟩ := rfl
  have hc : d.find? "c" = some ⟨"c", "s.v", .empty, .empty, "", []⟩ := rfl
  have hram : d.find? "ram" = none := rfl
  have h : ¬ ∃ n, ReflTransGen d.Calls "a" n ∧ TransGen d.Calls n n := by
    rw [← reports_ne_nil_iff, not_not, expand_of_find? ha,
      expandAll_open (i := use "b") hb (by simp [use]),
      expandAll_open (i := use "c") hc (by simp [use]), expandAll_unknown (i := use "ram") hram,
      expandAll_open (i := use "c") hc (by simp [use]), expandAll_nil, expandAll_nil,
      expandAll_open (i := use "c") hc (by simp [use]), expandAll_nil, expandAll_nil]
    rfl
  exact ⟨h, subtrees_of_acyclic d h⟩

end Hierarchy

end DesignAtlas
