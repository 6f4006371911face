import DesignAtlas.Hierarchy
import Mathlib.Tactic.Common

/-! # The nodes of a hierarchy and their paths

Each node of a tree stands at the end of a path of names from the root. `located` lists the nodes in
pre-order with these paths, by recursion on the tree; the traversal by a worklist gives the same
nodes in the same order, each at the depth of its path (`walk_eq_located`). -/

namespace DesignAtlas.Hierarchy

mutual

/-- The nodes in pre-order, each with the names from the root down to it. -/
def located : Hierarchy → List (List String × Hierarchy)
  | node n c ts => ([n], node n c ts) :: (locatedAll ts).map fun e => (n :: e.1, e.2)

/-- The nodes of some trees in pre-order, each with the names from its own root down to it. -/
def locatedAll : List Hierarchy → List (List String × Hierarchy)
  | [] => []
  | t :: ts => located t ++ locatedAll ts

end

/-- The paths of names to the nodes, in pre-order. -/
def paths (t : Hierarchy) : List (List String) := t.located.map Prod.fst

/-! ### The traversal -/

/-- A located node at its depth below a root that has depth `depth`. -/
def atDepth (depth : Nat) (e : List String × Hierarchy) : Nat × Hierarchy :=
  (depth + (e.1.length - 1), e.2)

theorem walkAll_cons (depth : Nat) (t : Hierarchy) (rest : List (Nat × Hierarchy)) :
    walkAll ((depth, t) :: rest) =
      (depth, t) :: walkAll (t.children.map (fun c => (depth + 1, c)) ++ rest) := by
  rw [walkAll]

theorem length_pos_of_mem_located : ∀ {t : Hierarchy} {e : List String × Hierarchy},
    e ∈ t.located → 0 < e.1.length
  | node n c ts, e, h => by
    rw [located, List.mem_cons, List.mem_map] at h
    rcases h with rfl | ⟨e', -, rfl⟩
    · exact Nat.one_pos
    · exact Nat.succ_pos _

theorem exists_mem_of_mem_locatedAll : ∀ {ts : List Hierarchy} {e : List String × Hierarchy},
    e ∈ locatedAll ts → ∃ t ∈ ts, e ∈ t.located
  | [], e, h => by simp [locatedAll] at h
  | t :: ts, e, h => by
    rw [locatedAll, List.mem_append] at h
    rcases h with h | h
    · exact ⟨t, by simp, h⟩
    · obtain ⟨u, hu, he⟩ := exists_mem_of_mem_locatedAll h
      exact ⟨u, by simp [hu], he⟩

theorem mem_locatedAll : ∀ {ts : List Hierarchy} {t : Hierarchy} {e : List String × Hierarchy},
    t ∈ ts → e ∈ t.located → e ∈ locatedAll ts
  | u :: ts, t, e, ht, he => by
    rw [locatedAll, List.mem_append]
    rcases List.mem_cons.mp ht with rfl | ht
    · exact .inl he
    · exact .inr (mem_locatedAll ht he)

theorem ne_nil_of_mem_locatedAll {ts : List Hierarchy} {e : List String × Hierarchy}
    (h : e ∈ locatedAll ts) : e.1 ≠ [] := by
  obtain ⟨t, -, ht⟩ := exists_mem_of_mem_locatedAll h
  exact List.ne_nil_of_length_pos (length_pos_of_mem_located ht)

mutual

/-- The worklist is done with a tree before it comes to the trees behind it. -/
theorem walkAll_tree : ∀ (t : Hierarchy) (depth : Nat) (rest : List (Nat × Hierarchy)),
    walkAll ((depth, t) :: rest) = t.located.map (atDepth depth) ++ walkAll rest
  | node n c ts, depth, rest => by
    rw [walkAll_cons, children, walkAll_trees ts (depth + 1) rest, located, List.map_cons,
      List.map_map, List.cons_append]
    congr 2
    refine List.map_congr_left fun e he => ?_
    have hpos := List.length_pos_iff.mpr (ne_nil_of_mem_locatedAll he)
    simp only [atDepth, Function.comp, List.length_cons]
    congr 1
    omega

theorem walkAll_trees : ∀ (ts : List Hierarchy) (depth : Nat) (rest : List (Nat × Hierarchy)),
    walkAll (ts.map (fun c => (depth, c)) ++ rest) =
      (locatedAll ts).map (atDepth depth) ++ walkAll rest
  | [], depth, rest => by simp [locatedAll]
  | t :: ts, depth, rest => by
    rw [List.map_cons, List.cons_append, walkAll_tree t depth, walkAll_trees ts depth rest,
      locatedAll, List.map_append, List.append_assoc]

end

/-- **The traversal meets the nodes in pre-order,** each at the depth of its path. -/
theorem walk_eq_located (t : Hierarchy) :
    t.walk = t.located.map fun e => (e.1.length - 1, e.2) := by
  have hnil : walkAll [] = [] := by rw [walkAll]
  rw [walk, walkAll_tree, hnil, List.append_nil]
  refine List.map_congr_left fun e _ => ?_
  rw [atDepth, Nat.zero_add]

/-! ### The end of a path and the node above -/

theorem getLast?_of_mem_located : ∀ {t : Hierarchy} {e : List String × Hierarchy},
    e ∈ t.located → e.1.getLast? = some e.2.name
  | node n c ts, e, h => by
    rw [located, List.mem_cons, List.mem_map] at h
    rcases h with rfl | ⟨e', he', rfl⟩
    · rfl
    · obtain ⟨t, ht, het⟩ := exists_mem_of_mem_locatedAll he'
      have ih := getLast?_of_mem_located het
      rw [List.getLast?_cons, ih]
      rfl

theorem eq_of_dropLast_eq_nil {t : Hierarchy} {e : List String × Hierarchy} (h : e ∈ t.located)
    (hd : e.1.dropLast = []) : e.2 = t := by
  obtain ⟨n, c, ts⟩ := t
  rw [located, List.mem_cons, List.mem_map] at h
  rcases h with rfl | ⟨e', he', rfl⟩
  · rfl
  · rw [List.dropLast_cons_of_ne_nil (ne_nil_of_mem_locatedAll he')] at hd
    exact absurd hd (by simp)

/-- The node above a node that is not the root. -/
theorem exists_parent : ∀ {t : Hierarchy} {e : List String × Hierarchy}, e ∈ t.located →
    e.1.dropLast ≠ [] → ∃ p ∈ t.located, p.1 = e.1.dropLast ∧ e.2 ∈ p.2.children
  | node n c ts, e, h, hne => by
    rw [located, List.mem_cons, List.mem_map] at h
    rcases h with rfl | ⟨e', he', rfl⟩
    · exact absurd rfl hne
    · obtain ⟨t, ht, het⟩ := exists_mem_of_mem_locatedAll he'
      rw [List.dropLast_cons_of_ne_nil (ne_nil_of_mem_locatedAll he')]
      by_cases hd : e'.1.dropLast = []
      · -- the path of `e'` in its own tree is one name: it is a child of the root
        refine ⟨([n], node n c ts), by simp [located], by rw [hd], ?_⟩
        obtain rfl : e'.2 = t := eq_of_dropLast_eq_nil het hd
        exact ht
      · obtain ⟨p, hp, hpath, hchild⟩ := exists_parent het hd
        refine ⟨(n :: p.1, p.2), ?_, by rw [hpath], hchild⟩
        rw [located, List.mem_cons, List.mem_map]
        exact .inr ⟨p, mem_locatedAll ht hp, rfl⟩

theorem mem_walk_names {t : Hierarchy} {n : String} :
    n ∈ t.walk.map (fun e => e.2.name) ↔ ∃ p ∈ t.paths, p.getLast? = some n := by
  rw [walk_eq_located, List.map_map, List.mem_map, paths]
  constructor
  · rintro ⟨e, he, rfl⟩
    exact ⟨e.1, List.mem_map_of_mem he, getLast?_of_mem_located he⟩
  · rintro ⟨p, hp, hl⟩
    obtain ⟨e, he, rfl⟩ := List.mem_map.mp hp
    exact ⟨e, he, Option.some.inj ((getLast?_of_mem_located he).symm.trans hl)⟩

end DesignAtlas.Hierarchy
