import DesignAtlas.Proofs.Design.Descent
import DesignAtlas.Proofs.Hierarchy.Expansion
import DesignAtlas.Proofs.Hierarchy.Located
import Mathlib.Data.List.Lex
import Mathlib.Data.List.Perm.Subperm

/-! # The hierarchy lists the descents of a design

The paths in the hierarchy below a module are the descents from it that stop at the first name met
before. They come in the lexicographic order of the instances taken, a descent before those that go
on from its end, and each as often as there are descents with these names (`paths_expand`).

Expansion carries the path from the root along. Behind a path, a descent is *simple* when it repeats
no name of the path and none of its own before its end (`Simple`); what one call of `expandAll`
gives is the list of the simple descents through its instances (`enumerates_expandAll`). -/

namespace DesignAtlas

/-! ### Enumerations by choices -/

/-- The list holds the names of the descents in `D`, once for each descent, in the lexicographic
order of the choices. -/
def Enumerates (D : List Nat → List String → Prop) (ns : List (List String)) : Prop :=
  ∃ cs : List (List Nat × List String), cs.Pairwise (fun a b => a.1 < b.1) ∧
    (∀ c, c ∈ cs ↔ D c.1 c.2) ∧ ns = cs.map Prod.snd

namespace Enumerates

variable {D D' : List Nat → List String → Prop} {ns ns' : List (List String)}

theorem congr (h : Enumerates D ns) (hD : ∀ ks names, D' ks names ↔ D ks names) :
    Enumerates D' ns := by
  obtain ⟨cs, hs, hm, rfl⟩ := h
  exact ⟨cs, hs, fun c => (hm c).trans (hD _ _).symm, rfl⟩

theorem none (h : ∀ ks names, ¬ D ks names) : Enumerates D [] :=
  ⟨[], .nil, fun c => iff_of_false (by simp) (h _ _), rfl⟩

theorem single (ks : List Nat) (names : List String) :
    Enumerates (fun ks' names' => ks' = ks ∧ names' = names) [names] :=
  ⟨[(ks, names)], List.pairwise_singleton _ _, fun c => by simp [Prod.ext_iff], rfl⟩

theorem append (h : Enumerates D ns) (h' : Enumerates D' ns')
    (hlt : ∀ {ks names ks' names'}, D ks names → D' ks' names' → ks < ks') :
    Enumerates (fun ks names => D ks names ∨ D' ks names) (ns ++ ns') := by
  obtain ⟨cs, hs, hm, rfl⟩ := h
  obtain ⟨cs', hs', hm', rfl⟩ := h'
  refine ⟨cs ++ cs', ?_, fun c => ?_, (List.map_append ..).symm⟩
  · exact List.pairwise_append.mpr
      ⟨hs, hs', fun c hc c' hc' => hlt ((hm c).mp hc) ((hm' c').mp hc')⟩
  · rw [List.mem_append, hm, hm']

theorem map (h : Enumerates D ns) (f : List Nat → List Nat) (g : List String → List String)
    (hf : ∀ {ks names ks' names'}, D ks names → D ks' names' → ks < ks' → f ks < f ks') :
    Enumerates (fun ks names => ∃ ks' names', D ks' names' ∧ ks = f ks' ∧ names = g names')
      (ns.map g) := by
  obtain ⟨cs, hs, hm, rfl⟩ := h
  refine ⟨cs.map fun c => (f c.1, g c.2), ?_, fun c => ?_, by simp⟩
  · refine List.pairwise_map.mpr (hs.imp_of_mem fun {c c'} hc hc' hlt => ?_)
    exact hf ((hm c).mp hc) ((hm c').mp hc') hlt
  · rw [List.mem_map]
    constructor
    · rintro ⟨c', hc', rfl⟩
      exact ⟨c'.1, c'.2, (hm c').mp hc', rfl, rfl⟩
    · rintro ⟨ks, names, hD, h1, h2⟩
      exact ⟨(ks, names), (hm (ks, names)).mpr hD, Prod.ext h1.symm h2.symm⟩

theorem mem_iff (h : Enumerates D ns) {names : List String} :
    names ∈ ns ↔ ∃ ks, D ks names := by
  obtain ⟨cs, -, hm, rfl⟩ := h
  rw [List.mem_map]
  constructor
  · rintro ⟨c, hc, rfl⟩
    exact ⟨c.1, (hm c).mp hc⟩
  · rintro ⟨ks, hks⟩
    exact ⟨(ks, names), (hm (ks, names)).mpr hks, rfl⟩

end Enumerates

/-! ### Simple descents behind a path -/

namespace Design

variable {d : Design} {path : List String} {n : String} {i : Instance} {is : List Instance}
  {m : ModuleInfo} {ks : List Nat} {names : List String}

/-- A descent that repeats no name of the path and none of its own before its end. -/
def Simple (d : Design) (path : List String) (n : String) (ks : List Nat) (names : List String) :
    Prop :=
  d.Descent n ks names ∧ (path ++ names.dropLast).Nodup

/-- A descent that takes one of some instances first and goes on as a simple one. -/
def SimpleThrough (d : Design) (path : List String) (is : List Instance) (ks : List Nat)
    (names : List String) : Prop :=
  ∃ k ks' i, ks = k :: ks' ∧ is[k]? = some i ∧ i.callee ∈ d.names ∧
    Simple d path i.callee ks' names

/-- The same choices when one more instance stands in front. -/
def bump : List Nat → List Nat
  | [] => []
  | k :: ks => (k + 1) :: ks

/-- At a name of the path a descent ends. -/
theorem simple_of_mem (hp : path.Nodup) (hn : n ∈ path) :
    Simple d path n ks names ↔ ks = [] ∧ names = [n] := by
  constructor
  · rintro ⟨h, hd⟩
    cases h with
    | stay => exact ⟨rfl, rfl⟩
    | step hm hi hc h =>
      obtain ⟨l, rfl⟩ := List.head?_eq_some_iff.mp h.head?
      rw [List.dropLast_cons_cons, List.nodup_append] at hd
      exact absurd rfl (hd.2.2 n hn n (by simp))
  · rintro ⟨rfl, rfl⟩
    exact ⟨.stay n, by simpa using hp⟩

/-- A descent ends, or it goes on through an instance of its module. -/
theorem simple_iff (hm : d.find? n = some m) (hp : path.Nodup) :
    Simple d path n ks names ↔ (ks = [] ∧ names = [n]) ∨
      ∃ ks' rest, SimpleThrough d (path ++ [n]) m.instances ks' rest ∧ ks = ks' ∧
        names = n :: rest := by
  constructor
  · rintro ⟨h, hd⟩
    cases h with
    | stay => exact .inl ⟨rfl, rfl⟩
    | @step _ m' k i ks rest hm' hi hc h =>
      obtain rfl : m = m' := Option.some.inj (hm.symm.trans hm')
      refine .inr ⟨k :: ks, rest, ⟨k, ks, i, rfl, hi, hc, h, ?_⟩, rfl, rfl⟩
      obtain ⟨l, rfl⟩ := List.head?_eq_some_iff.mp h.head?
      rwa [List.dropLast_cons_cons, List.append_cons] at hd
  · rintro (⟨rfl, rfl⟩ | ⟨_, rest, ⟨k, ks, i, rfl, hi, hc, h, hd⟩, rfl, rfl⟩)
    · exact ⟨.stay n, by simpa using hp⟩
    · refine ⟨.step hm hi hc h, ?_⟩
      obtain ⟨l, rfl⟩ := List.head?_eq_some_iff.mp h.head?
      rwa [List.dropLast_cons_cons, List.append_cons]

theorem simpleThrough_cons :
    SimpleThrough d path (i :: is) ks names ↔
      (∃ ks' names', (i.callee ∈ d.names ∧ Simple d path i.callee ks' names') ∧ ks = 0 :: ks' ∧
        names = names') ∨
      ∃ ks' names', SimpleThrough d path is ks' names' ∧ ks = bump ks' ∧ names = names' := by
  constructor
  · rintro ⟨k, ks', j, rfl, hj, hc, h⟩
    cases k with
    | zero =>
      obtain rfl : i = j := by simpa using hj
      exact .inl ⟨ks', names, ⟨hc, h⟩, rfl, rfl⟩
    | succ k =>
      exact .inr ⟨k :: ks', names, ⟨k, ks', j, rfl, by simpa using hj, hc, h⟩, rfl, rfl⟩
  · rintro (⟨ks', _, ⟨hc, h⟩, rfl, rfl⟩ | ⟨_, _, ⟨k, ks', j, rfl, hj, hc, h⟩, rfl, rfl⟩)
    · exact ⟨0, ks', i, rfl, rfl, hc, h⟩
    · exact ⟨k + 1, ks', j, rfl, by simpa using hj, hc, h⟩

/-! ### Simple descents in order -/

theorem enumerates_closed (hp : path.Nodup) (hn : n ∈ path) :
    Enumerates (Simple d path n) [[n]] :=
  (Enumerates.single [] [n]).congr fun _ _ => simple_of_mem hp hn

theorem enumerates_open {ns : List (List String)} (hm : d.find? n = some m) (hp : path.Nodup)
    (h : Enumerates (SimpleThrough d (path ++ [n]) m.instances) ns) :
    Enumerates (Simple d path n) ([n] :: ns.map (n :: ·)) := by
  have hmap := h.map id (n :: ·) fun _ _ hlt => hlt
  refine ((Enumerates.single [] [n]).append hmap ?_).congr fun _ _ => simple_iff hm hp
  rintro _ _ _ _ ⟨rfl, -⟩ ⟨_, _, ⟨k, ks, i, rfl, -⟩, rfl, -⟩
  exact List.nil_lt_cons k ks

/-- The choices in the instances behind the first one, counted from the first one on. -/
theorem enumerates_bump {ns : List (List String)} (h : Enumerates (SimpleThrough d path is) ns) :
    Enumerates (fun ks names => ∃ ks' names', SimpleThrough d path is ks' names' ∧ ks = bump ks' ∧
      names = names') ns := by
  have hmap := h.map bump id ?_
  · rwa [List.map_id] at hmap
  · rintro _ _ _ _ ⟨k, ks, i, rfl, -⟩ ⟨k', ks', i', rfl, -⟩ hlt
    rw [List.cons_lt_cons_iff] at hlt
    rw [bump, bump, List.cons_lt_cons_iff]
    exact hlt.imp Nat.succ_lt_succ (And.imp_left (congrArg _))

theorem enumerates_cons {ns ns' : List (List String)} (hc : i.callee ∈ d.names)
    (h : Enumerates (Simple d path i.callee) ns) (h' : Enumerates (SimpleThrough d path is) ns') :
    Enumerates (SimpleThrough d path (i :: is)) (ns ++ ns') := by
  have hfirst : Enumerates (fun ks names => ∃ ks' names', (i.callee ∈ d.names ∧
      Simple d path i.callee ks' names') ∧ ks = 0 :: ks' ∧ names = names') ns := by
    have hmap := (h.congr fun ks names => and_iff_right hc).map (0 :: ·) id ?_
    · rwa [List.map_id] at hmap
    · intro _ _ _ _ _ _ hlt
      exact List.cons_lt_cons_iff.mpr (.inr ⟨rfl, hlt⟩)
  refine (hfirst.append (enumerates_bump h') ?_).congr fun _ _ => simpleThrough_cons
  rintro _ _ _ _ ⟨ks, _, -, rfl, -⟩ ⟨_, _, ⟨k, ks', i', rfl, -⟩, rfl, -⟩
  exact List.cons_lt_cons_iff.mpr (.inl (Nat.succ_pos k))

theorem enumerates_skip {ns : List (List String)} (hc : i.callee ∉ d.names)
    (h : Enumerates (SimpleThrough d path is) ns) :
    Enumerates (SimpleThrough d path (i :: is)) ns := by
  refine (enumerates_bump h).congr fun _ _ => simpleThrough_cons.trans (or_iff_right ?_)
  rintro ⟨_, _, ⟨hc', -⟩, -⟩
  exact hc hc'

end Design

/-! ### Expansion -/

namespace Hierarchy

open Design

variable {d : Design} {root : String}

/-- **Expansion lists the simple descents** through the instances that it is given. -/
theorem enumerates_expandAll (d : Design) (path : List String) (owner : String)
    (is : List Instance) (hp : path.Nodup) :
    Enumerates (SimpleThrough d path is)
      ((locatedAll (expandAll d path owner is).1).map Prod.fst) := by
  induction path, owner, is using expandAll_induct d with
  | nil path owner =>
    rw [expandAll_nil]
    exact .none fun _ _ => by rintro ⟨k, ks, i, -, hi, -⟩; simp at hi
  | unknown path owner i is hnone ih =>
    rw [expandAll_unknown hnone]
    exact enumerates_skip (Roster.find?_eq_none_iff.mp hnone) (ih hp)
  | cycle path owner i is m hsome hi ih =>
    rw [expandAll_cycle hsome hi]
    exact enumerates_cons (mem_names_of_find? hsome) (enumerates_closed hp hi) (ih hp)
  | opened path owner i is m hsome hi ihLater ihBelow =>
    rw [expandAll_open hsome hi, locatedAll, located, List.map_append, List.map_cons, List.map_map]
    have hp' : (path ++ [i.callee]).Nodup := by
      rw [← List.concat_eq_append]
      exact hp.concat hi
    have hopen := enumerates_open hsome hp (ihBelow hp')
    rw [List.map_map] at hopen
    exact enumerates_cons (mem_names_of_find? hsome) hopen (ihLater hp)

/-- The paths below a module are the descents from it that stop at the first name met before. -/
theorem enumerates_paths (h : root ∈ d.names) :
    Enumerates (fun ks names => d.Descent root ks names ∧ names.dropLast.Nodup)
      (expand d root).1.paths := by
  obtain ⟨m, hm⟩ := Roster.mem_names_iff.mp h
  have hall := enumerates_expandAll d [root] root m.instances (List.nodup_singleton root)
  have hopen := enumerates_open hm List.nodup_nil hall
  rw [expand_of_find? hm, paths, located, List.map_cons, List.map_map]
  rwa [List.map_map] at hopen

theorem mem_paths_expand (h : root ∈ d.names) {names : List String} :
    names ∈ (expand d root).1.paths ↔
      (names.head? = some root ∧ names.IsChain d.Calls) ∧ names.dropLast.Nodup := by
  rw [(enumerates_paths h).mem_iff, exists_and_right, exists_descent_iff]

/-! ### Cycle marks -/

/-- A node closes a cycle when its name stands on its path before it, and then has nothing below. -/
structure Marked (path : List String) (e : List String × Hierarchy) : Prop where
  cycle_iff : e.2.cycle = true ↔ e.2.name ∈ path ++ e.1.dropLast
  children : e.2.cycle = true → e.2.children = []

theorem Marked.below {path : List String} {n : String} {e : List String × Hierarchy}
    (hne : e.1 ≠ []) (h : Marked (path ++ [n]) e) : Marked path (n :: e.1, e.2) := by
  refine ⟨?_, h.children⟩
  rw [List.dropLast_cons_of_ne_nil hne, List.append_cons]
  exact h.cycle_iff

theorem marked_expandAll (d : Design) (path : List String) (owner : String) (is : List Instance) :
    ∀ e ∈ locatedAll (expandAll d path owner is).1, Marked path e := by
  induction path, owner, is using expandAll_induct d with
  | nil path owner =>
    rw [expandAll_nil]
    intro e he
    simp [locatedAll] at he
  | unknown path owner i is hnone ih =>
    rw [expandAll_unknown hnone]
    exact ih
  | cycle path owner i is m hsome hi ih =>
    rw [expandAll_cycle hsome hi]
    intro e he
    rw [locatedAll, List.mem_append] at he
    rcases he with he | he
    · obtain rfl : e = ([i.callee], node i.callee true []) := by
        simpa [located, locatedAll] using he
      exact ⟨by simp [Hierarchy.cycle, Hierarchy.name, hi], fun _ => rfl⟩
    · exact ih e he
  | opened path owner i is m hsome hi ihLater ihBelow =>
    rw [expandAll_open hsome hi]
    intro e he
    rw [locatedAll, located, List.cons_append, List.mem_cons, List.mem_append, List.mem_map] at he
    rcases he with rfl | ⟨e', he', rfl⟩ | he
    · exact ⟨by simp [Hierarchy.cycle, Hierarchy.name, hi], by simp [Hierarchy.cycle]⟩
    · exact (ihBelow e' he').below (ne_nil_of_mem_locatedAll he')
    · exact ihLater e he

theorem marked_expand (d : Design) (root : String) :
    ∀ e ∈ (expand d root).1.located, Marked [] e := by
  have hroot : ∀ ts, Marked [] ([root], node root false ts) := fun ts =>
    ⟨by simp [Hierarchy.cycle], by simp [Hierarchy.cycle]⟩
  rw [expand_eq]
  rcases d.find? root with _ | m
  · intro e he
    obtain rfl : e = ([root], node root false []) := by simpa [located, locatedAll] using he
    exact hroot []
  · intro e he
    rw [located, List.mem_cons, List.mem_map] at he
    rcases he with rfl | ⟨e', he', rfl⟩
    · exact hroot _
    · exact (marked_expandAll d [root] root m.instances e' he').below (ne_nil_of_mem_locatedAll he')

/-! ### Depth -/

/-- The names on a path, its end apart, are distinct names of the design. -/
theorem length_path_le (h : root ∈ d.names) {names : List String}
    (hn : names ∈ (expand d root).1.paths) : names.length - 1 ≤ d.size := by
  obtain ⟨⟨hh, hc⟩, hd⟩ := (mem_paths_expand h).mp hn
  have hsub : names.dropLast ⊆ d.names := fun x hx =>
    mem_names_of_isChain h hh hc (List.dropLast_subset _ hx)
  calc names.length - 1 = names.dropLast.length := List.length_dropLast.symm
    _ ≤ d.names.length := (hd.subperm hsub).length_le
    _ = d.size := List.length_map _

/-- **The hierarchy below a known module** lists the descents from it that stop at the first name
met before: the paths to its nodes in pre-order are the names met on these descents, in the
lexicographic order of the instances taken. A node closes a cycle exactly when its name stands
before it on its path, such a node has nothing below it, and no node is deeper than the design has
modules. -/
theorem paths_expand (d : Design) {root : String} (h : root ∈ d.names) :
    let t := (expand d root).1
    t.walk = t.located.map (fun e => (e.1.length - 1, e.2)) ∧
    Enumerates (fun ks names => d.Descent root ks names ∧ names.dropLast.Nodup)
      (t.located.map Prod.fst) ∧
    (∀ e ∈ t.located, e.1.getLast? = some e.2.name ∧
      (e.2.cycle = true ↔ e.2.name ∈ e.1.dropLast) ∧ (e.2.cycle = true → e.2.children = [])) ∧
    ∀ e ∈ t.walk, e.1 ≤ d.size := by
  intro t
  refine ⟨walk_eq_located t, enumerates_paths h, fun e he => ?_, fun e he => ?_⟩
  · have hmark := marked_expand d root e he
    exact ⟨getLast?_of_mem_located he, by simpa using hmark.cycle_iff, hmark.children⟩
  · rw [walk_eq_located, List.mem_map] at he
    obtain ⟨e', he', rfl⟩ := he
    exact length_path_le h (List.mem_map_of_mem he')

/-- Two modules that use each other, the one twice and with an unknown module between. -/
theorem paths_expand_ring :
    let use (n : String) : Instance := ⟨n, none, "", []⟩
    let d : Design := ⟨[⟨"a", "r.v", .empty, .empty, "", [use "b", use "x", use "b"]⟩,
      ⟨"b", "r.v", .empty, .empty, "", [use "a"]⟩]⟩
    "a" ∈ d.names ∧
    Enumerates (fun ks names => d.Descent "a" ks names ∧ names.dropLast.Nodup)
      [["a"], ["a", "b"], ["a", "b", "a"], ["a", "b"], ["a", "b", "a"]] := by
  intro use d
  have h : "a" ∈ d.names := by decide
  have ha : d.find? "a" = some ⟨"a", "r.v", .empty, .empty, "", [use "b", use "x", use "b"]⟩ := rfl
  have hb : d.find? "b" = some ⟨"b", "r.v", .empty, .empty, "", [use "a"]⟩ := rfl
  have hx : d.find? "x" = none := rfl
  have hp : (expand d "a").1.located.map Prod.fst =
      [["a"], ["a", "b"], ["a", "b", "a"], ["a", "b"], ["a", "b", "a"]] := by
    rw [expand_of_find? ha, expandAll_open (i := use "b") hb (by simp [use]),
      expandAll_unknown (i := use "x") hx, expandAll_open (i := use "b") hb (by simp [use]),
      expandAll_cycle (i := use "a") ha (by simp [use]), expandAll_nil, expandAll_nil]
    rfl
  exact ⟨h, hp ▸ (paths_expand d h).2.1⟩

end Hierarchy

end DesignAtlas
