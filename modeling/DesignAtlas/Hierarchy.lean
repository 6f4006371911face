import DesignAtlas.Design

/-! # The hierarchy of a design

The hierarchy below a module is a tree: each instance whose module is known is a child, in the order
of the instances and with repetitions. A module that already stands on the path from the root is not
expanded again; the node closes a cycle, and the cycle is reported. Expansion ends because the
modules on a path are distinct. -/

namespace DesignAtlas

/-- A tree of instances. -/
inductive Hierarchy where
  /-- A module, whether it closes a cycle, and the nodes below it. -/
  | node (name : String) (cycle : Bool) (children : List Hierarchy)
  deriving Repr

namespace Hierarchy

/-- The module at the root. -/
def name : Hierarchy → String
  | node n _ _ => n

/-- Whether the root closes a cycle. -/
def cycle : Hierarchy → Bool
  | node _ c _ => c

/-- The nodes directly below the root. -/
def children : Hierarchy → List Hierarchy
  | node _ _ ts => ts

/-! ### Size and order -/

mutual

/-- The number of nodes. -/
def size : Hierarchy → Nat
  | node _ _ ts => 1 + sizeAll ts

/-- The number of nodes of some trees. -/
def sizeAll : List Hierarchy → Nat
  | [] => 0
  | t :: ts => size t + sizeAll ts

end

theorem sizeAll_append (a b : List Hierarchy) : sizeAll (a ++ b) = sizeAll a + sizeAll b := by
  induction a with
  | nil => simp [sizeAll]
  | cons t ts ih => simp [sizeAll, ih, Nat.add_assoc]

/-- The nodes met when the tree at the front of a worklist is visited first and its children come
before the trees behind it. -/
def walkAll : List (Nat × Hierarchy) → List (Nat × Hierarchy)
  | [] => []
  | (depth, t) :: rest =>
    (depth, t) :: walkAll (t.children.map (fun c => (depth + 1, c)) ++ rest)
  termination_by work => sizeAll (work.map Prod.snd)
  decreasing_by
    cases t
    simp only [List.map_append, List.map_map, children, List.map_cons, sizeAll, sizeAll_append,
      size]
    have h : ∀ ts : List Hierarchy,
        sizeAll (ts.map (Prod.snd ∘ fun c => (depth + 1, c))) = sizeAll ts := by
      intro ts
      induction ts with
      | nil => rfl
      | cons u us ih => simp only [List.map_cons, sizeAll, ih, Function.comp]
    rw [h]
    omega

/-- The nodes in pre-order, each with its depth; the root has depth 0. -/
def walk (t : Hierarchy) : List (Nat × Hierarchy) := walkAll [(0, t)]

/-! ### Expansion -/

/-- The number of modules that are not on the path. -/
def unvisited (d : Design) (path : List String) : Nat :=
  (d.names.filter fun n => !path.contains n).length

theorem unvisited_append_lt {d : Design} {path : List String} {n : String} (h : n ∈ d.names)
    (hp : n ∉ path) : unvisited d (path ++ [n]) < unvisited d path := by
  unfold unvisited
  generalize d.names = names at h
  have hle : ∀ l : List String, (l.filter fun m => !(path ++ [n]).contains m).length ≤
      (l.filter fun m => !path.contains m).length := by
    intro l
    induction l with
    | nil => simp
    | cons m l ih =>
      simp only [List.filter_cons]
      by_cases h1 : m ∈ path
      · simpa [h1] using ih
      · by_cases h2 : m = n
        · simp [h2, hp] at ih ⊢; omega
        · simp [h1, h2] at ih ⊢; omega
  induction names with
  | nil => simp at h
  | cons m l ih =>
    simp only [List.filter_cons]
    by_cases hm : m = n
    · subst hm
      have := hle l
      simp [hp] at this ⊢
      omega
    · have hl : n ∈ l := by simpa [Ne.symm hm] using h
      have := ih hl
      by_cases h1 : m ∈ path
      · simpa [h1] using this
      · simp [h1, hm] at this ⊢
        omega

theorem mem_names_of_find? {d : Design} {n : String} {m : ModuleInfo} (h : d.find? n = some m) :
    n ∈ d.names := by
  unfold Roster.find? at h
  have h1 := List.find?_some h
  have h2 := List.mem_of_find?_eq_some h
  simp only [beq_iff_eq] at h1
  exact List.mem_map.mpr ⟨m, h2, h1⟩

/-- The report of a cycle that module `owner` closes by instantiating `callee`. -/
def cycleReport (path : List String) (owner callee : String) : Diagnostic :=
  ⟨.circularInstantiation, owner, " -> ".intercalate (path ++ [callee])⟩

/-- The trees of some instances of module `owner`, which ends the path. The cycles in them are
reported behind the diagnostics `ds`. -/
def expandAllOnto (d : Design) (path : List String) (owner : String) :
    List Instance → List Diagnostic → List Hierarchy × List Diagnostic
  | [], ds => ([], ds)
  | i :: is, ds =>
    match _h : d.find? i.callee with
    | none => expandAllOnto d path owner is ds
    | some m =>
      if _hp : i.callee ∈ path then
        let later := expandAllOnto d path owner is (ds ++ [cycleReport path owner i.callee])
        (node i.callee true [] :: later.1, later.2)
      else
        let below := expandAllOnto d (path ++ [i.callee]) i.callee m.instances ds
        let later := expandAllOnto d path owner is below.2
        (node i.callee false below.1 :: later.1, later.2)
  termination_by is => (unvisited d path, is.length)
  decreasing_by
    · apply Prod.Lex.right; simp
    · apply Prod.Lex.right; simp
    · apply Prod.Lex.left; exact unvisited_append_lt (mem_names_of_find? ‹_›) ‹_›
    · apply Prod.Lex.right; simp

/-- The hierarchy below a module. Its cycles are reported behind the diagnostics `ds`. An unknown
module has nothing below it. -/
def expandOnto (d : Design) (root : String) (ds : List Diagnostic) : Hierarchy × List Diagnostic :=
  match d.find? root with
  | none => (node root false [], ds)
  | some m =>
    let below := expandAllOnto d [root] root m.instances ds
    (node root false below.1, below.2)

/-- The trees of some instances and the reports of the cycles in them. -/
def expandAll (d : Design) (path : List String) (owner : String) (is : List Instance) :
    List Hierarchy × List Diagnostic :=
  expandAllOnto d path owner is []

/-- The hierarchy below a module and the reports of its cycles. -/
def expand (d : Design) (root : String) : Hierarchy × List Diagnostic := expandOnto d root []

/-! ### Outline -/

/-- One line of the outline. -/
def outlineLine (depth : Nat) (t : Hierarchy) : String :=
  String.join (List.replicate depth "  ") ++ t.name ++ (if t.cycle then " (cycle)" else "") ++ "\n"

/-- The tree as indented lines, two spaces for each level. -/
def outline (t : Hierarchy) : String :=
  String.join (t.walk.map fun e => outlineLine e.1 e.2)

end Hierarchy

end DesignAtlas
