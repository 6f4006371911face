import DesignAtlas.Document
import Mathlib.Data.List.Nodup

/-! # The flow graph of a section

A flow graph grows from the box of one module by a neighbour and an edge at a time. What holds of it
(`IsFlow`) is kept by each growth: the box comes first and is the only one, ids and edges stand
once, and edges lead from node to node. A neighbour whose id is taken adds no node, so a module that
uses itself, or that is used by a module it uses, has one node for both. The edges are one for each
caller and each callee (`mem_edges_flowGraph`). -/

namespace DesignAtlas

namespace Graph

/-- The ids of the nodes, in order. -/
def ids (g : Graph) : List String := g.nodes.map GraphNode.id

variable {g : Graph} {n : GraphNode} {e f : GraphEdge} {id : String}

/-! ### One more node, one more edge -/

@[simp] theorem edges_addNode (g : Graph) (n : GraphNode) : (g.addNode n).edges = g.edges := by
  unfold addNode
  split_ifs <;> rfl

@[simp] theorem nodes_addEdge (g : Graph) (e : GraphEdge) : (g.addEdge e).nodes = g.nodes := by
  unfold addEdge
  split_ifs <;> rfl

@[simp] theorem ids_addEdge (g : Graph) (e : GraphEdge) : (g.addEdge e).ids = g.ids := by
  unfold ids
  rw [nodes_addEdge]

theorem nodes_addNode (g : Graph) (n : GraphNode) :
    (g.addNode n).nodes = if n.id ∈ g.ids then g.nodes else g.nodes ++ [n] := by
  have hc : (g.nodes.map GraphNode.id).contains n.id = true ↔ n.id ∈ g.ids :=
    List.contains_iff_mem
  unfold addNode
  simp only [hc]
  split_ifs <;> rfl

theorem mem_ids_addNode : id ∈ (g.addNode n).ids ↔ id ∈ g.ids ∨ id = n.id := by
  unfold ids
  rw [nodes_addNode]
  split_ifs with h
  · constructor
    · exact Or.inl
    · rintro (hid | rfl)
      · exact hid
      · exact h
  · simp

theorem mem_edges_addEdge : f ∈ (g.addEdge e).edges ↔ f ∈ g.edges ∨ f = e := by
  unfold addEdge
  split_ifs with h
  · rw [List.contains_iff_mem] at h
    constructor
    · exact Or.inl
    · rintro (hf | rfl)
      · exact hf
      · exact h
  · simp

theorem nodup_ids_addNode (h : g.ids.Nodup) (n : GraphNode) : (g.addNode n).ids.Nodup := by
  unfold ids
  rw [nodes_addNode]
  split_ifs with hn
  · exact h
  · rw [List.map_append, List.map_singleton, ← List.concat_eq_append]
    exact h.concat hn

theorem nodup_edges_addEdge (h : g.edges.Nodup) (e : GraphEdge) : (g.addEdge e).edges.Nodup := by
  unfold addEdge
  split_ifs with he
  · exact h
  · rw [List.contains_iff_mem] at he
    rw [← List.concat_eq_append]
    exact h.concat he

/-! ### Graphs around one box -/

/-- A graph around one box: the module `name`. -/
structure IsFlow (name : String) (g : Graph) : Prop where
  /-- The first node is the box of the module, and no other node is a box. -/
  box : ∃ n ns, g.nodes = n :: ns ∧ n.id = name ∧ n.shape = .box ∧ ∀ m ∈ ns, m.shape ≠ .box
  nodes_once : g.ids.Nodup
  edges_once : g.edges.Nodup
  ends : ∀ e ∈ g.edges, e.source ∈ g.ids ∧ e.target ∈ g.ids

variable {name : String}

theorem IsFlow.mem_ids (h : g.IsFlow name) : name ∈ g.ids := by
  obtain ⟨n, ns, hn, rfl, -, -⟩ := h.box
  unfold ids
  rw [hn]
  exact List.mem_map_of_mem List.mem_cons_self

theorem isFlow_start (name label : String) (url : Option String) :
    (empty.addNode ⟨name, label, .box, url⟩).IsFlow name where
  box := ⟨_, [], rfl, rfl, rfl, fun _ h => absurd h List.not_mem_nil⟩
  nodes_once := List.nodup_singleton _
  edges_once := List.nodup_nil
  ends := fun _ h => absurd h List.not_mem_nil

theorem IsFlow.addNode (h : g.IsFlow name) (hn : n.shape ≠ .box) : (g.addNode n).IsFlow name where
  box := by
    obtain ⟨m, ms, hm, hid, hbox, hrest⟩ := h.box
    rw [nodes_addNode]
    split_ifs
    · exact ⟨m, ms, hm, hid, hbox, hrest⟩
    · refine ⟨m, ms ++ [n], by rw [hm, List.cons_append], hid, hbox, fun k hk => ?_⟩
      rcases List.mem_append.mp hk with hk | hk
      · exact hrest k hk
      · rw [List.mem_singleton.mp hk]
        exact hn
  nodes_once := nodup_ids_addNode h.nodes_once n
  edges_once := by
    rw [edges_addNode]
    exact h.edges_once
  ends := by
    intro e he
    rw [edges_addNode] at he
    have := h.ends e he
    exact ⟨mem_ids_addNode.mpr (Or.inl this.1), mem_ids_addNode.mpr (Or.inl this.2)⟩

theorem IsFlow.addEdge (h : g.IsFlow name) (hs : e.source ∈ g.ids) (ht : e.target ∈ g.ids) :
    (g.addEdge e).IsFlow name where
  box := by
    rw [nodes_addEdge]
    exact h.box
  nodes_once := by
    rw [ids_addEdge]
    exact h.nodes_once
  edges_once := nodup_edges_addEdge h.edges_once e
  ends := by
    intro f hf
    rw [ids_addEdge]
    rcases mem_edges_addEdge.mp hf with hf | rfl
    · exact h.ends f hf
    · exact ⟨hs, ht⟩

end Graph

/-! ### The neighbours of a section -/

namespace Section

open DesignAtlas.Graph (IsFlow)

variable {g : Graph} {name : String}

/-- Adds a neighbour with an edge between it and the module in the box. -/
def addNeighbour (edge : Link → GraphEdge) (g : Graph) (l : Link) : Graph :=
  (g.addNode (neighbour l)).addEdge (edge l)

theorem flowGraph_eq (s : Section) : s.flowGraph =
    s.callees.foldl (addNeighbour fun l => ⟨s.name, l.name⟩)
      (s.callers.foldl (addNeighbour fun l => ⟨l.name, s.name⟩)
        (Graph.empty.addNode ⟨s.name, s.name, .box, none⟩)) := rfl

/-- The edge of a neighbour leads from it to the module, or from the module to it. -/
def Joins (name : String) (edge : Link → GraphEdge) : Prop :=
  ∀ l, edge l = ⟨l.name, name⟩ ∨ edge l = ⟨name, l.name⟩

theorem isFlow_addNeighbour {edge : Link → GraphEdge} (he : Joins name edge)
    (h : g.IsFlow name) (l : Link) : (addNeighbour edge g l).IsFlow name := by
  have hnode : (g.addNode (neighbour l)).IsFlow name := h.addNode (by simp [neighbour])
  have hl : l.name ∈ (g.addNode (neighbour l)).ids := Graph.mem_ids_addNode.mpr (Or.inr rfl)
  unfold addNeighbour
  rcases he l with he | he
  · rw [he]
    exact hnode.addEdge hl hnode.mem_ids
  · rw [he]
    exact hnode.addEdge hnode.mem_ids hl

theorem isFlow_foldl {edge : Link → GraphEdge} (he : Joins name edge) :
    ∀ (ls : List Link) {g : Graph}, g.IsFlow name →
      (ls.foldl (addNeighbour edge) g).IsFlow name
  | [], _, h => h
  | l :: ls, _, h => isFlow_foldl he ls (isFlow_addNeighbour he h l)

theorem mem_edges_foldl {edge : Link → GraphEdge} {e : GraphEdge} :
    ∀ (ls : List Link) {g : Graph},
      e ∈ (ls.foldl (addNeighbour edge) g).edges ↔ e ∈ g.edges ∨ ∃ l ∈ ls, e = edge l
  | [], g => by simp
  | l :: ls, g => by
    have hstep : e ∈ (addNeighbour edge g l).edges ↔ e ∈ g.edges ∨ e = edge l := by
      unfold addNeighbour
      rw [Graph.mem_edges_addEdge, Graph.edges_addNode]
    simp only [List.foldl_cons, mem_edges_foldl ls, hstep, or_assoc, List.mem_cons,
      exists_eq_or_imp]

/-- **The flow graph of a section** is a graph around the box of its module. -/
theorem isFlow_flowGraph (s : Section) : s.flowGraph.IsFlow s.name := by
  rw [flowGraph_eq]
  refine isFlow_foldl (fun l => Or.inr rfl) _ ?_
  exact isFlow_foldl (fun l => Or.inl rfl) _ (Graph.isFlow_start s.name s.name none)

/-- **The edges of a flow graph** lead from the callers to the module and from it to the callees. -/
theorem mem_edges_flowGraph {s : Section} {a b : String} :
    ⟨a, b⟩ ∈ s.flowGraph.edges ↔
      (b = s.name ∧ ∃ l ∈ s.callers, l.name = a) ∨ (a = s.name ∧ ∃ l ∈ s.callees, l.name = b) := by
  have hstart : (Graph.empty.addNode ⟨s.name, s.name, .box, none⟩).edges = [] := rfl
  rw [flowGraph_eq, mem_edges_foldl, mem_edges_foldl, hstart]
  simp only [List.not_mem_nil, false_or, GraphEdge.mk.injEq]
  constructor
  · rintro (⟨l, hl, rfl, rfl⟩ | ⟨l, hl, rfl, rfl⟩)
    · exact Or.inl ⟨rfl, l, hl, rfl⟩
    · exact Or.inr ⟨rfl, l, hl, rfl⟩
  · rintro (⟨rfl, l, hl, rfl⟩ | ⟨rfl, l, hl, rfl⟩)
    · exact Or.inl ⟨l, hl, rfl, rfl⟩
    · exact Or.inr ⟨l, hl, rfl, rfl⟩

end Section

end DesignAtlas
